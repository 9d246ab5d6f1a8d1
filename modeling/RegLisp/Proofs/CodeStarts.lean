import Mathlib
import RegLisp.Module.Basic

/-!
# Starts of code

The ranges of a module come from its definitions in the order of their starts, and each ends at the
first start behind its own. In sorted starts that is the least of all starts behind it, whether
they come before or after it, so where a range ends can be told from the table alone. The frames of
a module that is made of parts are measured on these ranges.
-/

namespace RegLisp

/-- The addresses that a function table defines, in table order. -/
def definedAddresses (functions : Array FunctionEntry) : List Nat :=
  functions.toList.filterMap fun f => f.address.map UInt64.toNat

/-- The least of the given starts and the size of the code. -/
def firstStart (size : Nat) (starts : List Nat) : Nat := starts.foldl min size

/-- The least of the size of the code and those of the given starts that lie behind one. -/
def nextStart (size : Nat) (starts : List Nat) (start : Nat) : Nat :=
  firstStart size (starts.filter (start < ·))

/-! ## Least starts -/

theorem firstStart_le (size : Nat) (starts : List Nat) :
    firstStart size starts ≤ size ∧ ∀ s ∈ starts, firstStart size starts ≤ s := by
  unfold firstStart
  induction starts generalizing size with
  | nil => simp
  | cons s starts ih =>
    obtain ⟨le, all⟩ := ih (min size s)
    simp only [List.foldl_cons, List.mem_cons, forall_eq_or_imp]
    exact ⟨by omega, by omega, all⟩

theorem firstStart_mem (size : Nat) (starts : List Nat) :
    firstStart size starts = size ∨ firstStart size starts ∈ starts := by
  unfold firstStart
  induction starts generalizing size with
  | nil => exact .inl rfl
  | cons s starts ih =>
    simp only [List.foldl_cons, List.mem_cons]
    obtain eq | mem := ih (min size s)
    · rw [eq]
      omega
    · exact .inr (.inr mem)

/-- The first start is known by being the least. -/
theorem firstStart_eq {size stop : Nat} {starts : List Nat} (le : stop ≤ size)
    (least : ∀ s ∈ starts, stop ≤ s) (mem : stop = size ∨ stop ∈ starts) :
    firstStart size starts = stop := by
  obtain ⟨le_size, le_starts⟩ := firstStart_le size starts
  apply Nat.le_antisymm
  · obtain rfl | mem := mem
    · exact le_size
    · exact le_starts stop mem
  · obtain eq | mem := firstStart_mem size starts
    · rwa [eq]
    · exact least _ mem

theorem nextStart_eq {size start stop : Nat} {starts : List Nat} (le : stop ≤ size)
    (behind : start < stop) (least : ∀ s ∈ starts, start < s → stop ≤ s)
    (mem : stop = size ∨ stop ∈ starts) : nextStart size starts start = stop := by
  apply firstStart_eq le
  · intro s hs
    rw [List.mem_filter, decide_eq_true_eq] at hs
    exact least s hs.1 hs.2
  · refine mem.imp_right fun mem => ?_
    rw [List.mem_filter, decide_eq_true_eq]
    exact ⟨mem, behind⟩

theorem le_firstStart_iff {size a : Nat} {starts : List Nat} :
    a ≤ firstStart size starts ↔ a ≤ size ∧ ∀ s ∈ starts, a ≤ s := by
  obtain ⟨le_size, le_starts⟩ := firstStart_le size starts
  constructor
  · intro le
    exact ⟨le.trans le_size, fun s mem => le.trans (le_starts s mem)⟩
  · rintro ⟨le, all⟩
    obtain eq | mem := firstStart_mem size starts
    · rwa [eq]
    · exact all _ mem

theorem le_nextStart_iff {size a start : Nat} {starts : List Nat} :
    a ≤ nextStart size starts start ↔ a ≤ size ∧ ∀ s ∈ starts, start < s → a ≤ s := by
  simp [nextStart, le_firstStart_iff]

theorem nextStart_le {size start s : Nat} {starts : List Nat} (mem : s ∈ starts)
    (behind : start < s) : nextStart size starts start ≤ s :=
  (firstStart_le _ _).2 s (by simp [mem, behind])

/-! ## Updates by index -/

theorem getElem?_foldl_modify_other {α β : Type} {index : β → Nat} {g : β → α → α}
    {xs : List β} {as : Array α} {i : Nat} (other : i ∉ xs.map index) :
    (xs.foldl (fun as x => as.modify (index x) (g x)) as)[i]? = as[i]? := by
  induction xs generalizing as with
  | nil => rfl
  | cons x xs ih =>
    rw [List.map_cons, List.mem_cons, not_or] at other
    rw [List.foldl_cons, ih other.2, Array.getElem?_modify, if_neg (Ne.symm other.1)]

/-- Updates at different indices do not meet. -/
theorem getElem?_foldl_modify {α β : Type} {index : β → Nat} {g : β → α → α} {xs : List β}
    {as : Array α} (nodup : (xs.map index).Nodup) {x : β} (mem : x ∈ xs) :
    (xs.foldl (fun as x => as.modify (index x) (g x)) as)[index x]? =
      as[index x]?.map (g x) := by
  induction xs generalizing as with
  | nil => cases mem
  | cons y xs ih =>
    rw [List.map_cons, List.nodup_cons] at nodup
    rw [List.foldl_cons]
    obtain rfl | mem := List.mem_cons.1 mem
    · rw [getElem?_foldl_modify_other nodup.1, Array.getElem?_modify, if_pos rfl]
    · have other : index y ≠ index x := by
        intro eq
        exact nodup.1 (eq ▸ List.mem_map_of_mem mem)
      rw [ih nodup.2 mem, Array.getElem?_modify, if_neg other]

/-! ## Frame sizes -/

theorem le_foldl_max {α : Type} (f : α → Nat) (xs : List α) (n : Nat) :
    n ≤ xs.foldl (fun n x => max n (f x)) n ∧
      ∀ x ∈ xs, f x ≤ xs.foldl (fun n x => max n (f x)) n := by
  induction xs generalizing n with
  | nil => simp
  | cons x xs ih =>
    obtain ⟨le, all⟩ := ih (max n (f x))
    simp only [List.foldl_cons, List.mem_cons, forall_eq_or_imp]
    exact ⟨by omega, by omega, all⟩

/-- A frame has every register that an instruction of its code names. -/
theorem lt_frameSize_of_fetch {code : Array Instruction} {start stop a : Nat} {i : Instruction}
    (start_le : start ≤ a) (lt_stop : a < stop) (found : code[a]? = some i) {r : Nat}
    (hr : i.maxLocalRegister = some r) : r < frameSize code start stop := by
  have mem : i ∈ (code.extract start stop).toList := by
    have lt_size := (Array.getElem?_eq_some_iff.1 found).1
    refine Array.mem_toList_iff.2 (Array.mem_of_getElem? (i := a - start) ?_)
    rw [Array.getElem?_extract, if_pos (by omega), Nat.add_sub_cancel' start_le, found]
  unfold frameSize
  rw [← Array.foldl_toList]
  have le := (le_foldl_max (fun i : Instruction => (i.maxLocalRegister.map (· + 1)).getD 0) _ 0).2
    i mem
  simp only [hr, Option.map_some, Option.getD_some] at le
  exact le

namespace Module

variable {m : Module}

/-! ## Definitions by address -/

/-- The function with the given index is defined at the given address. -/
def Defines (m : Module) (index address : Nat) : Prop :=
  ∃ f word, m.functions[index]? = some f ∧ f.address = some word ∧ word.toNat = address

/-- The indices and addresses of the definitions, in the order of the table. -/
def placed (m : Module) : List (Nat × Nat) :=
  m.definitions.map fun (i, f) => (i, f.storedAddress.toNat)

theorem Defines.unique {i a b : Nat} (h : m.Defines i a) (h' : m.Defines i b) : a = b := by
  obtain ⟨f, word, hf, hw, rfl⟩ := h
  obtain ⟨f', word', hf', hw', rfl⟩ := h'
  rw [hf, Option.some.injEq] at hf'
  rw [← hf', hw, Option.some.injEq] at hw'
  rw [hw']

theorem mem_definedAddresses {a : Nat} :
    a ∈ definedAddresses m.functions ↔ ∃ i, m.Defines i a := by
  simp only [definedAddresses, List.mem_filterMap, Array.mem_toList_iff, Option.map_eq_some_iff]
  constructor
  · rintro ⟨f, mem, word, hw, rfl⟩
    obtain ⟨i, hi⟩ := Array.mem_iff_getElem?.1 mem
    exact ⟨i, f, word, hi, hw, rfl⟩
  · rintro ⟨i, f, word, hi, hw, rfl⟩
    exact ⟨f, Array.mem_of_getElem? hi, word, hw, rfl⟩

theorem mem_placed {i a : Nat} : (i, a) ∈ m.placed ↔ m.Defines i a := by
  simp only [placed, definitions, entriesWhere, List.mem_map, List.mem_filter, Prod.exists,
    List.mem_zipIdx_iff_getElem?]
  constructor
  · rintro ⟨j, f, ⟨⟨g, k, hg, heq⟩, defined⟩, heq'⟩
    cases heq
    cases heq'
    cases hw : f.address with
    | none => simp [FunctionEntry.isExternal, hw] at defined
    | some word =>
      exact ⟨f, word, by simpa using hg, hw, by simp [FunctionEntry.storedAddress, hw]⟩
  · rintro ⟨f, word, hf, hw, rfl⟩
    refine ⟨i, f, ⟨⟨f, i, by simpa using hf, rfl⟩, ?_⟩, ?_⟩
    · simp [FunctionEntry.isExternal, hw]
    · simp [FunctionEntry.storedAddress, hw]

theorem insertStart_perm (d : Nat × Nat) (ds : List (Nat × Nat)) :
    (insertStart d ds).Perm (d :: ds) := by
  induction ds with
  | nil => exact .refl _
  | cons e ds ih =>
    rw [insertStart]
    split
    · exact .refl _
    · exact (ih.cons e).trans (.swap d e ds)

theorem foldr_insertStart_perm (ds : List (Nat × Nat)) : (ds.foldr insertStart []).Perm ds := by
  induction ds with
  | nil => exact .refl _
  | cons d ds ih => exact (insertStart_perm d _).trans (ih.cons d)

theorem starts_perm (m : Module) : m.starts.Perm m.placed := foldr_insertStart_perm m.placed

theorem mem_starts {i a : Nat} : (i, a) ∈ m.starts ↔ m.Defines i a :=
  m.starts_perm.mem_iff.trans mem_placed

/-- The table is gone through from front to back. -/
theorem placed_pairwise : m.placed.Pairwise (·.1 < ·.1) := by
  have indices : (m.functions.toList.zipIdx.map Prod.snd).Pairwise (· < ·) := by
    rw [List.zipIdx_map_snd]
    exact List.pairwise_lt_range'
  rw [placed, List.pairwise_map, definitions, entriesWhere]
  apply List.Pairwise.filter
  rw [List.pairwise_map]
  exact List.pairwise_map.1 indices

/-- A definition comes before another one if it starts earlier, or if both have one start and it
comes first in the table. -/
def Precedes (x y : Nat × Nat) : Prop := x.2 < y.2 ∨ x.2 = y.2 ∧ x.1 < y.1

theorem Precedes.le {x y : Nat × Nat} (h : Precedes x y) : x.2 ≤ y.2 := by
  unfold Precedes at h
  omega

/-- Insertion keeps the order. As a definition is inserted after those behind it in the table, it
goes before the ones with its start. -/
theorem insertStart_pairwise {d : Nat × Nat} {ds : List (Nat × Nat)} (first : ∀ e ∈ ds, d.1 < e.1)
    (sorted : ds.Pairwise Precedes) : (insertStart d ds).Pairwise Precedes := by
  induction ds with
  | nil => exact List.pairwise_singleton _ _
  | cons e ds ih =>
    rw [List.forall_mem_cons] at first
    rw [List.pairwise_cons] at sorted
    rw [insertStart]
    split
    case isTrue le =>
      refine List.pairwise_cons.2 ⟨?_, List.pairwise_cons.2 sorted⟩
      rw [List.forall_mem_cons]
      refine ⟨?_, fun x mem => ?_⟩
      · unfold Precedes
        omega
      · have later := first.2 x mem
        have := sorted.1 x mem
        unfold Precedes at this ⊢
        omega
    case isFalse lt =>
      refine List.pairwise_cons.2 ⟨fun x mem => ?_, ih first.2 sorted.2⟩
      obtain rfl | mem := List.mem_cons.1 ((insertStart_perm d ds).mem_iff.1 mem)
      · exact .inl (by omega)
      · exact sorted.1 x mem

theorem starts_pairwise : m.starts.Pairwise Precedes := by
  have indices := @placed_pairwise m
  rw [starts, ← placed]
  generalize m.placed = ds at indices ⊢
  induction ds with
  | nil => exact .nil
  | cons d ds ih =>
    rw [List.pairwise_cons] at indices
    refine insertStart_pairwise (fun e mem => indices.1 e ?_) (ih indices.2)
    exact (foldr_insertStart_perm ds).mem_iff.1 mem

/-! ## Ends of ranges -/

/-- The range of the entry section. -/
def entryRange (m : Module) : CodeRange :=
  ⟨none, 0, firstStart m.code.size (definedAddresses m.functions)⟩

/-- The range of the definition with the given index and address. -/
def rangeAt (m : Module) (d : Nat × Nat) : CodeRange :=
  ⟨some d.1, min d.2 m.code.size, nextStart m.code.size (definedAddresses m.functions) d.2⟩

/-- A scan of sorted starts stops at the least of those behind the given one. -/
theorem le_find?_iff {size a start : Nat} {starts : List Nat} (sorted : starts.Pairwise (· ≤ ·)) :
    a ≤ min ((starts.find? (start < ·)).getD size) size ↔
      a ≤ size ∧ ∀ s ∈ starts, start < s → a ≤ s := by
  induction starts with
  | nil => simp
  | cons s starts ih =>
    rw [List.pairwise_cons] at sorted
    by_cases behind : start < s
    · rw [List.find?_cons, decide_eq_true behind]
      simp only [Option.getD_some, Nat.le_min, List.forall_mem_cons]
      constructor
      · rintro ⟨le, le_size⟩
        exact ⟨le_size, fun _ => le, fun t ht _ => le.trans (sorted.1 t ht)⟩
      · rintro ⟨le_size, le, -⟩
        exact ⟨le behind, le_size⟩
    · rw [List.find?_cons, decide_eq_false behind]
      simp only [ih sorted.2, List.forall_mem_cons, behind, false_implies, true_and]

/-- The scan sees later starts only. It misses nothing, as every other start is no greater. -/
theorem definedRanges_eq {size : Nat} {all : List Nat} {ds : List (Nat × Nat)}
    (sorted : (ds.map Prod.snd).Pairwise (· ≤ ·)) (sub : ∀ d ∈ ds, d.2 ∈ all)
    (rest : ∀ s ∈ all, s ∈ ds.map Prod.snd ∨ ∀ d ∈ ds, s ≤ d.2) :
    definedRanges size ds =
      ds.map fun d => ⟨some d.1, min d.2 size, nextStart size all d.2⟩ := by
  induction ds with
  | nil => rfl
  | cons d ds ih =>
    rw [List.map_cons, List.pairwise_cons] at sorted
    rw [List.forall_mem_cons] at sub
    have le_later : ∀ d' ∈ ds, d.2 ≤ d'.2 :=
      fun d' mem => sorted.1 _ (List.mem_map_of_mem mem)
    have stop_eq : min (((ds.map Prod.snd).find? (d.2 < ·)).getD size) size =
        nextStart size all d.2 := by
      apply eq_of_forall_le_iff
      intro a
      rw [le_find?_iff sorted.2, le_nextStart_iff]
      refine and_congr_right fun _ => ⟨fun h s hs behind => ?_, fun h s hs => ?_⟩
      · obtain mem | le := rest s hs
        · obtain rfl | mem := List.mem_cons.1 mem
          · omega
          · exact h s mem behind
        · have := le d (.head _)
          omega
      · obtain ⟨d', mem, rfl⟩ := List.mem_map.1 hs
        exact h _ (sub.2 d' mem)
    rw [definedRanges, stop_eq, List.map_cons, ih sorted.2 sub.2 ?_]
    intro s hs
    obtain mem | le := rest s hs
    · obtain rfl | mem := List.mem_cons.1 mem
      · exact .inr le_later
      · exact .inl mem
    · exact .inr fun d' mem => le d' (.tail _ mem)

/-- Where ranges end can be told from the table in any order. -/
theorem codeRanges_eq (m : Module) : m.codeRanges = m.entryRange :: m.starts.map m.rangeAt := by
  have sorted : m.starts.Pairwise fun x y => x.2 ≤ y.2 := starts_pairwise.imp Precedes.le
  have mem_all {s : Nat} : s ∈ definedAddresses m.functions ↔ ∃ d ∈ m.starts, d.2 = s := by
    simp only [mem_definedAddresses, Prod.exists, mem_starts, exists_eq_right]
  have first : min ((m.starts.head?.map Prod.snd).getD m.code.size) m.code.size =
      firstStart m.code.size (definedAddresses m.functions) := by
    apply eq_of_forall_le_iff
    intro a
    rw [le_firstStart_iff]
    simp only [mem_all, forall_exists_index, and_imp, forall_apply_eq_imp_iff₂]
    cases starts : m.starts with
    | nil => simp
    | cons d ds =>
      rw [starts, List.pairwise_cons] at sorted
      rw [List.head?_cons, Option.map_some, Option.getD_some, Nat.le_min, List.forall_mem_cons]
      constructor
      · rintro ⟨le, le_size⟩
        exact ⟨le_size, le, fun d' mem => le.trans (sorted.1 d' mem)⟩
      · rintro ⟨le_size, le, -⟩
        exact ⟨le, le_size⟩
  rw [codeRanges, first, definedRanges_eq (List.pairwise_map.2 sorted)
    (fun d mem => mem_all.2 ⟨d, mem, rfl⟩)
    fun s hs => .inl (List.mem_map.2 (mem_all.1 hs))]
  rfl

theorem nodup_indices (m : Module) : (m.starts.map Prod.fst).Nodup := by
  have indices : (m.placed.map Prod.fst).Nodup :=
    (List.pairwise_map.2 placed_pairwise).imp Nat.ne_of_lt
  exact (m.starts_perm.map _).nodup_iff.2 indices

/-! ## Frames -/

/-- The size of the frame that an owner of code is given. -/
def frameOf (m : Module) : Option Nat → Option Nat
  | none => some m.entryReservation
  | some i => m.functions[i]?.map FunctionEntry.reservation

/-- The frames of definitions are measured one after the other, in the table. -/
theorem foldl_reserve {range : Nat × Nat → CodeRange} (owner : ∀ d, (range d).owner = some d.1)
    (ds : List (Nat × Nat)) (m : Module) :
    (ds.map range).foldl reserve m = { m with
      functions := ds.foldl (fun functions d => functions.modify d.1
        ({ · with reservation := frameSize m.code (range d).start (range d).stop }))
          m.functions } := by
  induction ds generalizing m with
  | nil => rfl
  | cons d ds ih =>
    have first : m.reserve (range d) = { m with
        functions := m.functions.modify d.1
          ({ · with reservation := frameSize m.code (range d).start (range d).stop }) } := by
      rw [reserve, owner d]
    rw [List.map_cons, List.foldl_cons, ih, first, List.foldl_cons]

end Module

/-- The entry with the frame that its code asks for, in code with the given starts. -/
def FunctionEntry.measured (code : Array Instruction) (starts : List Nat) (f : FunctionEntry) :
    FunctionEntry :=
  match f.address with
  | some address =>
    let start := address.toNat
    { f with
      reservation := frameSize code (min start code.size) (nextStart code.size starts start) }
  | none => f

theorem FunctionEntry.measured_of_address {f : FunctionEntry} {word : UInt64}
    (h : f.address = some word) (code : Array Instruction) (starts : List Nat) :
    f.measured code starts = { f with
      reservation := frameSize code (min word.toNat code.size)
        (nextStart code.size starts word.toNat) } := by
  rw [measured, h]

@[simp] theorem FunctionEntry.address_measured (code : Array Instruction) (starts : List Nat)
    (f : FunctionEntry) : (f.measured code starts).address = f.address := by
  unfold measured
  split <;> rfl

namespace Module

/-- A module that is made of parts has them, with every frame measured. -/
theorem ofParts_eq (name : String) (functions : Array FunctionEntry) (constants : Array UInt64)
    (code : Array Instruction) :
    ofParts name functions constants code =
      { name
        functions := functions.map (.measured code (definedAddresses functions))
        constants
        code
        entryReservation :=
          frameSize code 0 (firstStart code.size (definedAddresses functions)) } := by
  let bare : Module := { name, functions, constants, code }
  have unfolded : ofParts name functions constants code =
      (bare.starts.map bare.rangeAt).foldl reserve (bare.reserve bare.entryRange) := by
    rw [ofParts, codeRanges_eq, List.foldl_cons]
  rw [unfolded, foldl_reserve fun _ => rfl]
  refine congrArg (fun fs => Module.mk name fs constants code {} _) ?_
  apply Array.ext_getElem?
  intro i
  rw [Array.getElem?_map]
  by_cases owns : ∃ a, bare.Defines i a
  · obtain ⟨a, defines⟩ := owns
    refine (getElem?_foldl_modify bare.nodup_indices (mem_starts.2 defines)).trans ?_
    obtain ⟨f, word, hf, hw, rfl⟩ := defines
    change Option.map _ functions[i]? = _
    rw [show functions[i]? = some f from hf, Option.map_some, Option.map_some,
      FunctionEntry.measured_of_address hw]
    rfl
  · have other : i ∉ bare.starts.map Prod.fst := by
      rw [List.mem_map]
      rintro ⟨d, mem, rfl⟩
      exact owns ⟨d.2, mem_starts.1 mem⟩
    rw [getElem?_foldl_modify_other other]
    change functions[i]? = _
    cases hf : functions[i]? with
    | none => rfl
    | some f =>
      rw [Option.map_some, FunctionEntry.measured]
      cases hw : f.address with
      | none => rfl
      | some word => exact absurd ⟨_, f, word, hf, hw, rfl⟩ owns

@[simp] theorem constants_ofParts (name : String) (functions : Array FunctionEntry)
    (constants : Array UInt64) (code : Array Instruction) :
    (ofParts name functions constants code).constants = constants := by
  rw [ofParts_eq]

@[simp] theorem code_ofParts (name : String) (functions : Array FunctionEntry)
    (constants : Array UInt64) (code : Array Instruction) :
    (ofParts name functions constants code).code = code := by
  rw [ofParts_eq]

@[simp] theorem size_functions_ofParts (name : String) (functions : Array FunctionEntry)
    (constants : Array UInt64) (code : Array Instruction) :
    (ofParts name functions constants code).functions.size = functions.size := by
  rw [ofParts_eq, Array.size_map]

theorem definedAddresses_ofParts (name : String) (functions : Array FunctionEntry)
    (constants : Array UInt64) (code : Array Instruction) :
    definedAddresses (ofParts name functions constants code).functions =
      definedAddresses functions := by
  simp only [definedAddresses, ofParts_eq, Array.toList_map, List.filterMap_map,
    Function.comp_def, FunctionEntry.address_measured]

/-- Every range of a module that is made of parts has the frame that its code asks for. -/
theorem frameOf_ofParts (name : String) (functions : Array FunctionEntry)
    (constants : Array UInt64) (code : Array Instruction) {r : CodeRange}
    (mem : r ∈ (ofParts name functions constants code).codeRanges) :
    (ofParts name functions constants code).frameOf r.owner =
      some (frameSize (ofParts name functions constants code).code r.start r.stop) := by
  have starts := definedAddresses_ofParts name functions constants code
  rw [codeRanges_eq, List.mem_cons, List.mem_map] at mem
  obtain rfl | ⟨⟨i, a⟩, hd, rfl⟩ := mem
  · rw [entryRange, starts, ofParts_eq]
    rfl
  · obtain ⟨f, word, hf, hw, rfl⟩ := mem_starts.1 hd
    simp only [frameOf, rangeAt, starts, hf, Option.map_some, code_ofParts]
    simp only [ofParts_eq, Array.getElem?_map, Option.map_eq_some_iff] at hf ⊢
    obtain ⟨g, -, rfl⟩ := hf
    rw [FunctionEntry.address_measured] at hw
    rw [FunctionEntry.measured_of_address hw]

end Module

end RegLisp
