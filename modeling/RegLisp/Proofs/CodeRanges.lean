import Mathlib
import RegLisp.Proofs.CodeStarts
import RegLisp.Proofs.ListingLines

/-!
# Code ranges

The entry section and the definitions of a module divide its code among them, wherever the table
says that the definitions start: in any order, at the same address, or behind the end of the code.
Definitions at one address share their code. Where all addresses are different, every instruction
has exactly one owner, so a listing shows each of them once, from the first to the last.
-/

namespace RegLisp

/-- The addresses of a range. -/
def CodeRange.addresses (r : CodeRange) : List Nat := List.range' r.start (r.stop - r.start)

theorem CodeRange.mem_addresses {r : CodeRange} {a : Nat} :
    a ∈ r.addresses ↔ r.start ≤ a ∧ a < r.stop := by
  rw [addresses, List.mem_range'_1]
  omega

namespace Module

variable {m : Module}

/-! ## Ranges -/

theorem mem_entryRange {a : Nat} (lt : a < m.code.size) :
    a ∈ m.entryRange.addresses ↔ ∀ i b, m.Defines i b → a < b := by
  simp only [CodeRange.mem_addresses, entryRange, Nat.zero_le, true_and, Nat.lt_iff_add_one_le,
    le_firstStart_iff, mem_definedAddresses]
  constructor
  · intro h i b d
    exact h.2 b ⟨i, d⟩
  · intro h
    refine ⟨lt, ?_⟩
    rintro b ⟨i, d⟩
    exact h i b d

theorem mem_rangeAt {i a b : Nat} (lt : a < m.code.size) :
    a ∈ (m.rangeAt (i, b)).addresses ↔
      b ≤ a ∧ ∀ j c, m.Defines j c → ¬ (b < c ∧ c ≤ a) := by
  simp only [CodeRange.mem_addresses, rangeAt, Nat.lt_iff_add_one_le, le_nextStart_iff,
    mem_definedAddresses]
  constructor
  · rintro ⟨start, -, stop⟩
    refine ⟨by omega, fun j c d => ?_⟩
    have := stop c ⟨j, d⟩
    omega
  · rintro ⟨start, stop⟩
    refine ⟨by omega, lt, ?_⟩
    rintro c ⟨j, d⟩ behind
    have := stop j c d
    omega

theorem bounds_of_mem {r : CodeRange} (mem : r ∈ m.codeRanges) :
    r.start ≤ r.stop ∧ r.stop ≤ m.code.size := by
  rw [codeRanges_eq, List.mem_cons, List.mem_map] at mem
  obtain rfl | ⟨d, -, rfl⟩ := mem
  · exact ⟨Nat.zero_le _, (firstStart_le _ _).1⟩
  · refine ⟨le_nextStart_iff.2 ⟨Nat.min_le_right _ _, fun s _ behind => ?_⟩, (firstStart_le _ _).1⟩
    simp only [rangeAt]
    omega

/-- Some section owns each address: that of the last start up to it, or the entry section. -/
theorem exists_mem_addresses {a : Nat} (lt : a < m.code.size) :
    ∃ r ∈ m.codeRanges, a ∈ r.addresses := by
  classical
  simp only [codeRanges_eq, List.mem_cons, List.mem_map, Prod.exists, mem_starts]
  by_cases started : ∃ i b, m.Defines i b ∧ b ≤ a
  · obtain ⟨i, b, d, le⟩ := started
    obtain ⟨j, last⟩ := Nat.findGreatest_spec (P := fun c => ∃ j, m.Defines j c) le ⟨i, d⟩
    refine ⟨_, .inr ⟨j, _, last, rfl⟩, (mem_rangeAt lt).2 ⟨Nat.findGreatest_le a, ?_⟩⟩
    rintro k c d ⟨behind, le⟩
    exact Nat.findGreatest_is_greatest behind le ⟨k, d⟩
  · refine ⟨_, .inl rfl, (mem_entryRange lt).2 fun i b d => ?_⟩
    by_contra ge
    exact started ⟨i, b, d, by omega⟩

/-! ## Different addresses -/

theorem map_placed (m : Module) : m.placed.map Prod.snd = definedAddresses m.functions := by
  simp only [placed, definitions, entriesWhere, definedAddresses]
  generalize m.functions.toList = fs
  suffices ∀ k, (((fs.zipIdx k).map fun x => (x.2, x.1)).filter (!·.2.isExternal)).map
      (·.2.storedAddress.toNat) = fs.filterMap fun f => f.address.map UInt64.toNat by
    rw [List.map_map]
    exact this 0
  induction fs with
  | nil => exact fun _ => rfl
  | cons f fs ih =>
    intro k
    cases ha : f.address with
    | none => simpa [FunctionEntry.isExternal, ha] using ih (k + 1)
    | some word =>
      simpa [FunctionEntry.isExternal, FunctionEntry.storedAddress, ha] using ih (k + 1)

theorem starts_strict (nodup : (definedAddresses m.functions).Nodup) :
    m.starts.Pairwise (·.2 < ·.2) := by
  have perm : (m.starts.map Prod.snd).Perm (definedAddresses m.functions) := by
    rw [← map_placed]
    exact m.starts_perm.map _
  have different := List.pairwise_map.1 (perm.nodup_iff.2 nodup)
  apply (starts_pairwise.and different).imp
  rintro x y ⟨lt | ⟨eq, -⟩, ne⟩
  · exact lt
  · exact absurd eq ne

/-- Where addresses are different, each range ends before the next one begins. -/
theorem codeRanges_pairwise (nodup : (definedAddresses m.functions).Nodup) :
    m.codeRanges.Pairwise (·.stop ≤ ·.start) := by
  rw [codeRanges_eq, List.pairwise_cons, List.pairwise_map]
  have defined {d : Nat × Nat} (mem : d ∈ m.starts) : d.2 ∈ definedAddresses m.functions :=
    mem_definedAddresses.2 ⟨d.1, mem_starts.1 mem⟩
  constructor
  · intro r hr
    obtain ⟨d, mem, rfl⟩ := List.mem_map.1 hr
    obtain ⟨le_size, le_starts⟩ := firstStart_le m.code.size (definedAddresses m.functions)
    exact Nat.le_min.2 ⟨le_starts _ (defined mem), le_size⟩
  · apply (starts_strict nodup).imp_of_mem
    intro d d' _ mem lt
    exact Nat.le_min.2 ⟨nextStart_le (defined mem) lt, (firstStart_le _ _).1⟩

/-- Where addresses are different, the ranges hold every address once and in order. -/
theorem flatMap_addresses (nodup : (definedAddresses m.functions).Nodup) :
    m.codeRanges.flatMap CodeRange.addresses = List.range m.code.size := by
  apply List.Pairwise.eq_of_mem_iff (r := (· < ·))
  · rw [List.pairwise_flatMap]
    refine ⟨fun r _ => List.pairwise_lt_range', (codeRanges_pairwise nodup).imp ?_⟩
    intro r r' le a ha b hb
    rw [CodeRange.mem_addresses] at ha hb
    omega
  · exact List.pairwise_lt_range
  · intro a
    rw [List.mem_flatMap, List.mem_range]
    constructor
    · rintro ⟨r, mem, ha⟩
      have := bounds_of_mem mem
      rw [CodeRange.mem_addresses] at ha
      omega
    · exact exists_mem_addresses

theorem existsUnique_range (nodup : (definedAddresses m.functions).Nodup) {a : Nat}
    (lt : a < m.code.size) : ∃! r, r ∈ m.codeRanges ∧ a ∈ r.addresses := by
  obtain ⟨r, mem, ha⟩ := exists_mem_addresses lt
  refine ⟨r, ⟨mem, ha⟩, ?_⟩
  rintro r' ⟨mem', ha'⟩
  have disjoint : m.codeRanges.Pairwise fun r r' => ∀ a, ¬ (a ∈ r.addresses ∧ a ∈ r'.addresses) :=
    (codeRanges_pairwise nodup).imp fun le a => by
      simp only [CodeRange.mem_addresses]
      omega
  have : Std.Symm fun r r' : CodeRange => ∀ a, ¬ (a ∈ r.addresses ∧ a ∈ r'.addresses) :=
    ⟨fun r r' h a ⟨ha, ha'⟩ => h a ⟨ha', ha⟩⟩
  by_contra ne
  exact disjoint.forall mem' mem ne a ⟨ha', ha⟩

end Module

/-! ## Listings -/

/-- A piece of a listing. -/
inductive ListingPart where
  | moduleHead
  | sectionHead (owner : Option Nat)
  | instruction (address : Nat)
  deriving DecidableEq, Repr

def ListingPart.text (m : Module) : ListingPart → String
  | moduleHead => m.headText
  | sectionHead owner => m.sectionHead owner
  | instruction address => m.lineText address ++ "\n"

/-- The line that a piece is, if it shows an instruction. -/
def ListingPart.line? (m : Module) : ListingPart → Option String
  | instruction address => some (m.lineText address)
  | moduleHead | sectionHead _ => none

namespace Module

/-- The pieces of a listing, from top to bottom. -/
def listingParts (m : Module) : List ListingPart :=
  .moduleHead :: m.codeRanges.flatMap fun r => .sectionHead r.owner :: r.addresses.map .instruction

theorem foldl_append_text {α : Type} (f : α → String) (xs : List α) (text : String) :
    xs.foldl (fun text x => text ++ f x) text = text ++ String.join (xs.map f) := by
  induction xs generalizing text with
  | nil => simp
  | cons x xs ih => rw [List.foldl_cons, ih, List.map_cons, String.join_cons, String.append_assoc]

theorem sectionText_eq (m : Module) (r : CodeRange) :
    m.sectionText r = String.join ((.sectionHead r.owner ::
      r.addresses.map .instruction : List ListingPart).map (ListingPart.text m)) := by
  rw [sectionText, foldl_append_text, List.map_cons, String.join_cons, List.map_map]
  rfl

/-- A listing consists of its pieces. -/
theorem listing_eq (m : Module) :
    m.listing = String.join (m.listingParts.map (ListingPart.text m)) := by
  rw [listing, foldl_append_text, listingParts, List.map_cons, String.join_cons]
  congr 1
  induction m.codeRanges with
  | nil => rfl
  | cons r ranges ih =>
    rw [List.map_cons, String.join_cons, ih, sectionText_eq, List.flatMap_cons, List.map_append,
      String.join_append]

theorem filterMap_listingParts (m : Module) :
    m.listingParts.filterMap (ListingPart.line? m) =
      (m.codeRanges.flatMap CodeRange.addresses).map m.lineText := by
  rw [listingParts, List.filterMap_cons_none rfl, List.filterMap_flatMap, List.map_flatMap]
  congr 1
  funext r
  rw [List.filterMap_cons_none rfl, List.filterMap_map]
  exact congrFun List.filterMap_eq_map r.addresses

/-- Where addresses are different, the lines of a listing show the code, one instruction after the
other. -/
theorem map_readLine?_lines {m : Module} (nodup : (definedAddresses m.functions).Nodup) :
    (m.listingParts.filterMap (ListingPart.line? m)).map readLine? =
      m.code.toList.zipIdx.map fun x => some (x.2, x.1.shown) := by
  rw [filterMap_listingParts, flatMap_addresses nodup, List.map_map]
  apply List.ext_getElem
  · simp
  · intro a lt _
    rw [List.length_map, List.length_range] at lt
    simpa using readLine?_lineText (Array.getElem?_eq_getElem lt)

/-- What the ranges of a module are: that of the entry section, and those of the definitions. -/
structure Divided (m : Module) (entry : CodeRange) (defined : List CodeRange) : Prop where
  entry_owner : entry.owner = none
  /-- Each definition owns one range, and nothing else owns one. -/
  owned : ∀ r ∈ defined, ∃ i a, r.owner = some i ∧ m.Defines i a
  mem_owners : ∀ i a, m.Defines i a → some i ∈ defined.map CodeRange.owner
  owners_nodup : (defined.map CodeRange.owner).Nodup
  /-- Ranges come in the order of addresses, those at one address in the order of the table. -/
  by_address : defined.Pairwise fun r r' => ∀ i a j b, r.owner = some i → m.Defines i a →
    r'.owner = some j → m.Defines j b → a < b ∨ a = b ∧ i < j
  by_start : defined.Pairwise (·.start ≤ ·.start)
  bounds : ∀ r ∈ entry :: defined, r.start ≤ r.stop ∧ r.stop ≤ m.code.size
  mem_entry : ∀ a < m.code.size, a ∈ entry.addresses ↔ ∀ i b, m.Defines i b → a < b
  mem_defined : ∀ r ∈ defined, ∀ i b, r.owner = some i → m.Defines i b → ∀ a < m.code.size,
    (a ∈ r.addresses ↔ b ≤ a ∧ ∀ j c, m.Defines j c → ¬ (b < c ∧ c ≤ a))
  /-- The frames of a module that is made of parts are measured on its ranges. -/
  measured : ∀ name functions constants code, m = .ofParts name functions constants code →
    ∀ r ∈ entry :: defined, m.frameOf r.owner = some (frameSize m.code r.start r.stop)
  /-- Each line shows its address and of the instruction there what the machine has a use for. -/
  lines : ∀ a i, m.code[a]? = some i →
    readLine? (m.lineText a) = some (a, i.shown) ∧ i.shown.RunsAs i
  /-- With different addresses each address has one owner, and the lines of a listing show the
  instructions of the code, each of them once and in order. -/
  one_owner : (definedAddresses m.functions).Nodup →
    (∀ a < m.code.size, ∃! r, r ∈ entry :: defined ∧ a ∈ r.addresses) ∧
      (m.listingParts.filterMap (ListingPart.line? m)).map readLine? =
        m.code.toList.zipIdx.map fun x => some (x.2, x.1.shown)

/-- The ranges of every module divide its code, and its listing goes through them. -/
theorem codeRanges_divided (m : Module) :
    ∃ entry defined, m.codeRanges = entry :: defined ∧ m.Divided entry defined ∧
      m.listing = String.join (m.listingParts.map (ListingPart.text m)) := by
  refine ⟨_, _, m.codeRanges_eq, ?_, m.listing_eq⟩
  have owner_of {d : Nat × Nat} {i : Nat} (h : (m.rangeAt d).owner = some i) : i = d.1 :=
    (Option.some.inj h).symm
  have address_of {d : Nat × Nat} {b : Nat} (mem : d ∈ m.starts) (h : m.Defines d.1 b) :
      b = d.2 := h.unique (mem_starts.1 mem)
  constructor
  case entry_owner => rfl
  case owned =>
    intro r hr
    obtain ⟨d, mem, rfl⟩ := List.mem_map.1 hr
    exact ⟨d.1, d.2, rfl, mem_starts.1 mem⟩
  case mem_owners =>
    intro i a defines
    rw [List.map_map]
    exact List.mem_map.2 ⟨(i, a), mem_starts.2 defines, rfl⟩
  case owners_nodup =>
    have owners := m.nodup_indices.map (Option.some_injective Nat)
    rwa [List.map_map] at owners ⊢
  case by_address =>
    rw [List.pairwise_map]
    apply starts_pairwise.imp_of_mem
    intro d d' mem mem' order i a j b hi ha hj hb
    obtain rfl := owner_of hi
    obtain rfl := owner_of hj
    rwa [address_of mem ha, address_of mem' hb]
  case by_start =>
    rw [List.pairwise_map]
    apply starts_pairwise.imp
    intro d d' order
    have := order.le
    simp only [rangeAt]
    omega
  case bounds => exact fun r mem => bounds_of_mem (m.codeRanges_eq ▸ mem)
  case mem_entry => exact fun a => mem_entryRange
  case mem_defined =>
    intro r hr i b hi hb a lt
    obtain ⟨d, mem, rfl⟩ := List.mem_map.1 hr
    obtain rfl := owner_of hi
    rw [address_of mem hb]
    exact mem_rangeAt lt
  case measured =>
    rintro name functions constants code rfl r mem
    rw [← codeRanges_eq] at mem
    exact frameOf_ofParts name functions constants code mem
  case lines => exact fun a i hi => ⟨readLine?_lineText hi, i.shown_runsAs⟩
  case one_owner =>
    intro nodup
    rw [← codeRanges_eq]
    exact ⟨fun a => existsUnique_range nodup, map_readLine?_lines nodup⟩

/-- Definitions against the order of their addresses, the last one behind the end of the code, with
a return that has operands and a byte that is no opcode. -/
def backwards : Module :=
  .ofParts "backwards" #[⟨"g", some 3, [], 0⟩, ⟨"f", some 1, [], 0⟩, ⟨"h", some 9, [], 0⟩] #[7]
    #[⟨1, 1, 0, 0⟩, ⟨11, 2, 0, 0⟩, ⟨5, 9, 9, 9⟩, ⟨200, 1, 2, 3⟩]

theorem codeRanges_divided_backwards :
    (definedAddresses backwards.functions).Nodup ∧
      backwards.codeRanges =
        [⟨none, 0, 1⟩, ⟨some 1, 1, 3⟩, ⟨some 0, 3, 4⟩, ⟨some 2, 4, 4⟩] ∧
      (backwards.listingParts.filterMap (ListingPart.line? backwards)).map readLine? =
        [some (0, ⟨1, 1, 0, 0⟩), some (1, ⟨11, 2, 0, 0⟩), some (2, ⟨5, 0, 0, 0⟩),
          some (3, ⟨200, 0, 0, 0⟩)] := by
  obtain ⟨entry, defined, -, divided, -⟩ := codeRanges_divided backwards
  have nodup : (definedAddresses backwards.functions).Nodup := by decide +kernel
  refine ⟨nodup, by decide +kernel, (divided.one_owner nodup).2.trans ?_⟩
  decide +kernel

end Module

end RegLisp
