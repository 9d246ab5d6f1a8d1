import RegLisp.Compile.Tables

/-!
# Names and entries

The tables hold each function twice: its entry, and the index of its name. Adding an entry fills
both, but does not ask whether the name has an entry already. So the two are in step as long as
entries are only added for names that are not found, and entries that change keep their names.
-/

namespace RegLisp

/-! ## Indices of names -/

namespace NameIndex

variable {names : NameIndex} {name : String}

theorem lookup_filter_ne {pairs : List (String × Nat)} {other : String} (ne : other ≠ name) :
    (pairs.filter (·.1 ≠ name)).lookup other = pairs.lookup other := by
  induction pairs with
  | nil => rfl
  | cons pair pairs ih =>
    obtain ⟨key, index⟩ := pair
    by_cases dropped : key = name
    · subst dropped
      rw [List.filter_cons_of_neg (by simp), ih, List.lookup_cons, beq_false_of_ne ne]
    · rw [List.filter_cons_of_pos (by simpa using dropped), List.lookup_cons, List.lookup_cons, ih]

theorem find?_insert (names : NameIndex) (name other : String) (index : Nat) :
    (names.insert name index).find? other =
      if other = name then some index else names.find? other := by
  show ((name, index) :: names.pairs.filter (·.1 ≠ name)).lookup other = _
  rw [List.lookup_cons]
  by_cases same : other = name
  · simp [same]
  · rw [if_neg same, beq_false_of_ne same, lookup_filter_ne same]
    rfl

/-- A new name is one name more. -/
theorem size_insert (absent : names.find? name = none) (index : Nat) :
    (names.insert name index).size = names.size + 1 := by
  have kept : names.pairs.filter (·.1 ≠ name) = names.pairs := by
    rw [List.filter_eq_self]
    intro pair mem
    have ne := List.lookup_eq_none_iff.1 absent pair mem
    exact decide_eq_true fun same => by simp [same] at ne
  show ((name, index) :: names.pairs.filter (·.1 ≠ name)).length = names.pairs.length + 1
  rw [kept, List.length_cons]

end NameIndex

/-! ## Tables in step -/

namespace Tables

/-- Looking a name up gives the index of the entry that has it, and there are as many names as
entries. -/
structure InStep (t : Tables) : Prop where
  lookup_iff : ∀ (name : String) (i : Nat), t.lookup name = some i ↔
    ∃ f, t.functions[i]? = some f ∧ f.name = name
  size_eq : t.indices.size = t.functions.size

theorem inStep_start : InStep {} := by
  refine ⟨?_, rfl⟩
  intro name i
  simp [lookup, NameIndex.find?, NameIndex.empty]

namespace InStep

variable {t t' : Tables} {name : String} {index : Nat} {f : FunctionEntry}

theorem of_eq (h : t.InStep) (functions_eq : t'.functions = t.functions)
    (indices_eq : t'.indices = t.indices) : t'.InStep := by
  refine ⟨?_, ?_⟩
  · unfold lookup
    rw [functions_eq, indices_eq]
    exact h.lookup_iff
  · rw [functions_eq, indices_eq]
    exact h.size_eq

theorem beginFrame (h : t.InStep) (name : String) (first : Nat) :
    (t.beginFrame name first).InStep := h.of_eq rfl rfl

theorem exists_entry (h : t.InStep) (found : t.lookup name = some index) :
    ∃ f, t.functions[index]? = some f ∧ f.name = name := (h.lookup_iff name index).1 found

theorem lookup_eq (h : t.InStep) (entry_eq : t.functions[index]? = some f) :
    t.lookup f.name = some index := (h.lookup_iff f.name index).2 ⟨f, entry_eq, rfl⟩

/-- A name that is not found has no entry. -/
theorem ne_name (h : t.InStep) (absent : t.lookup name = none) :
    ∀ f ∈ t.functions, f.name ≠ name := by
  rintro f mem rfl
  obtain ⟨i, entry_eq⟩ := Array.mem_iff_getElem?.1 mem
  rw [h.lookup_eq entry_eq] at absent
  cases absent

/-- An entry is added for a name that is not found. -/
theorem push (h : t.InStep) (absent : t.lookup f.name = none) :
    InStep { t with
      functions := t.functions.push f
      indices := t.indices.insert f.name t.functions.size } := by
  refine ⟨?_, ?_⟩
  · intro name i
    have before := h.lookup_iff name i
    simp only [lookup] at before ⊢
    rw [NameIndex.find?_insert, Array.getElem?_push]
    by_cases same : name = f.name
    · -- the name is that of the new entry, and no entry before has it
      subst same
      rw [if_pos rfl]
      by_cases last : i = t.functions.size
      · simp [last]
      · rw [if_neg last, ← before, Option.some.injEq]
        simp only [lookup] at absent
        simp [absent, Ne.symm last]
    · rw [if_neg same, before]
      by_cases last : i = t.functions.size
      · subst last
        simp [Ne.symm same]
      · rw [if_neg last]
  · rw [NameIndex.size_insert absent, h.size_eq, Array.size_push]

/-- A changed entry keeps its name. -/
theorem modify {change : FunctionEntry → FunctionEntry} (h : t.InStep)
    (named : ∀ f, t.functions[index]? = some f → (change f).name = f.name) :
    (t.modify index change).InStep := by
  refine ⟨?_, ?_⟩
  · intro name i
    have before := h.lookup_iff name i
    simp only [lookup, Tables.modify] at before ⊢
    rw [before, Array.getElem?_modify]
    by_cases same : index = i
    · subst same
      cases entry_eq : t.functions[index]? with
      | none => simp
      | some f => simp [named f entry_eq]
    · rw [if_neg same]
  · simp only [Tables.modify, Array.size_modify]
    exact h.size_eq

end InStep

end Tables

end RegLisp
