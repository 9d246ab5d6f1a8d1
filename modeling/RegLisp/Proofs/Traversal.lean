import Mathlib.Data.List.Forall2

/-!
# Maps that can fail

Reading files, forms and tables goes through a list and stops at the first item that cannot be
read. What comes out corresponds to the list item by item, and there is an error exactly where an
item has one and those before it have none.
-/

namespace RegLisp

variable {ε α β : Type} {f : α → Except ε β} {xs : List α} {ys : List β}

/-- A list is mapped to what its items are mapped to. -/
theorem mapM_eq_ok_iff_forall₂ :
    xs.mapM f = .ok ys ↔ List.Forall₂ (fun x y => f x = .ok y) xs ys := by
  induction xs generalizing ys with
  | nil =>
    rw [List.mapM_nil, List.forall₂_nil_left_iff]
    exact ⟨fun h => by cases h; rfl, fun h => h ▸ rfl⟩
  | cons x xs ih =>
    rw [List.mapM_cons, List.forall₂_cons_left_iff]
    constructor
    · intro h
      cases hx : f x with
      | error e => rw [hx] at h; cases h
      | ok y =>
        cases hxs : xs.mapM f with
        | error e => rw [hx, hxs] at h; cases h
        | ok zs =>
          rw [hx, hxs] at h
          cases h
          exact ⟨y, zs, rfl, ih.1 hxs, rfl⟩
    · rintro ⟨y, zs, hx, hxs, rfl⟩
      rw [hx, ih.2 hxs]
      rfl

theorem mapM_eq_ok_iff : xs.mapM f = .ok ys ↔ xs.map f = ys.map .ok := by
  rw [mapM_eq_ok_iff_forall₂, ← List.forall₂_eq_eq_eq, List.forall₂_map_left_iff,
    List.forall₂_map_right_iff]

/-- Results have the positions of their items. -/
theorem getElem?_of_mapM_ok (h : xs.mapM f = .ok ys) :
    ys.length = xs.length ∧
      ∀ (i : Nat) (x : α), xs[i]? = some x → ∃ y, f x = .ok y ∧ ys[i]? = some y := by
  have all := mapM_eq_ok_iff_forall₂.1 h
  refine ⟨all.length_eq.symm, fun i x hx => ?_⟩
  obtain ⟨lt, rfl⟩ := List.getElem?_eq_some_iff.1 hx
  have lt' : i < ys.length := all.length_eq ▸ lt
  exact ⟨ys[i], all.get lt lt', List.getElem?_eq_getElem lt'⟩

/-- Each result comes from an item. -/
theorem exists_of_mem_mapM_ok (h : xs.mapM f = .ok ys) {y : β} (mem : y ∈ ys) :
    ∃ x ∈ xs, f x = .ok y := by
  have all := mapM_eq_ok_iff_forall₂.1 h
  obtain ⟨i, lt, rfl⟩ := List.getElem_of_mem mem
  have lt' : i < xs.length := all.length_eq ▸ lt
  exact ⟨xs[i], List.getElem_mem lt', all.get lt' lt⟩

theorem exists_mapM_eq_ok_iff : (∃ ys, xs.mapM f = .ok ys) ↔ ∀ x ∈ xs, ∃ y, f x = .ok y := by
  simp only [mapM_eq_ok_iff_forall₂]
  constructor
  · rintro ⟨ys, all⟩ x mem
    obtain ⟨i, lt, rfl⟩ := List.getElem_of_mem mem
    exact ⟨_, all.get lt (all.length_eq ▸ lt)⟩
  · intro h
    induction xs with
    | nil => exact ⟨[], .nil⟩
    | cons x xs ih =>
      rw [List.forall_mem_cons] at h
      obtain ⟨y, hy⟩ := h.1
      obtain ⟨ys, all⟩ := ih h.2
      exact ⟨y :: ys, .cons hy all⟩

/-- A list is read back from what its items are written as, when each item is. -/
theorem mapM_map_eq_ok {g : β → α} (h : ∀ y ∈ ys, f (g y) = .ok y) :
    (ys.map g).mapM f = .ok ys := by
  rw [mapM_eq_ok_iff_forall₂, List.forall₂_map_left_iff, List.forall₂_same]
  exact h

/-- Mapping fails at the first item that cannot be mapped. -/
theorem mapM_eq_error_iff {e : ε} :
    xs.mapM f = .error e ↔ ∃ before x after, xs = before ++ x :: after ∧
      (∀ y ∈ before, ∃ z, f y = .ok z) ∧ f x = .error e := by
  constructor
  · intro h
    induction xs with
    | nil => cases h
    | cons x xs ih =>
      rw [List.mapM_cons] at h
      cases hx : f x with
      | error e' =>
        rw [hx] at h
        cases h
        exact ⟨[], x, xs, rfl, by simp, hx⟩
      | ok y =>
        rw [hx] at h
        cases hxs : xs.mapM f with
        | ok ys =>
          rw [hxs] at h
          cases h
        | error e' =>
          rw [hxs] at h
          cases h
          obtain ⟨before, x', after, rfl, fine, failed⟩ := ih hxs
          refine ⟨x :: before, x', after, rfl, ?_, failed⟩
          rintro z (_ | ⟨_, mem⟩)
          · exact ⟨y, hx⟩
          · exact fine z mem
  · rintro ⟨before, x, after, rfl, fine, failed⟩
    obtain ⟨ys, run⟩ := exists_mapM_eq_ok_iff.2 fine
    rw [List.mapM_append, run, List.mapM_cons, failed]
    rfl

end RegLisp
