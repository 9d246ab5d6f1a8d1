import RegLisp.Syntax.Reader
import Mathlib.Tactic.Common

/-!
# Matching parentheses

Tokens can be read as expressions if and only if every parenthesis among them has a partner, and
then in one way only. Otherwise the first closing parenthesis without a partner is reported; if
there is none, it is the last opening one.

The proof follows the reader through the tokens. What it has read at any moment is balanced, but
for the parentheses that are still open, so a partner can be missing in no other place.
-/

namespace RegLisp.Syntax

/-! ## Balanced tokens -/

/-- Tokens in which every parenthesis has a partner. -/
inductive Balanced : List Token → Prop
  | nil : Balanced []
  | atom (value : Atom) {rest : List Token} (after : Balanced rest) :
    Balanced (.atom value :: rest)
  | group {inner rest : List Token} (inside : Balanced inner) (after : Balanced rest) :
    Balanced (.lparen :: (inner ++ .rparen :: rest))

/-- The parentheses at two places are partners: one opens, the other closes, and the tokens between
them are balanced. -/
def Matches (ts : List Token) (i j : Nat) : Prop :=
  ∃ before inner after, ts = before ++ .lparen :: (inner ++ .rparen :: after) ∧
    before.length = i ∧ before.length + 1 + inner.length = j ∧ Balanced inner

/-- A closing parenthesis that no open one before it matches. -/
def Stray (ts : List Token) (j : Nat) : Prop :=
  ts[j]? = some .rparen ∧ ∀ i, ¬ Matches ts i j

/-- An opening parenthesis that is still open at the end. -/
def Unclosed (ts : List Token) (i : Nat) : Prop :=
  ts[i]? = some .lparen ∧ ∀ j, ¬ Matches ts i j

theorem Balanced.append {ts us : List Token} (hts : Balanced ts) (hus : Balanced us) :
    Balanced (ts ++ us) := by
  induction hts with
  | nil => exact hus
  | atom value _ ih => exact .atom value ih
  | group inside _ _ ih =>
    rw [List.cons_append, List.append_assoc, List.cons_append]
    exact .group inside ih

theorem Balanced.eof_not_mem {ts : List Token} (h : Balanced ts) : .eof ∉ ts := by
  induction h with
  | nil => exact List.not_mem_nil
  | atom value _ ih => simpa using ih
  | group _ _ ihInner ihRest => simp [ihInner, ihRest]

mutual

theorem SExpr.balanced_flatten : (e : SExpr) → Balanced e.flatten
  | .atom value => by
    rw [SExpr.flatten_atom]
    exact .atom value .nil
  | .list items => by
    rw [SExpr.flatten_list]
    exact .group (SExpr.balanced_flattenAll items) .nil

/-- The tokens of expressions are balanced. -/
theorem SExpr.balanced_flattenAll : (es : List SExpr) → Balanced (SExpr.flattenAll es)
  | [] => by
    rw [SExpr.flattenAll_nil]
    exact .nil
  | e :: es => by
    rw [SExpr.flattenAll_cons]
    exact (SExpr.balanced_flatten e).append (SExpr.balanced_flattenAll es)

end

theorem Matches.getElem?_open {ts : List Token} {i j : Nat} (h : Matches ts i j) :
    ts[i]? = some .lparen := by
  rcases h with ⟨before, inner, after, rfl, rfl, -, -⟩
  simp

theorem Matches.getElem?_close {ts : List Token} {i j : Nat} (h : Matches ts i j) :
    ts[j]? = some .rparen := by
  rcases h with ⟨before, inner, after, rfl, -, rfl, -⟩
  rw [List.getElem?_append_right (by omega), Nat.add_assoc, Nat.add_sub_cancel_left, Nat.add_comm 1,
    List.getElem?_cons_succ, List.getElem?_append_right (Nat.le_refl _), Nat.sub_self]
  rfl

/-- Partners stay partners when more tokens stand around them. -/
theorem Matches.within {ts : List Token} {i j : Nat} (h : Matches ts i j)
    (before after : List Token) :
    Matches (before ++ (ts ++ after)) (before.length + i) (before.length + j) := by
  rcases h with ⟨front, inner, back, rfl, rfl, rfl, inside⟩
  refine ⟨before ++ front, inner, back ++ after, ?_, ?_, ?_, inside⟩
  · simp only [List.append_assoc, List.cons_append]
  · rw [List.length_append]
  · rw [List.length_append]
    omega

theorem Matches.before {ts : List Token} {i j : Nat} (h : Matches ts i j) (after : List Token) :
    Matches (ts ++ after) i j := by
  simpa using h.within [] after

theorem Matches.behind {ts : List Token} {i j : Nat} (h : Matches ts i j) (before : List Token) :
    Matches (before ++ ts) (before.length + i) (before.length + j) := by
  simpa using h.within before []

/-- Every token between balanced parentheses is an atom, or it opens or closes a pair. -/
theorem Balanced.paired {ts : List Token} (h : Balanced ts) {k : Nat} {t : Token}
    (get : ts[k]? = some t) :
    (∃ value, t = .atom value) ∨ (∃ j, Matches ts k j) ∨ ∃ i, Matches ts i k := by
  -- what is shown of a part holds of the whole, with the indices moved
  have move {ts : List Token} {k : Nat} {t : Token} (before after : List Token)
      (h : (∃ value, t = .atom value) ∨ (∃ j, Matches ts k j) ∨ ∃ i, Matches ts i k) :
      (∃ value, t = .atom value) ∨ (∃ j, Matches (before ++ (ts ++ after)) (before.length + k) j) ∨
        ∃ i, Matches (before ++ (ts ++ after)) i (before.length + k) := by
    rcases h with atom | ⟨j, pair⟩ | ⟨i, pair⟩
    · exact .inl atom
    · exact .inr (.inl ⟨_, pair.within before after⟩)
    · exact .inr (.inr ⟨_, pair.within before after⟩)
  induction h generalizing k with
  | nil => cases get
  | atom value after ih =>
    cases k with
    | zero =>
      cases get
      exact .inl ⟨value, rfl⟩
    | succ k =>
      have := move [.atom value] [] (ih get)
      rwa [List.append_nil, List.length_singleton, Nat.add_comm 1] at this
  | @group inner rest inside after ihInner ihRest =>
    have pair : Matches (.lparen :: (inner ++ .rparen :: rest)) 0 (1 + inner.length) :=
      ⟨[], inner, rest, rfl, rfl, by rw [List.length_nil, Nat.zero_add], inside⟩
    cases k with
    | zero => exact .inr (.inl ⟨_, pair⟩)
    | succ k =>
      rw [List.getElem?_cons_succ] at get
      rcases Nat.lt_trichotomy k inner.length with lt | rfl | gt
      · rw [List.getElem?_append_left lt] at get
        have := move [.lparen] (.rparen :: rest) (ihInner get)
        rwa [List.length_singleton, Nat.add_comm 1] at this
      · rw [Nat.add_comm] at pair
        exact .inr (.inr ⟨_, pair⟩)
      · obtain ⟨n, rfl⟩ := Nat.exists_eq_add_of_lt gt
        rw [List.getElem?_append_right (by omega),
          show inner.length + n + 1 - inner.length = n + 1 by omega,
          List.getElem?_cons_succ] at get
        have := move (.lparen :: (inner ++ [.rparen])) [] (ihRest get)
        rwa [List.append_nil, List.cons_append, List.append_assoc, List.singleton_append,
          List.length_cons, List.length_append, List.length_singleton,
          show inner.length + 1 + 1 + n = inner.length + n + 1 + 1 by omega] at this

theorem Balanced.exists_close {ts : List Token} (h : Balanced ts) {i : Nat}
    (get : ts[i]? = some .lparen) : ∃ j, Matches ts i j := by
  rcases h.paired get with ⟨value, eq⟩ | close | ⟨j, pair⟩
  · cases eq
  · exact close
  · cases get.symm.trans pair.getElem?_close

theorem Balanced.exists_open {ts : List Token} (h : Balanced ts) {j : Nat}
    (get : ts[j]? = some .rparen) : ∃ i, Matches ts i j := by
  rcases h.paired get with ⟨value, eq⟩ | ⟨i, pair⟩ | opened
  · cases eq
  · cases get.symm.trans pair.getElem?_open
  · exact opened

theorem Balanced.not_stray {ts : List Token} (h : Balanced ts) (j : Nat) : ¬ Stray ts j := by
  rintro ⟨get, alone⟩
  rcases h.exists_open get with ⟨i, pair⟩
  exact alone i pair

theorem Balanced.not_unclosed {ts : List Token} (h : Balanced ts) (i : Nat) : ¬ Unclosed ts i := by
  rintro ⟨get, alone⟩
  rcases h.exists_close get with ⟨j, pair⟩
  exact alone j pair

/-! ## Counting parentheses

Counting tells where no partner can be: no front part of balanced tokens closes more than it
opens. -/

/-- How many more parentheses are opened than closed. -/
def surplus (ts : List Token) : Int := ts.count .lparen - ts.count .rparen

theorem surplus_append (ts us : List Token) : surplus (ts ++ us) = surplus ts + surplus us := by
  simp only [surplus, List.count_append]
  omega

@[simp] theorem surplus_nil : surplus [] = 0 := rfl

@[simp] theorem surplus_lparen (ts : List Token) : surplus (.lparen :: ts) = surplus ts + 1 := by
  simp [surplus]
  omega

@[simp] theorem surplus_rparen (ts : List Token) : surplus (.rparen :: ts) = surplus ts - 1 := by
  simp [surplus]
  omega

@[simp] theorem surplus_atom (value : Atom) (ts : List Token) :
    surplus (.atom value :: ts) = surplus ts := by
  simp [surplus]

theorem Balanced.surplus_eq {ts : List Token} (h : Balanced ts) : surplus ts = 0 := by
  induction h with
  | nil => rfl
  | atom value _ ih => rw [surplus_atom, ih]
  | group _ _ ihInner ihRest =>
    rw [surplus_lparen, surplus_append, surplus_rparen, ihInner, ihRest]
    rfl

theorem Balanced.surplus_front {ts : List Token} (h : Balanced ts) {us vs : List Token}
    (eq : ts = us ++ vs) : 0 ≤ surplus us := by
  induction h generalizing us vs with
  | nil =>
    rw [(List.append_eq_nil_iff.1 eq.symm).1]
    exact Int.le_refl _
  | atom value _ ih =>
    rcases List.cons_eq_append_iff.1 eq with ⟨rfl, -⟩ | ⟨us, rfl, tail⟩
    · exact Int.le_refl _
    · rw [surplus_atom]
      exact ih tail
  | @group inner rest inside _ ihInner ihRest =>
    rcases List.cons_eq_append_iff.1 eq with ⟨rfl, -⟩ | ⟨us, rfl, tail⟩
    · exact Int.le_refl _
    rw [surplus_lparen]
    rcases List.append_eq_append_iff.1 tail with ⟨ws, rfl, close⟩ | ⟨ws, short, -⟩
    · rw [surplus_append, inside.surplus_eq]
      -- the front part reaches behind the inner tokens, and perhaps behind their parenthesis
      rcases List.cons_eq_append_iff.1 close with ⟨rfl, -⟩ | ⟨ws, rfl, behind⟩
      · decide
      · rw [surplus_rparen]
        have := ihRest behind
        omega
    · have := ihInner short
      omega

/-- Nothing is open behind balanced tokens. -/
theorem Balanced.not_matches_end {ts : List Token} (h : Balanced ts) (after : List Token)
    (i : Nat) : ¬ Matches (ts ++ .rparen :: after) i ts.length := by
  rintro ⟨before, inner, back, eq, rfl, length, inside⟩
  rw [← List.cons_append, ← List.append_assoc] at eq
  have split := (List.append_inj eq (by
    rw [List.length_append, List.length_cons]
    omega)).1
  have front := h.surplus_front split
  have whole := h.surplus_eq
  rw [split, surplus_append, surplus_lparen, inside.surplus_eq] at whole
  omega

/-- Balanced tokens do not close a parenthesis before them. -/
theorem Balanced.not_matches_start {ts : List Token} (h : Balanced ts) (before : List Token)
    (j : Nat) : ¬ Matches (before ++ .lparen :: ts) before.length j := by
  rintro ⟨front, inner, after, eq, length, rfl, inside⟩
  have split := (List.cons.inj (List.append_inj eq length.symm).2).2
  rw [List.append_cons] at split
  have := h.surplus_front split
  rw [surplus_append, inside.surplus_eq] at this
  exact absurd this (by decide)

/-! ## One reading -/

mutual

/-- Where an expression ends is seen from its tokens. -/
theorem SExpr.flatten_append_inj : ∀ (e e' : SExpr) {ts ts' : List Token},
    e.flatten ++ ts = e'.flatten ++ ts' → e = e' ∧ ts = ts'
  | .atom _, .atom _, _, _, h => by
    simp only [SExpr.flatten_atom, List.singleton_append, List.cons.injEq, Token.atom.injEq] at h
    exact ⟨by rw [h.1], h.2⟩
  | .atom _, .list _, _, _, h => by
    simp only [SExpr.flatten_atom, SExpr.flatten_list, List.cons_append] at h
    cases h
  | .list _, .atom _, _, _, h => by
    simp only [SExpr.flatten_atom, SExpr.flatten_list, List.cons_append] at h
    cases h
  | .list items, .list items', _, _, h => by
    simp only [SExpr.flatten_list, List.cons_append, List.append_assoc, List.nil_append,
      List.cons.injEq, true_and] at h
    rcases SExpr.flattenAll_append_inj items items' h with ⟨rfl, rfl⟩
    exact ⟨rfl, rfl⟩

theorem SExpr.flattenAll_append_inj : ∀ (es es' : List SExpr) {ts ts' : List Token},
    SExpr.flattenAll es ++ .rparen :: ts = SExpr.flattenAll es' ++ .rparen :: ts' →
      es = es' ∧ ts = ts'
  | [], [], _, _, h => by
    simp only [SExpr.flattenAll_nil, List.nil_append, List.cons.injEq, true_and] at h
    exact ⟨rfl, h⟩
  | [], e' :: _, _, _, h => by
    cases e' <;> simp at h
  | e :: _, [], _, _, h => by
    cases e <;> simp at h
  | e :: es, e' :: es', _, _, h => by
    simp only [SExpr.flattenAll_cons, List.append_assoc] at h
    rcases SExpr.flatten_append_inj e e' h with ⟨rfl, rest⟩
    rcases SExpr.flattenAll_append_inj es es' rest with ⟨rfl, rfl⟩
    exact ⟨rfl, rfl⟩

end

theorem SExpr.flattenAll_injective {es es' : List SExpr}
    (h : SExpr.flattenAll es = SExpr.flattenAll es') : es = es' := by
  refine (@SExpr.flattenAll_append_inj es es' [] [] ?_).1
  rw [h]

/-! ## The reader -/

/-- The tokens that are read: those before the first end token. -/
def untilEof (tokens : List Located) : List Located :=
  tokens.takeWhile fun t => t.token != .eof

/-- What tokens are read as. They are the tokens of the expressions that are read. If some closing
parenthesis is without a partner, the first such one is reported, and otherwise the innermost one
that is still open at the end. -/
inductive Reading (tokens : List Located) : Except ReadError (List SExpr) → Prop
  | forms {es : List SExpr} (eq : tokens.map Located.token = SExpr.flattenAll es) :
    Reading tokens (.ok es)
  | stray {j : Nat} {t : Located} (get : tokens[j]? = some t)
    (stray : Stray (tokens.map Located.token) j)
    (first : ∀ k < j, ¬ Stray (tokens.map Located.token) k) :
    Reading tokens (.error (.unexpectedClose t.position))
  | unclosed {i : Nat} {t : Located} (get : tokens[i]? = some t)
    (opened : ∀ j, ¬ Stray (tokens.map Located.token) j)
    (unclosed : Unclosed (tokens.map Located.token) i)
    (innermost : ∀ k, i < k → ¬ Unclosed (tokens.map Located.token) k) :
    Reading tokens (.error (.unclosed t.position))

/-- Tokens are read as one thing only. -/
theorem Reading.unique {tokens : List Located} {r r' : Except ReadError (List SExpr)}
    (h : Reading tokens r) (h' : Reading tokens r') : r = r' := by
  have balanced {es : List SExpr} (eq : tokens.map Located.token = SExpr.flattenAll es) :
      Balanced (tokens.map Located.token) := by
    rw [eq]
    exact SExpr.balanced_flattenAll es
  cases h with
  | forms eq =>
    cases h' with
    | forms eq' => rw [SExpr.flattenAll_injective (eq.symm.trans eq')]
    | stray _ stray _ => exact absurd stray ((balanced eq).not_stray _)
    | unclosed _ _ unclosed _ => exact absurd unclosed ((balanced eq).not_unclosed _)
  | @stray j t get stray first =>
    cases h' with
    | forms eq => exact absurd stray ((balanced eq).not_stray _)
    | @stray j' t' get' stray' first' =>
      have same : j = j' := by
        rcases Nat.lt_trichotomy j j' with lt | rfl | gt
        · exact absurd stray (first' j lt)
        · rfl
        · exact absurd stray' (first j' gt)
      subst same
      cases get.symm.trans get'
      rfl
    | unclosed _ opened _ _ => exact absurd stray (opened _)
  | @unclosed i t get opened unclosed innermost =>
    cases h' with
    | forms eq => exact absurd unclosed ((balanced eq).not_unclosed _)
    | stray _ stray _ => exact absurd stray (opened _)
    | @unclosed i' t' get' _ unclosed' innermost' =>
      have same : i = i' := by
        rcases Nat.lt_trichotomy i i' with lt | rfl | gt
        · exact absurd unclosed' (innermost i' lt)
        · rfl
        · exact absurd unclosed (innermost' i gt)
      subst same
      cases get.symm.trans get'
      rfl

/-- What the reader has behind it: the expressions that are `done`, and then for each open list,
from the outermost one on, its parenthesis and its items so far. -/
inductive Pending (done : List SExpr) : List OpenList → List Located → Prop
  | closed {before : List Located}
    (eq : before.map Located.token = SExpr.flattenAll done.reverse) : Pending done [] before
  | opened {l : OpenList} {stack : List OpenList} {before inner : List Located}
    (outer : Pending done stack before)
    (eq : inner.map Located.token = SExpr.flattenAll l.items.reverse) :
    Pending done (l :: stack) (before ++ ⟨.lparen, l.opened⟩ :: inner)

theorem SExpr.flattenAll_append (es es' : List SExpr) :
    SExpr.flattenAll (es ++ es') = SExpr.flattenAll es ++ SExpr.flattenAll es' := by
  induction es with
  | nil => rw [SExpr.flattenAll_nil, List.nil_append, List.nil_append]
  | cons e es ih =>
    rw [List.cons_append, SExpr.flattenAll_cons, SExpr.flattenAll_cons, ih, List.append_assoc]

theorem SExpr.flattenAll_snoc (es : List SExpr) (e : SExpr) :
    SExpr.flattenAll (e :: es).reverse = SExpr.flattenAll es.reverse ++ e.flatten := by
  rw [List.reverse_cons, SExpr.flattenAll_append, SExpr.flattenAll_cons, SExpr.flattenAll_nil,
    List.append_nil]

namespace Pending

variable {done : List SExpr} {l : OpenList} {stack : List OpenList} {before : List Located}

theorem opens (h : Pending done stack before) (p : Position) :
    Pending done (⟨p, []⟩ :: stack) (before ++ [⟨.lparen, p⟩]) :=
  .opened h (by simp)

/-- An expression that is complete goes to those that are done, where no list is open. -/
theorem finish (h : Pending done [] before) {e : SExpr} {read : List Located}
    (eq : read.map Located.token = e.flatten) : Pending (e :: done) [] (before ++ read) := by
  cases h with
  | closed front =>
    refine .closed ?_
    rw [List.map_append, front, eq, SExpr.flattenAll_snoc]

/-- An expression that is complete goes to the innermost list. -/
theorem add (h : Pending done (l :: stack) before) {e : SExpr} {read : List Located}
    (eq : read.map Located.token = e.flatten) :
    Pending done (l.add e :: stack) (before ++ read) := by
  cases h with
  | @opened _ _ before inner outer front =>
    rw [List.append_assoc, List.cons_append]
    refine .opened (l := l.add e) outer ?_
    rw [List.map_append, front, eq, OpenList.add, SExpr.flattenAll_snoc]

/-- A closing parenthesis completes the innermost list. -/
theorem close (h : Pending done (l :: stack) before) (p : Position) :
    ∃ outer read, before ++ [⟨.rparen, p⟩] = outer ++ read ∧ Pending done stack outer ∧
      read.map Located.token = l.close.flatten := by
  cases h with
  | @opened _ _ before inner outer front =>
    refine ⟨before, ⟨.lparen, l.opened⟩ :: (inner ++ [⟨.rparen, p⟩]), ?_, outer, ?_⟩
    · rw [List.append_assoc, List.cons_append]
    · rw [List.map_cons, List.map_append, front, OpenList.close, SExpr.flatten_list]
      rfl

/-- No closing parenthesis that was read is without a partner. -/
theorem not_stray (h : Pending done stack before) (j : Nat) :
    ¬ Stray (before.map Located.token) j := by
  induction h generalizing j with
  | closed eq =>
    rw [eq]
    exact (SExpr.balanced_flattenAll _).not_stray j
  | @opened l stack before inner outer eq ih =>
    rintro ⟨get, alone⟩
    rw [List.map_append, List.map_cons] at get alone
    rcases Nat.lt_trichotomy j (before.map Located.token).length with lt | rfl | gt
    · rw [List.getElem?_append_left lt] at get
      exact ih j ⟨get, fun i pair => alone i (pair.before _)⟩
    · rw [List.getElem?_append_right (Nat.le_refl _), Nat.sub_self] at get
      cases get
    · rcases Nat.exists_eq_add_of_lt gt with ⟨n, rfl⟩
      rw [Nat.add_assoc, List.getElem?_append_right (by omega), Nat.add_sub_cancel_left] at get
      rw [List.getElem?_cons_succ, eq] at get
      rcases (SExpr.balanced_flattenAll _).exists_open get with ⟨i, pair⟩
      rw [← eq] at pair
      have inside := (pair.behind [.lparen]).behind (before.map Located.token)
      rw [List.length_singleton, Nat.add_comm 1 n, ← Nat.add_assoc] at inside
      exact alone _ inside

/-- At the end, the innermost list is the one that is reported. -/
theorem unclosed (h : Pending done (l :: stack) before) :
    Reading before (.error (.unclosed l.opened)) := by
  have opened := h.not_stray
  cases h with
  | @opened _ _ before inner outer eq =>
    have balanced : Balanced (inner.map Located.token) := eq ▸ SExpr.balanced_flattenAll _
    refine .unclosed (i := before.length) (t := ⟨.lparen, l.opened⟩) ?_ opened ⟨?_, ?_⟩ ?_
    · rw [List.getElem?_append_right (Nat.le_refl _), Nat.sub_self]
      rfl
    · rw [List.getElem?_map, List.getElem?_append_right (Nat.le_refl _), Nat.sub_self]
      rfl
    · intro j
      rw [List.map_append, List.map_cons, ← List.length_map (f := Located.token)]
      exact balanced.not_matches_start _ j
    · rintro k gt ⟨get, alone⟩
      rcases Nat.exists_eq_add_of_lt gt with ⟨n, rfl⟩
      rw [← List.length_map (f := Located.token), Nat.add_assoc, List.map_append,
        List.map_cons] at get alone
      rw [List.getElem?_append_right (by omega), Nat.add_sub_cancel_left,
        List.getElem?_cons_succ] at get
      rcases balanced.exists_close get with ⟨j, pair⟩
      have inside := (pair.behind [.lparen]).behind (before.map Located.token)
      rw [List.length_singleton, Nat.add_comm 1 n] at inside
      exact alone _ inside

/-- A closing parenthesis where no list is open is the first one without a partner. -/
theorem stray (h : Pending done [] before) (p : Position) (after : List Located) :
    Reading (before ++ ⟨.rparen, p⟩ :: after) (.error (.unexpectedClose p)) := by
  have opened := h.not_stray
  cases h with
  | closed eq =>
    refine .stray (j := before.length) (t := ⟨.rparen, p⟩) ?_ ⟨?_, ?_⟩ ?_
    · rw [List.getElem?_append_right (Nat.le_refl _), Nat.sub_self]
      rfl
    · rw [List.getElem?_map, List.getElem?_append_right (Nat.le_refl _), Nat.sub_self]
      rfl
    · intro i
      rw [List.map_append, List.map_cons, ← List.length_map (f := Located.token), eq]
      exact (SExpr.balanced_flattenAll _).not_matches_end _ i
    · rintro k lt ⟨get, alone⟩
      rw [List.map_append] at get alone
      rw [List.getElem?_append_left (by rwa [List.length_map])] at get
      exact opened k ⟨get, fun i pair => alone i (pair.before _)⟩

/-- At the end of the tokens, the reader gives what they are read as. -/
theorem ends (h : Pending done stack before) :
    Reading before (match endOfTokens stack with
      | some e => .error e
      | none => .ok done.reverse) := by
  cases stack with
  | nil =>
    cases h with
    | closed eq => exact .forms eq
  | cons l stack => exact h.unclosed

/-- From any point on, the reader gives what all the tokens are read as. -/
theorem reads (h : Pending done stack before) (ts : List Located) :
    Reading (before ++ untilEof ts) (readForms done stack ts).1 := by
  induction ts generalizing done stack before with
  | nil =>
    rw [untilEof, List.takeWhile_nil, List.append_nil]
    cases stack <;> exact h.ends
  | cons t ts ih =>
    rcases t with ⟨token, p⟩
    -- a token that is read goes to those behind the reader
    have step (stays : token ≠ .eof) :
        before ++ untilEof (⟨token, p⟩ :: ts) = (before ++ [⟨token, p⟩]) ++ untilEof ts := by
      rw [untilEof, List.takeWhile_cons_of_pos (by simpa using stays), List.append_cons]
      rfl
    cases token with
    | eof =>
      rw [untilEof, List.takeWhile_cons_of_neg (by simp), List.append_nil]
      cases stack <;> exact h.ends
    | lparen =>
      rw [step nofun]
      exact ih (h.opens p)
    | rparen =>
      rw [step nofun]
      cases stack with
      | nil =>
        rw [List.append_assoc]
        exact h.stray p _
      | cons l stack =>
        rcases h.close p with ⟨outer, read, eq, pending, flat⟩
        rw [eq]
        cases stack with
        | nil => exact ih (pending.finish flat)
        | cons l' stack => exact ih (pending.add flat)
    | atom value =>
      have flat : [Located.mk (.atom value) p].map Located.token = (SExpr.atom value).flatten := by
        rw [SExpr.flatten_atom]
        rfl
      rw [step nofun]
      cases stack with
      | nil => exact ih (h.finish flat)
      | cons l stack => exact ih (h.add flat)

end Pending

theorem SExpr.readAll_reading (tokens : List Located) :
    Reading (untilEof tokens) (SExpr.readAll tokens).1 := by
  have start : Pending [] [] [] := .closed (by simp)
  exact start.reads tokens

/-- The reader gives what the tokens before the first end token are read as, and nothing else: their
expressions, or else the first closing parenthesis without an open one, or else the innermost one
that stays open. -/
theorem SExpr.readAll_eq_iff (tokens : List Located) (r : Except ReadError (List SExpr)) :
    (SExpr.readAll tokens).1 = r ↔ Reading (untilEof tokens) r := by
  constructor
  · rintro rfl
    exact SExpr.readAll_reading tokens
  · intro h
    exact (SExpr.readAll_reading tokens).unique h

end RegLisp.Syntax
