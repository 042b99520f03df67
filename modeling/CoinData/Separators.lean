import Mathlib.Data.List.Basic
import Mathlib.Data.List.Infix
import Mathlib.Data.List.TakeWhile

/-!
# Lists between separators

A separator is given by its matches at the front of a list: it matches there or
not, and if it does, at least one element is passed. The leftmost match in a list
parts it into what is before and what is behind, and matching again behind it
takes the list apart into its **pieces**. There is one piece more than there are
matches, and any of them may be empty.

An iterator over the pieces (`tokens`) leaves out the last one if this is empty,
unless it is the only one.

Two kinds of separators are here: a fixed word, and a run of elements of one
kind with elements of another kind around.
-/

/-- **A separator**: what is behind a match at the front of a list. -/
structure Separator (α : Type*) where
  behind : List α → Option (List α)
  length_lt : ∀ {xs ys : List α}, behind xs = some ys → ys.length < xs.length

namespace Separator

variable {α : Type*} {sep : Separator α} {xs ys p : List α}

/-- What is before and behind the leftmost match. -/
def search (sep : Separator α) : List α → Option (List α × List α)
  | [] => none
  | x :: xs =>
    match sep.behind (x :: xs) with
    | some ys => some ([], ys)
    | none => (sep.search xs).map fun (p, ys) => (x :: p, ys)

/-- The pieces, with at most `n` matches. -/
def piecesUpTo (sep : Separator α) : ℕ → List α → List (List α)
  | 0, xs => [xs]
  | n + 1, xs =>
    match sep.search xs with
    | none => [xs]
    | some (p, ys) => p :: sep.piecesUpTo n ys

/-- **The pieces of a list.** -/
def pieces (sep : Separator α) (xs : List α) : List (List α) := sep.piecesUpTo xs.length xs

/-- The pieces an iterator visits behind a match, with at most `n` matches. -/
def tokensUpTo (sep : Separator α) : ℕ → List α → List (List α)
  | _, [] => []
  | 0, x :: xs => [x :: xs]
  | n + 1, x :: xs =>
    match sep.search (x :: xs) with
    | none => [x :: xs]
    | some (p, ys) => p :: sep.tokensUpTo n ys

/-- **The pieces an iterator visits.** -/
def tokens (sep : Separator α) (xs : List α) : List (List α) :=
  match sep.search xs with
  | none => [xs]
  | some (p, ys) => p :: sep.tokensUpTo ys.length ys

/-! ## The leftmost match -/

theorem search_cons_of_some {x : α} (h : sep.behind (x :: xs) = some ys) :
    sep.search (x :: xs) = some ([], ys) := by
  rw [search, h]

theorem search_cons_of_none {x : α} (h : sep.behind (x :: xs) = none) :
    sep.search (x :: xs) = (sep.search xs).map fun (p, ys) => (x :: p, ys) := by
  rw [search, h]

/-- What is behind the match is shorter. -/
theorem length_lt_of_search (h : sep.search xs = some (p, ys)) : ys.length < xs.length := by
  induction xs generalizing p with
  | nil => cases h
  | cons x xs ih =>
    cases hb : sep.behind (x :: xs) with
    | some zs =>
      rw [search_cons_of_some hb] at h
      cases h
      exact sep.length_lt hb
    | none =>
      rw [search_cons_of_none hb] at h
      obtain ⟨⟨p', ys'⟩, hs, heq⟩ := Option.map_eq_some_iff.mp h
      cases heq
      exact Nat.lt_succ_of_lt (ih hs)

/-- **The match stays the leftmost** when some of what is before it is left
out. -/
theorem search_drop (h : sep.search xs = some (p, ys)) {k : ℕ} (hk : k ≤ p.length) :
    sep.search (xs.drop k) = some (p.drop k, ys) := by
  induction k generalizing xs p with
  | zero => exact h
  | succ k ih =>
    cases xs with
    | nil => cases h
    | cons x xs =>
      cases hb : sep.behind (x :: xs) with
      | some zs =>
        rw [search_cons_of_some hb] at h
        cases h
        exact absurd hk (Nat.not_succ_le_zero k)
      | none =>
        rw [search_cons_of_none hb] at h
        obtain ⟨⟨p', ys'⟩, hs, heq⟩ := Option.map_eq_some_iff.mp h
        cases heq
        exact ih hs (Nat.le_of_succ_le_succ hk)

/-- There is none in what is left of a list without one. -/
theorem search_drop_of_none (h : sep.search xs = none) (k : ℕ) :
    sep.search (xs.drop k) = none := by
  induction k generalizing xs with
  | zero => exact h
  | succ k ih =>
    cases xs with
    | nil => rfl
    | cons x xs =>
      cases hb : sep.behind (x :: xs) with
      | some zs =>
        rw [search_cons_of_some hb] at h
        cases h
      | none =>
        rw [search_cons_of_none hb] at h
        exact ih (Option.map_eq_none_iff.mp h)

/-- **What is searched** is what is before the match, and what matches. -/
theorem search_spec (h : sep.search xs = some (p, ys)) :
    ∃ m, xs = p ++ m ∧ sep.behind m = some ys := by
  induction xs generalizing p with
  | nil => cases h
  | cons x xs ih =>
    cases hb : sep.behind (x :: xs) with
    | some zs =>
      rw [search_cons_of_some hb] at h
      cases h
      exact ⟨x :: xs, rfl, hb⟩
    | none =>
      rw [search_cons_of_none hb] at h
      obtain ⟨⟨p', ys'⟩, hs, heq⟩ := Option.map_eq_some_iff.mp h
      cases heq
      obtain ⟨m, rfl, hm⟩ := ih hs
      exact ⟨m, rfl, hm⟩

/-- **The match stays the leftmost** behind an end of what is before it. -/
theorem search_suffix {m q : List α} (h : sep.search (p ++ m) = some (p, ys)) (hq : q <:+ p) :
    sep.search (q ++ m) = some (q, ys) := by
  obtain ⟨r, rfl⟩ := hq
  have hdrop := search_drop h (k := r.length) (by simp)
  rwa [List.append_assoc, List.drop_left, List.drop_left] at hdrop

/-- There is none in an end of a list without one. -/
theorem search_suffix_of_none (h : sep.search xs = none) (hs : ys <:+ xs) :
    sep.search ys = none := by
  obtain ⟨r, rfl⟩ := hs
  have hdrop := search_drop_of_none h r.length
  rwa [List.drop_left] at hdrop

/-! ## The pieces -/

/-- Matches up to the length of the list are enough. -/
theorem piecesUpTo_of_le {n : ℕ} (h : xs.length ≤ n) : sep.piecesUpTo n xs = sep.pieces xs := by
  have hlen : ∀ (m n : ℕ) (xs : List α), xs.length ≤ m → xs.length ≤ n →
      sep.piecesUpTo m xs = sep.piecesUpTo n xs := by
    intro m
    induction m with
    | zero =>
      intro n xs hm _
      obtain rfl := List.length_eq_zero_iff.mp (Nat.le_zero.mp hm)
      cases n <;> rfl
    | succ m ih =>
      intro n xs hm hn
      cases n with
      | zero =>
        obtain rfl := List.length_eq_zero_iff.mp (Nat.le_zero.mp hn)
        rfl
      | succ n =>
        unfold piecesUpTo
        cases hs : sep.search xs with
        | none => rfl
        | some e =>
          have hlt := length_lt_of_search hs
          exact congrArg (e.1 :: ·) (ih n e.2 (by omega) (by omega))
  exact hlen n xs.length xs h le_rfl

/-- **Without a match**, the list is its only piece. -/
theorem pieces_of_none (h : sep.search xs = none) : sep.pieces xs = [xs] := by
  unfold pieces
  cases xs.length with
  | zero => rfl
  | succ n => rw [piecesUpTo, h]

/-- **The first piece**, and those behind the match. -/
theorem pieces_of_some (h : sep.search xs = some (p, ys)) :
    sep.pieces xs = p :: sep.pieces ys := by
  have hlt := length_lt_of_search h
  unfold pieces
  cases hn : xs.length with
  | zero => omega
  | succ n =>
    rw [piecesUpTo, h]
    exact congrArg (p :: ·) (piecesUpTo_of_le (by omega))

/-- **Induction over the pieces.** -/
theorem pieces_induction {P : List α → Prop} (sep : Separator α)
    (none : ∀ xs, sep.search xs = none → P xs)
    (some : ∀ xs p ys, sep.search xs = some (p, ys) → P ys → P xs) (xs : List α) : P xs := by
  induction h : xs.length using Nat.strong_induction_on generalizing xs with
  | _ n ih =>
    cases hs : sep.search xs with
    | none => exact none xs hs
    | some e => exact some xs e.1 e.2 hs (ih _ (h ▸ length_lt_of_search hs) e.2 rfl)

theorem pieces_ne_nil (xs : List α) : sep.pieces xs ≠ [] := by
  cases h : sep.search xs with
  | none =>
    rw [pieces_of_none h]
    exact List.cons_ne_nil _ _
  | some e =>
    rw [pieces_of_some h]
    exact List.cons_ne_nil _ _

/-! ## What an iterator visits -/

/-- Behind a match, all pieces are visited but a last one that is empty. -/
theorem pieces_eq_tokensUpTo {n : ℕ} (h : xs.length ≤ n) :
    sep.pieces xs = sep.tokensUpTo n xs ∨ sep.pieces xs = sep.tokensUpTo n xs ++ [[]] := by
  induction n generalizing xs with
  | zero =>
    obtain rfl := List.length_eq_zero_iff.mp (Nat.le_zero.mp h)
    exact Or.inr (pieces_of_none rfl)
  | succ n ih =>
    cases xs with
    | nil => exact Or.inr (pieces_of_none rfl)
    | cons x xs =>
      rw [tokensUpTo]
      cases hs : sep.search (x :: xs) with
      | none => exact Or.inl (pieces_of_none hs)
      | some e =>
        have hlt := length_lt_of_search hs
        have hlen : e.2.length ≤ n := by
          rw [List.length_cons] at h hlt
          omega
        rw [pieces_of_some hs]
        exact (ih hlen).imp (congrArg (e.1 :: ·)) (congrArg (e.1 :: ·))

/-- **An iterator visits all pieces** but a last one that is empty. -/
theorem pieces_eq_tokens (sep : Separator α) (xs : List α) :
    sep.pieces xs = sep.tokens xs ∨ sep.pieces xs = sep.tokens xs ++ [[]] := by
  unfold tokens
  cases hs : sep.search xs with
  | none => exact Or.inl (pieces_of_none hs)
  | some e =>
    rw [pieces_of_some hs]
    exact (pieces_eq_tokensUpTo le_rfl).imp (congrArg (e.1 :: ·)) (congrArg (e.1 :: ·))

theorem tokensUpTo_eq_nil {n : ℕ} : sep.tokensUpTo n xs = [] ↔ xs = [] := by
  cases xs with
  | nil => cases n <;> exact iff_of_true rfl rfl
  | cons x xs =>
    refine iff_of_false ?_ (List.cons_ne_nil x xs)
    cases n with
    | zero => exact List.cons_ne_nil _ _
    | succ n =>
      rw [tokensUpTo]
      split <;> exact List.cons_ne_nil _ _

/-- **A second piece is visited** if there is something behind the first match. -/
theorem tokens_eq_cons_cons : (∃ p q ps, sep.tokens xs = p :: q :: ps)
    ↔ ∃ e ∈ sep.search xs, e.2 ≠ [] := by
  unfold tokens
  cases hs : sep.search xs with
  | none => exact iff_of_false (by simp) nofun
  | some e =>
    constructor
    · rintro ⟨p, q, ps, h⟩
      refine ⟨e, rfl, fun hnil => ?_⟩
      have htail := (List.cons.inj h).2
      rw [tokensUpTo_eq_nil.mpr hnil] at htail
      cases htail
    · rintro ⟨_, ⟨⟩, hne⟩
      obtain ⟨q, ps, hq⟩ := List.exists_cons_of_ne_nil (mt tokensUpTo_eq_nil.mp hne)
      exact ⟨e.1, q, ps, congrArg (e.1 :: ·) hq⟩

/-! ## Runs -/

/-- **A run of separators**, and what is blank around it. -/
def runs (blank sep : α → Bool) : Separator α where
  behind xs :=
    match xs.dropWhile blank with
    | [] => none
    | x :: xs => if sep x then some ((xs.dropWhile sep).dropWhile blank) else none
  length_lt := by
    intro xs ys h
    have hle := (List.dropWhile_sublist (l := xs) blank).length_le
    cases hb : xs.dropWhile blank with
    | nil =>
      rw [hb] at h
      cases h
    | cons x zs =>
      rw [hb] at h hle
      obtain ⟨_, h⟩ := Option.ite_none_right_eq_some.mp h
      cases h
      have hle₁ := (List.dropWhile_sublist (l := zs) sep).length_le
      have hle₂ := (List.dropWhile_sublist (l := zs.dropWhile sep) blank).length_le
      rw [List.length_cons] at hle
      omega

/-- **What a run matches** begins with a separator, up to what is blank. -/
theorem runs_behind_eq_some {blank sep : α → Bool} : (runs blank sep).behind xs = some ys ↔
    ∃ x zs, xs.dropWhile blank = x :: zs ∧ sep x = true
      ∧ ys = (zs.dropWhile sep).dropWhile blank := by
  unfold runs
  dsimp only
  cases hb : xs.dropWhile blank with
  | nil => exact iff_of_false nofun fun ⟨_, _, h, _⟩ => List.cons_ne_nil _ _ h.symm
  | cons x zs =>
    dsimp only
    constructor
    · intro h
      obtain ⟨hx, h⟩ := Option.ite_none_right_eq_some.mp h
      cases h
      exact ⟨x, zs, rfl, hx, rfl⟩
    · rintro ⟨_, _, ⟨⟩, hx, rfl⟩
      exact if_pos hx

/-- **There is a match of a run** exactly if there is a separator. -/
theorem search_runs_eq_none {blank sep : α → Bool} (hsep : ∀ x, sep x = true → blank x = false) :
    (runs blank sep).search xs = none ↔ ∀ x ∈ xs, sep x = false := by
  induction xs with
  | nil => exact iff_of_true rfl nofun
  | cons x xs ih =>
    cases hb : (runs blank sep).behind (x :: xs) with
    | some ys =>
      rw [search_cons_of_some hb]
      obtain ⟨z, zs, hdrop, hz, _⟩ := runs_behind_eq_some.mp hb
      have hmem : z ∈ x :: xs :=
        (List.dropWhile_sublist blank).subset (hdrop ▸ List.mem_cons_self)
      refine iff_of_false nofun fun h => ?_
      rw [h z hmem] at hz
      cases hz
    | none =>
      rw [search_cons_of_none hb, Option.map_eq_none_iff, ih, List.forall_mem_cons]
      refine (and_iff_right_of_imp fun _ => ?_).symm
      by_contra hx
      rw [Bool.not_eq_false] at hx
      have hdrop : (x :: xs).dropWhile blank = x :: xs :=
        List.dropWhile_cons_of_neg (by rw [hsep x hx]; exact Bool.false_ne_true)
      rw [runs_behind_eq_some.mpr ⟨x, xs, hdrop, hx, rfl⟩] at hb
      cases hb

/-! ## Words -/

/-- **A word.** -/
def word [DecidableEq α] (w : List α) (hw : w ≠ []) : Separator α where
  behind xs := if w <+: xs then some (xs.drop w.length) else none
  length_lt := by
    intro xs ys h
    obtain ⟨hpre, h⟩ := Option.ite_none_right_eq_some.mp h
    cases h
    have hpos := List.length_pos_iff.mpr hw
    have hle := hpre.length_le
    rw [List.length_drop]
    omega

theorem word_behind_eq_some [DecidableEq α] {w : List α} {hw : w ≠ []} :
    (word w hw).behind xs = some ys ↔ xs = w ++ ys := by
  unfold word
  dsimp only
  rw [Option.ite_none_right_eq_some, Option.some.injEq]
  constructor
  · rintro ⟨⟨zs, rfl⟩, rfl⟩
    rw [List.drop_left]
  · rintro rfl
    exact ⟨List.prefix_append w ys, List.drop_left⟩

/-- **A word is between** what is before and behind its match. -/
theorem eq_of_search_word [DecidableEq α] {w : List α} {hw : w ≠ []}
    (h : (word w hw).search xs = some (p, ys)) : xs = p ++ (w ++ ys) := by
  obtain ⟨m, rfl, hm⟩ := search_spec h
  rw [word_behind_eq_some.mp hm]

/-- A word at the front is the leftmost match. -/
theorem search_word_append [DecidableEq α] (w : List α) (hw : w ≠ []) (ys : List α) :
    (word w hw).search (w ++ ys) = some ([], ys) := by
  obtain ⟨x, w, rfl⟩ := List.exists_cons_of_ne_nil hw
  exact search_cons_of_some (word_behind_eq_some.mpr rfl)

/-- **No piece between matches of one element** contains it. -/
theorem not_mem_of_mem_pieces [DecidableEq α] {x : α} {hw : [x] ≠ []}
    (hp : p ∈ (word [x] hw).pieces xs) : x ∉ p := by
  induction xs using pieces_induction (word [x] hw) with
  | none xs hs =>
    rw [pieces_of_none hs, List.mem_singleton] at hp
    subst hp
    intro hx
    obtain ⟨q, r, rfl, _⟩ := List.eq_append_cons_of_mem hx
    have hsuffix := search_suffix_of_none hs (List.suffix_append q (x :: r))
    exact absurd (search_word_append [x] hw r) (hsuffix ▸ nofun)
  | some xs q ys hs ih =>
    rw [pieces_of_some hs, List.mem_cons] at hp
    rcases hp with rfl | hp
    · intro hx
      obtain ⟨q, r, rfl, _⟩ := List.eq_append_cons_of_mem hx
      have hxs := eq_of_search_word hs
      have hsuffix := search_suffix (hxs ▸ hs) (List.suffix_append q (x :: r))
      have hfirst := search_word_append [x] hw (r ++ ([x] ++ ys))
      cases hsuffix.symm.trans hfirst
    · exact ih hp

end Separator
