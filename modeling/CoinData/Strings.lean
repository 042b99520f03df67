import CoinData.AnyDataText
import CoinData.Separators
import Mathlib.Data.List.DropRight

/-!
# Splitting of strings

`split` takes a string apart at a delimiter. Where a piece begins is searched with
`find_first_not_of`, to which the delimiter is a set of characters, and where it
ends with `find`, to which it is a word. So the characters of the delimiter that a
piece begins with are lost, and a piece of nothing else is lost as a whole.

`fields` is what is returned then, for any delimiter but the empty one
(`splitReturns_iff`); it is all the pieces that are not empty exactly if none of
them begins with a character of the delimiter (`splitReturns_pieces_iff`). The empty
delimiter is found at once, over and over, and `split` does not return
(`exists_splitReturns_iff`).
-/

namespace Strings

/-! ## The searches of `std::string_view` -/

/-- `find_first_not_of`; none is `npos`. -/
def findFirstNotOf (sv chars : Text) (pos : ℕ) : Option ℕ :=
  ((sv.drop pos).findIdx? (· ∉ chars)).map (· + pos)

/-- Where a word is at first. -/
def indexOf (w : Text) : Text → Option ℕ
  | [] => if w = [] then some 0 else none
  | x :: xs => if w <+: x :: xs then some 0 else (indexOf w xs).map (· + 1)

/-- `find`; none is `npos`. -/
def find (sv w : Text) (pos : ℕ) : Option ℕ :=
  if pos ≤ sv.length then (indexOf w (sv.drop pos)).map (· + pos) else none

/-! ## The loop -/

/-- **The loop of `split`**, up to `n` times, from a position on; none is that it
is not through yet. -/
def splitLoop (sv delimiter : Text) : ℕ → Option ℕ → List Text → Option (List Text)
  | _, none, result => some result
  | 0, some _, _ => none
  | n + 1, some pos, result =>
    match find sv delimiter pos with
    | none => some (result ++ [sv.drop pos])
    | some fin =>
      splitLoop sv delimiter n (findFirstNotOf sv delimiter fin)
        (result ++ [(sv.drop pos).take (fin - pos)])

/-- **`split`** returns `result`. -/
def SplitReturns (str delimiter : Text) (result : List Text) : Prop :=
  ∃ n, splitLoop str delimiter n (findFirstNotOf str delimiter 0) [] = some result

variable {sv str delimiter chars xs ys p : Text} {result acc : List Text}

/-- More rounds change nothing about what is returned. -/
theorem splitLoop_succ {n : ℕ} {pos : Option ℕ}
    (h : splitLoop sv delimiter n pos acc = some result) :
    splitLoop sv delimiter (n + 1) pos acc = some result := by
  induction n generalizing pos acc with
  | zero =>
    cases pos with
    | none => exact h
    | some pos => cases h
  | succ n ih =>
    cases pos with
    | none => exact h
    | some pos =>
      rw [splitLoop] at h ⊢
      cases hfind : find sv delimiter pos with
      | none =>
        rw [hfind] at h
        exact h
      | some fin =>
        rw [hfind] at h
        exact ih h

theorem splitLoop_of_le {m n : ℕ} {pos : Option ℕ} (hmn : m ≤ n)
    (h : splitLoop sv delimiter m pos acc = some result) :
    splitLoop sv delimiter n pos acc = some result := by
  induction hmn with
  | refl => exact h
  | step _ ih => exact splitLoop_succ ih

/-- One result is returned. -/
theorem SplitReturns.unique {result' : List Text} (h : SplitReturns str delimiter result)
    (h' : SplitReturns str delimiter result') : result = result' := by
  obtain ⟨m, hm⟩ := h
  obtain ⟨n, hn⟩ := h'
  have hm' := splitLoop_of_le (Nat.le_max_left m n) hm
  have hn' := splitLoop_of_le (Nat.le_max_right m n) hn
  exact Option.some.inj (hm'.symm.trans hn')

/-! ## What the searches find -/

/-- What is behind the characters at the front that are in a set. -/
abbrev skip (chars xs : Text) : Text := xs.dropWhile (· ∈ chars)

theorem findIdx?_cases (chars xs : Text) :
    (xs.findIdx? (· ∉ chars) = none ∧ skip chars xs = [])
      ∨ ∃ i, xs.findIdx? (· ∉ chars) = some i ∧ skip chars xs = xs.drop i ∧ i < xs.length := by
  induction xs with
  | nil => exact Or.inl ⟨rfl, rfl⟩
  | cons x xs ih =>
    by_cases hx : x ∈ chars
    · have hidx : (x :: xs).findIdx? (· ∉ chars) = (xs.findIdx? (· ∉ chars)).map (· + 1) := by
        simp [List.findIdx?_cons, hx]
      have hskip : skip chars (x :: xs) = skip chars xs :=
        List.dropWhile_cons_of_pos (decide_eq_true hx)
      rw [hidx, hskip]
      obtain ⟨hnone, hnil⟩ | ⟨i, hi, hdrop, hlt⟩ := ih
      · exact Or.inl ⟨by rw [hnone]; rfl, hnil⟩
      · exact Or.inr ⟨i + 1, by rw [hi]; rfl, hdrop, Nat.succ_lt_succ hlt⟩
    · refine Or.inr ⟨0, ?_, ?_, Nat.zero_lt_succ _⟩
      · simp [List.findIdx?_cons, hx]
      · exact List.dropWhile_cons_of_neg (by simpa using hx)

/-- **`find_first_not_of`** finds where what is not skipped begins. -/
theorem findFirstNotOf_cases (sv chars : Text) (pos : ℕ) :
    (findFirstNotOf sv chars pos = none ∧ skip chars (sv.drop pos) = [])
      ∨ ∃ i, findFirstNotOf sv chars pos = some i ∧ skip chars (sv.drop pos) = sv.drop i
        ∧ i < sv.length := by
  unfold findFirstNotOf
  obtain ⟨hnone, hnil⟩ | ⟨i, hi, hdrop, hlt⟩ := findIdx?_cases chars (sv.drop pos)
  · exact Or.inl ⟨by rw [hnone]; rfl, hnil⟩
  · refine Or.inr ⟨i + pos, by rw [hi]; rfl, ?_, ?_⟩
    · rw [hdrop, List.drop_drop, Nat.add_comm]
    · rw [List.length_drop] at hlt
      omega

/-- **`find`** finds the leftmost match of a word. -/
theorem indexOf_eq (hw : delimiter ≠ []) (xs : Text) :
    indexOf delimiter xs
      = ((Separator.word delimiter hw).search xs).map fun e => e.1.length := by
  induction xs with
  | nil => exact if_neg hw
  | cons x xs ih =>
    rw [indexOf]
    by_cases hpre : delimiter <+: x :: xs
    · have hb : (Separator.word delimiter hw).behind (x :: xs)
          = some ((x :: xs).drop delimiter.length) := if_pos hpre
      rw [if_pos hpre, Separator.search_cons_of_some hb]
      rfl
    · have hb : (Separator.word delimiter hw).behind (x :: xs) = none := if_neg hpre
      rw [if_neg hpre, Separator.search_cons_of_none hb, ih, Option.map_map, Option.map_map]
      rfl

/-! ## What is returned -/

/-- **The pieces** between successive leftmost matches of the delimiter. -/
def pieces (delimiter : Text) (hd : delimiter ≠ []) (str : Text) : List Text :=
  (Separator.word delimiter hd).pieces str

/-- The pieces that are not empty. -/
def nonemptyPieces (delimiter : Text) (hd : delimiter ≠ []) (str : Text) : List Text :=
  (pieces delimiter hd str).filter (· ≠ [])

/-- **What is left of the pieces** when the characters of the delimiter at their
front are skipped. -/
def fields (delimiter : Text) (hd : delimiter ≠ []) (str : Text) : List Text :=
  ((pieces delimiter hd str).map (skip delimiter)).filter (· ≠ [])

variable {hd : delimiter ≠ []}

theorem skip_append (ys : Text) (h : skip chars p = []) :
    skip chars (p ++ ys) = skip chars ys := by
  unfold skip at h ⊢
  rw [List.dropWhile_append, h]
  rfl

theorem skip_append_of_ne_nil (ys : Text) (h : skip chars p ≠ []) :
    skip chars (p ++ ys) = skip chars p ++ ys := by
  unfold skip at h ⊢
  rw [List.dropWhile_append, if_neg (by simpa using h)]

theorem skip_self (delimiter : Text) : skip delimiter delimiter = [] :=
  List.dropWhile_eq_nil_iff.mpr fun _ hx => decide_eq_true hx

theorem fields_of_none (h : (Separator.word delimiter hd).search xs = none) :
    fields delimiter hd xs = [skip delimiter xs].filter (· ≠ []) := by
  unfold fields pieces
  rw [Separator.pieces_of_none h]
  rfl

theorem fields_of_some (h : (Separator.word delimiter hd).search xs = some (p, ys)) :
    fields delimiter hd xs = [skip delimiter p].filter (· ≠ []) ++ fields delimiter hd ys := by
  unfold fields pieces
  rw [Separator.pieces_of_some h, List.map_cons, ← List.singleton_append, List.filter_append]

/-- A delimiter at the front changes nothing. -/
theorem fields_delimiter_append (ys : Text) :
    fields delimiter hd (delimiter ++ ys) = fields delimiter hd ys :=
  fields_of_some (Separator.search_word_append delimiter hd ys)

/-- **What is skipped at the front** changes nothing. -/
theorem fields_skip (delimiter : Text) (hd : delimiter ≠ []) (xs : Text) :
    fields delimiter hd (skip delimiter xs) = fields delimiter hd xs := by
  have htwice : ∀ xs, skip delimiter (skip delimiter xs) = skip delimiter xs :=
    List.dropWhile_idempotent _
  induction xs using Separator.pieces_induction (Separator.word delimiter hd) with
  | none xs hs =>
    have hs' := Separator.search_suffix_of_none hs (List.dropWhile_suffix (· ∈ delimiter))
    rw [fields_of_none hs, fields_of_none hs', htwice]
  | some xs p ys hs ih =>
    have hxs := Separator.eq_of_search_word hs
    rw [fields_of_some hs]
    by_cases hp : skip delimiter p = []
    · rw [hxs, skip_append _ hp, skip_append _ (skip_self delimiter), ih, hp]
      rfl
    · have hs' := Separator.search_suffix (hxs ▸ hs) (List.dropWhile_suffix (· ∈ delimiter))
      rw [hxs, skip_append_of_ne_nil _ hp, fields_of_some hs', htwice]

/-- **The piece before a delimiter** is not empty where nothing is to be skipped, and
nothing of it is skipped. -/
theorem skip_piece (hd : delimiter ≠ []) {xs p ys : Text} (hself : skip delimiter xs = xs)
    (hxs : xs = p ++ (delimiter ++ ys)) : p ≠ [] ∧ skip delimiter p = p := by
  have hp : skip delimiter p ≠ [] := by
    intro hp
    rw [hxs, skip_append _ hp, skip_append _ (skip_self delimiter)] at hself
    have hle : (skip delimiter ys).length ≤ ys.length := (List.dropWhile_suffix _).length_le
    have hlen := congrArg List.length hself
    have hdpos := List.length_pos_iff.mpr hd
    simp only [List.length_append] at hlen
    omega
  have hpself : skip delimiter p = p := by
    rw [hxs, skip_append_of_ne_nil _ hp] at hself
    exact List.append_cancel_right hself
  exact ⟨hpself ▸ hp, hpself⟩

/-- **The loop returns the fields** of what is behind a position. -/
theorem splitLoop_eq (hd : delimiter ≠ []) (sv : Text) {n k : ℕ} (h : (sv.drop k).length < n)
    (acc : List Text) :
    splitLoop sv delimiter n (findFirstNotOf sv delimiter k) acc
      = some (acc ++ fields delimiter hd (sv.drop k)) := by
  induction n generalizing k acc with
  | zero => omega
  | succ n ih =>
    rw [← fields_skip]
    obtain ⟨hnone, hnil⟩ | ⟨pos, hpos, hskip, hlt⟩ := findFirstNotOf_cases sv delimiter k
    · rw [hnone, hnil, fields_of_none rfl, splitLoop]
      exact congrArg some (List.append_nil acc).symm
    · have hself : skip delimiter (sv.drop pos) = sv.drop pos := by
        rw [← hskip]
        exact List.dropWhile_idempotent _ _
      have hne : sv.drop pos ≠ [] := by simpa using hlt
      have hfind : find sv delimiter pos
          = (indexOf delimiter (sv.drop pos)).map (· + pos) := if_pos hlt.le
      rw [hpos, hskip, splitLoop, hfind, indexOf_eq hd]
      cases hs : (Separator.word delimiter hd).search (sv.drop pos) with
      | none =>
        rw [fields_of_none hs, hself, List.filter_singleton, decide_eq_true hne]
        rfl
      | some e =>
        obtain ⟨p, ys⟩ := e
        have hxs := Separator.eq_of_search_word hs
        obtain ⟨hp, hpself⟩ := skip_piece hd hself hxs
        have hdrop : sv.drop (p.length + pos) = delimiter ++ ys := by
          rw [Nat.add_comm, ← List.drop_drop, hxs, List.drop_left]
        have hlen : (sv.drop (p.length + pos)).length < n := by
          have hppos := List.length_pos_iff.mpr hp
          have hle : (sv.drop pos).length ≤ (sv.drop k).length := by
            rw [← hskip]
            exact (List.dropWhile_suffix _).length_le
          have hxslen := congrArg List.length hxs
          rw [hdrop]
          simp only [List.length_append] at hxslen ⊢
          omega
        have htake : (sv.drop pos).take (p.length + pos - pos) = p := by
          rw [Nat.add_sub_cancel, hxs, List.take_left]
        simp only [Option.map_some]
        rw [htake, ih hlen, hdrop, fields_delimiter_append, fields_of_some hs, hpself,
          List.filter_singleton, decide_eq_true hp, List.append_assoc]
        rfl

/-- **What `split` returns.** -/
theorem splitReturns_iff (hd : delimiter ≠ []) :
    SplitReturns str delimiter result ↔ result = fields delimiter hd str := by
  have hfields : SplitReturns str delimiter (fields delimiter hd str) :=
    ⟨str.length + 1, splitLoop_eq hd str (k := 0) (Nat.lt_succ_self _) []⟩
  constructor
  · intro h
    exact h.unique hfields
  · rintro rfl
    exact hfields

/-! ## When these are the pieces -/

/-- **Nothing is lost** of lists shortened to the same total length. -/
theorem eq_of_length_flatten_map {f : Text → Text} {ps : List Text} (hf : ∀ p, f p <:+ p)
    (h : (ps.map f).flatten.length = ps.flatten.length) : ∀ p ∈ ps, f p = p := by
  have hle : ∀ qs : List Text, (qs.map f).flatten.length ≤ qs.flatten.length := by
    intro qs
    induction qs with
    | nil => exact le_rfl
    | cons q qs ih =>
      have hq := (hf q).length_le
      simp only [List.map_cons, List.flatten_cons, List.length_append]
      omega
  induction ps with
  | nil => exact fun p hp => by cases hp
  | cons p ps ih =>
    have hp := (hf p).length_le
    have hps := hle ps
    simp only [List.map_cons, List.flatten_cons, List.length_append] at h
    refine List.forall_mem_cons.mpr ⟨(hf p).eq_of_length (by omega), ih (by omega)⟩

theorem flatten_filter_ne_nil (ps : List Text) : (ps.filter (· ≠ [])).flatten = ps.flatten := by
  induction ps with
  | nil => rfl
  | cons p ps ih =>
    by_cases hp : p = []
    · rw [List.filter_cons_of_neg (by simpa using hp), ih, hp]
      rfl
    · rw [List.filter_cons_of_pos (by simpa using hp), List.flatten_cons, ih, List.flatten_cons]

/-- Nothing is skipped of what does not begin with one of the characters. -/
theorem skip_eq_self : skip chars p = p ↔ ∀ c ∈ p.head?, c ∉ chars := by
  cases p with
  | nil => exact iff_of_true rfl nofun
  | cons c p =>
    rw [List.dropWhile_eq_self_iff]
    simp

/-- **The pieces are what is left of them** exactly if none begins with a character
of the delimiter. -/
theorem nonemptyPieces_eq_fields_iff : nonemptyPieces delimiter hd str = fields delimiter hd str
    ↔ ∀ p ∈ pieces delimiter hd str, ∀ c ∈ p.head?, c ∉ delimiter := by
  have hskip : (∀ p ∈ pieces delimiter hd str, ∀ c ∈ p.head?, c ∉ delimiter)
      ↔ ∀ p ∈ pieces delimiter hd str, skip delimiter p = p :=
    forall₂_congr fun _ _ => skip_eq_self.symm
  rw [hskip]
  unfold nonemptyPieces fields
  constructor
  · intro h
    refine eq_of_length_flatten_map (fun p => List.dropWhile_suffix _) ?_
    rw [← flatten_filter_ne_nil, ← h, flatten_filter_ne_nil]
  · intro h
    rw [List.map_congr_left h, List.map_id']

/-- **`split` returns the pieces** that are not empty, for a delimiter that is not
empty, exactly if no piece begins with a character of the delimiter. -/
theorem splitReturns_pieces_iff (str delimiter : Text) (hd : delimiter ≠ []) :
    SplitReturns str delimiter (nonemptyPieces delimiter hd str)
      ↔ ∀ p ∈ pieces delimiter hd str, ∀ c ∈ p.head?, c ∉ delimiter := by
  rw [splitReturns_iff hd]
  exact nonemptyPieces_eq_fields_iff

/-- The pieces of `a//b` between slashes. -/
theorem splitReturns_pieces_slash : SplitReturns ['a', '/', '/', 'b'] ['/'] [['a'], ['b']] := by
  refine (splitReturns_pieces_iff ['a', '/', '/', 'b'] ['/'] (List.cons_ne_nil _ _)).mpr ?_
  have hpieces : pieces ['/'] (List.cons_ne_nil _ _) ['a', '/', '/', 'b'] = [['a'], [], ['b']] :=
    rfl
  rw [hpieces]
  simp

/-- The piece `ax` between two matches of `ab` is returned as `x`. -/
theorem splitReturns_pieces_false : ¬ ∀ (str delimiter : Text) (hd : delimiter ≠ []),
    SplitReturns str delimiter (nonemptyPieces delimiter hd str) := by
  intro h
  have hpieces := h "abaxab".toList "ab".toList (by decide)
  rw [splitReturns_iff (by decide)] at hpieces
  exact absurd hpieces (by decide)

/-- **A delimiter of one character**: its pieces are returned, whatever the string. -/
theorem splitReturns_singleton (str : Text) (c : Char) :
    SplitReturns str [c] (nonemptyPieces [c] (List.cons_ne_nil c []) str) := by
  rw [splitReturns_iff (List.cons_ne_nil c []), nonemptyPieces_eq_fields_iff]
  intro p hp x hx hxc
  rw [List.mem_singleton] at hxc
  subst hxc
  exact Separator.not_mem_of_mem_pieces hp (List.mem_of_mem_head? hx)

/-! ## Termination -/

/-- **The empty delimiter is found at once**, wherever the search begins. -/
theorem splitLoop_nil {n pos : ℕ} (hpos : pos < sv.length) (acc : List Text) :
    splitLoop sv [] n (some pos) acc = none := by
  induction n generalizing acc with
  | zero => rfl
  | succ n ih =>
    have hfind : find sv [] pos = some pos := by
      unfold find
      rw [if_pos hpos.le]
      cases sv.drop pos <;> simp [indexOf]
    have hfirst : findFirstNotOf sv [] pos = some pos := by
      obtain ⟨c, rest, hrest⟩ := List.exists_cons_of_ne_nil (l := sv.drop pos) (by simpa using hpos)
      unfold findFirstNotOf
      rw [hrest]
      simp [List.findIdx?_cons]
    rw [splitLoop, hfind]
    simp only
    rw [hfirst]
    exact ih _

/-- A string that is not empty is split at the empty delimiter forever. -/
theorem not_splitReturns_nil (hstr : str ≠ []) : ¬ SplitReturns str [] result := by
  rintro ⟨n, h⟩
  have hfirst : findFirstNotOf str [] 0 = some 0 := by
    obtain ⟨c, str, rfl⟩ := List.exists_cons_of_ne_nil hstr
    simp [findFirstNotOf, List.findIdx?_cons]
  rw [hfirst, splitLoop_nil (List.length_pos_iff.mpr hstr)] at h
  cases h

/-- **`split` returns** exactly if the delimiter is not empty, or the string is. -/
theorem exists_splitReturns_iff (str delimiter : Text) :
    (∃ result, SplitReturns str delimiter result) ↔ delimiter ≠ [] ∨ str = [] := by
  constructor
  · rintro ⟨result, h⟩
    by_contra hnot
    obtain ⟨hd, hstr⟩ := not_or.mp hnot
    obtain rfl := not_not.mp hd
    exact not_splitReturns_nil hstr h
  · rintro (hd | rfl)
    · exact ⟨fields delimiter hd str, (splitReturns_iff hd).mpr rfl⟩
    · exact ⟨[], 0, rfl⟩

/-- `x` is split at the empty delimiter forever. -/
theorem exists_splitReturns_false :
    ¬ ∀ str delimiter : Text, ∃ result, SplitReturns str delimiter result := by
  intro h
  obtain ⟨result, hresult⟩ := h "x".toList []
  exact not_splitReturns_nil (by decide) hresult

end Strings
