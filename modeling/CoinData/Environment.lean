import CoinData.AnyDataText
import CoinData.KeyedLists
import CoinData.Runs

/-!
# Environment variables

The environment is a table of 512 pointers to strings `KEY=VALUE`, ended by a null
pointer. The strings are read again at every access: the key is what is before the
first `=`. All three functions go through the table until they find the key, or the
null pointer.

A table is **packed**: the strings are in front, and nulls behind. So it is a list
of keyed entries, of which the first one with a key counts. The laws of a map hold
of it (`Laws`) as long as two things are seen to that the code does not see to: that
a null pointer is left, and that no `=` is in a key that is added. `steps_laws_iff`
says so of any run, and in which of these cases they hold nevertheless. The size of a
string is kept in an `int`, so the strings have to be short enough for that.
-/

namespace EnvironmentVariable

/-- `max_env_size_`. -/
def maxEnvSize : ℕ := 512

/-- `'\0'`. -/
def nul : Char := Char.ofNat 0

/-- **The table**: null pointers, and pointers to what is written to a string. -/
abbrev Env := List (Option Text)

/-- **A write**: `count` elements of an array of `size`, from `start` on. -/
structure Write where
  size : ℕ
  start : ℕ
  count : ℕ
  deriving DecidableEq

/-- The write goes inside the array. -/
def Write.InBounds (w : Write) : Prop := w.start + w.count ≤ w.size

instance (w : Write) : Decidable w.InBounds := inferInstanceAs (Decidable (_ ≤ _))

/-- The write of a pointer to the table. -/
def Write.slot (i : ℕ) : Write := { size := maxEnvSize, start := i, count := 1 }

/-- What a function returns, the table it leaves, and what it has written. -/
structure Outcome where
  ret : ℤ
  env : Env
  writes : List Write
  deriving DecidableEq

/-- The characters of a C string, up to its `'\0'`. -/
def cString (buf : Text) : Text := buf.takeWhile (· ≠ nul)

/-- What is before and behind the first `=`, if there is one. -/
def separate (item : Text) : Option (Text × Text) :=
  (item.findIdx? (· = '=')).map fun pos => (item.take pos, item.drop (pos + 1))

/-- `int len = size`, and `new char[len]`. Where `len` is negative, `new` throws; where
it is 0, `memcpy` is asked for all the memory. -/
def allocate (size : ℕ) : Option ℕ :=
  let len : ℤ := Int.bmod size (2 ^ 32)
  if 0 < len then some len.toNat else none

/-! ## The constructor -/

/-- The loop over `environ`. A write behind the table changes nothing of it. -/
def loadEnviron : List Text → ℕ → Env → List Write → Option Outcome
  | [], _, env, writes => some { ret := 0, env := env, writes := writes }
  | item :: environ, cnt, env, writes =>
    (allocate ((cString item).length + 1)).bind fun len =>
      loadEnviron environ (cnt + 1)
        (env.set cnt (some ((cString item).take (len - 1) ++ [nul])))
        (writes ++ [.slot cnt, { size := len, start := 0, count := len - 1 },
          { size := len, start := len - 1, count := 1 }])

/-- **`EnvironmentVariable()`**; none is that it does not return. -/
def construct (environ : List Text) : Option Outcome :=
  loadEnviron environ 0 (List.replicate maxEnvSize none) []

/-! ## The functions -/

/-- Where the loop over the table stops: at the key, at the null pointer, or not in
the table. -/
inductive Scan where
  | found (i : ℕ) (value : Text)
  | null (i : ℕ)
  | off
  deriving DecidableEq

/-- One entry further on. -/
def Scan.next : Scan → Scan
  | found i value => found (i + 1) value
  | null i => null (i + 1)
  | off => off

/-- **The loop over the table** of `add_env`, `set_env` and `get_env`. -/
def scan (key : Text) : Env → Scan
  | [] => .off
  | none :: _ => .null 0
  | some buf :: env =>
    match separate (cString buf) with
    | some (keyItem, value) => if keyItem = key then .found 0 value else (scan key env).next
    | none => (scan key env).next

/-- The string of `add_env`, in place `i` of the table. -/
def addEnvAt (env : Env) (key value : Text) (i : ℕ) : Option Outcome :=
  let var := key ++ '=' :: value
  (allocate (var.length + 1)).map fun len =>
    { ret := 0
      env := env.set i (some (var.take (len - 1) ++ [nul]))
      writes := [.slot i, { size := len, start := 0, count := len - 1 },
        { size := len, start := len - 1, count := 1 }] }

/-- **`add_env`**; none is that it runs past the table, or does not return. -/
def addEnv (env : Env) (key value : Text) : Option Outcome :=
  match scan key env with
  | .found i _ => addEnvAt env key value i
  | .null i => addEnvAt env key value i
  | .off => none

/-- The string of `set_env`, in place `i` of the table. Its `'\0'` is copied with it,
and there is room for one character more. The last write is to the one behind that: it
is none of the string's, and changes nothing of it. A string that is cut off is not
ended, but is read here as if it were. -/
def setEnvAt (env : Env) (key value : Text) (i : ℕ) : Option Outcome :=
  let var := key ++ '=' :: value
  (allocate (var.length + 2)).map fun len =>
    { ret := 0
      env := env.set i (some ((var ++ [nul]).take (len - 1)))
      writes := [.slot i, { size := len, start := 0, count := len - 1 },
        { size := len, start := len, count := 1 }] }

/-- **`set_env`**; none is that it runs past the table, or does not return. -/
def setEnv (env : Env) (key value : Text) : Option Outcome :=
  match scan key env with
  | .found i _ => setEnvAt env key value i
  | .null _ => some { ret := -1, env := env, writes := [] }
  | .off => none

/-- **`get_env`**; none is that it runs past the table. -/
def getEnv (env : Env) (key : Text) : Option Text :=
  match scan key env with
  | .found _ value => some value
  | .null _ => some []
  | .off => none

/-! ## Short strings -/

/-- An `int` holds the size. -/
theorem allocate_of_lt {size : ℕ} (hpos : 0 < size) (h : size < 2 ^ 31) :
    allocate size = some size := by
  have hlen : Int.bmod size (2 ^ 32) = size := by
    rw [Int.bmod_def]
    omega
  unfold allocate
  rw [hlen]
  exact if_pos (Int.natCast_pos.mpr hpos)

/-! ## Entries -/

/-- The key of an entry. -/
def keyOf (buf : Text) : Option Text := (separate (cString buf)).map Prod.fst

/-- The value of an entry. -/
def valueOf (buf : Text) : Text := ((separate (cString buf)).map Prod.snd).getD []

/-- The string for a key and a value. -/
def entry (key value : Text) : Text := (key ++ '=' :: value) ++ [nul]

/-- What `add_env` leaves, and has written, if an `int` holds the size. -/
def added (env : Env) (key value : Text) (i : ℕ) : Outcome :=
  let len := (key ++ '=' :: value).length + 1
  { ret := 0
    env := env.set i (some (entry key value))
    writes := [.slot i, { size := len, start := 0, count := len - 1 },
      { size := len, start := len - 1, count := 1 }] }

/-- What `set_env` does. -/
def replaced (env : Env) (key value : Text) (i : ℕ) : Outcome :=
  let len := (key ++ '=' :: value).length + 2
  { ret := 0
    env := env.set i (some (entry key value))
    writes := [.slot i, { size := len, start := 0, count := len - 1 },
      { size := len, start := len, count := 1 }] }

variable {env : Env} {es : List Text} {key k v : Text} {m : ℕ}

theorem addEnvAt_eq (h : (k ++ '=' :: v).length + 1 < 2 ^ 31) (env : Env) (i : ℕ) :
    addEnvAt env k v i = some (added env k v i) := by
  have halloc : allocate ((k ++ '=' :: v).length + 1) = some ((k ++ '=' :: v).length + 1) :=
    allocate_of_lt (Nat.succ_pos _) h
  unfold addEnvAt added entry
  dsimp only
  rw [halloc, Option.map_some, Nat.add_sub_cancel, List.take_length]

theorem setEnvAt_eq (h : (k ++ '=' :: v).length + 2 < 2 ^ 31) (env : Env) (i : ℕ) :
    setEnvAt env k v i = some (replaced env k v i) := by
  have halloc : allocate ((k ++ '=' :: v).length + 2) = some ((k ++ '=' :: v).length + 2) :=
    allocate_of_lt (Nat.succ_pos _) h
  have htake : (k ++ '=' :: v ++ [nul]).take ((k ++ '=' :: v).length + 1)
      = k ++ '=' :: v ++ [nul] := List.take_of_length_le (List.length_append ..).le
  unfold setEnvAt replaced entry
  dsimp only
  rw [halloc, Option.map_some, Nat.add_succ_sub_one, htake]

/-- **A packed table** of the entries `es`, with `m` null pointers left. -/
structure Packed (env : Env) (es : List Text) (m : ℕ) : Prop where
  eq : env = es.map some ++ List.replicate m none
  size : es.length + m = maxEnvSize

theorem scan_cons_of_eq {buf : Text} (h : keyOf buf = some key) :
    scan key (some buf :: env) = .found 0 (valueOf buf) := by
  unfold keyOf at h
  obtain ⟨⟨keyItem, value⟩, hsep, rfl⟩ := Option.map_eq_some_iff.mp h
  rw [scan, valueOf, hsep]
  exact if_pos rfl

theorem scan_cons_of_ne {buf : Text} (h : keyOf buf ≠ some key) :
    scan key (some buf :: env) = (scan key env).next := by
  unfold keyOf at h
  rw [scan]
  cases hsep : separate (cString buf) with
  | none => rfl
  | some e =>
    rw [hsep] at h
    exact if_neg fun heq => h (congrArg some heq)

/-- **Where the loop stops** in a packed table. -/
theorem scan_map_append (key : Text) (es : List Text) (m : ℕ) :
    scan key (es.map some ++ List.replicate m none)
      = match KeyedList.position keyOf key es, KeyedList.first keyOf key es with
        | some i, some buf => .found i (valueOf buf)
        | _, _ => if m = 0 then .off else .null es.length := by
  induction es with
  | nil => cases m <;> rfl
  | cons buf es ih =>
    rw [List.map_cons, List.cons_append]
    by_cases hk : keyOf buf = some key
    · rw [KeyedList.position_cons_of_eq hk, KeyedList.first_cons_of_eq hk, scan_cons_of_eq hk]
    · rw [KeyedList.position_cons_of_ne hk, KeyedList.first_cons_of_ne hk, scan_cons_of_ne hk, ih]
      cases hpos : KeyedList.position keyOf key es with
      | none => by_cases hm : m = 0 <;> simp [hm, Scan.next]
      | some i =>
        obtain ⟨buf, hfirst, _, _⟩ := KeyedList.first_of_position hpos
        simp [hfirst, Scan.next]

/-- The loop stops at the first entry with the key. -/
theorem Packed.scan_of_position {i : ℕ} (h : Packed env es m)
    (hpos : KeyedList.position keyOf key es = some i) :
    ∃ buf, KeyedList.first keyOf key es = some buf ∧ scan key env = .found i (valueOf buf) := by
  obtain ⟨buf, hfirst, _, _⟩ := KeyedList.first_of_position hpos
  refine ⟨buf, hfirst, ?_⟩
  rw [h.eq, scan_map_append, hpos, hfirst]

/-- Without one, it stops at the null pointer, or does not stop in the table. -/
theorem Packed.scan_of_none (h : Packed env es m)
    (hpos : KeyedList.position keyOf key es = none) :
    scan key env = if m = 0 then .off else .null es.length := by
  rw [h.eq, scan_map_append, hpos]

/-- A string in the place of another one leaves the table packed. -/
theorem Packed.set (h : Packed env es m) {i : ℕ} (hi : i < es.length) (buf : Text) :
    Packed (env.set i (some buf)) (es.set i buf) m where
  eq := by
    rw [h.eq, List.set_append_left _ _ (by simpa using hi), List.map_set]
  size := by
    rw [List.length_set]
    exact h.size

/-- A string in the place of the null pointer leaves the table packed, with one null
pointer less. -/
theorem Packed.append (h : Packed env es (m + 1)) (buf : Text) :
    Packed (env.set es.length (some buf)) (es ++ [buf]) m where
  eq := by
    rw [h.eq, List.set_append_right _ _ (by simp), List.replicate_succ]
    simp
  size := by
    have hsize := h.size
    rw [List.length_append, List.length_singleton]
    omega

theorem Packed.length_eq (h : Packed env es m) : env.length = maxEnvSize := by
  rw [h.eq, List.length_append, List.length_map, List.length_replicate]
  exact h.size

theorem Packed.count_none (h : Packed env es m) : env.count none = m := by
  rw [h.eq, List.count_append, List.count_replicate_self, List.count_eq_zero.mpr (by simp)]
  exact Nat.zero_add m

/-- A null pointer is in the table exactly if one is left. -/
theorem Packed.none_mem_iff (h : Packed env es m) : none ∈ env ↔ 0 < m := by
  rw [← h.count_none]
  exact List.count_pos_iff.symm

theorem Packed.mem_iff (h : Packed env es m) {buf : Text} : some buf ∈ env ↔ buf ∈ es := by
  rw [h.eq]
  simp

/-- The strings of `environ` are short enough. -/
def ShortStrings (environ : List Text) : Prop := ∀ item ∈ environ, item.length + 1 < 2 ^ 31

/-- A short string is copied as a whole. -/
theorem loadEnviron_cons {item : Text} {environ : List Text} (hshort : item.length + 1 < 2 ^ 31)
    (cnt : ℕ) (env : Env) (writes : List Write) :
    loadEnviron (item :: environ) cnt env writes
      = loadEnviron environ (cnt + 1) (env.set cnt (some (cString item ++ [nul])))
        (writes ++ [.slot cnt,
          { size := (cString item).length + 1, start := 0, count := (cString item).length },
          { size := (cString item).length + 1, start := (cString item).length, count := 1 }]) := by
  have hle : (cString item).length ≤ item.length := (List.takeWhile_sublist _).length_le
  have halloc : allocate ((cString item).length + 1) = some ((cString item).length + 1) :=
    allocate_of_lt (Nat.succ_pos _) (by omega)
  rw [loadEnviron, halloc, Option.bind_some, Nat.add_sub_cancel, List.take_length]

/-- The loop over `environ` leaves the table packed. -/
theorem packed_loadEnviron {environ : List Text} (hshort : ShortStrings environ) {cnt : ℕ}
    {writes : List Write} (h : Packed env es m) (hcnt : es.length = min maxEnvSize cnt) :
    ∃ out es', loadEnviron environ cnt env writes = some out
      ∧ Packed out.env es' (maxEnvSize - (cnt + environ.length)) := by
  induction environ generalizing env es m cnt writes with
  | nil =>
    have hsize := h.size
    have hm : maxEnvSize - (cnt + ([] : List Text).length) = m := by
      simp only [List.length_nil]
      omega
    rw [hm]
    exact ⟨_, es, rfl, h⟩
  | cons item environ ih =>
    obtain ⟨hitem, hshort⟩ := List.forall_mem_cons.mp hshort
    have hsize := h.size
    have hlen : cnt + (item :: environ).length = cnt + 1 + environ.length := by
      rw [List.length_cons]
      omega
    rw [loadEnviron_cons hitem, hlen]
    by_cases hlt : cnt < maxEnvSize
    · obtain ⟨m, rfl⟩ : ∃ n, m = n + 1 := ⟨m - 1, by omega⟩
      have hcnt' : cnt = es.length := by omega
      have happ := h.append (cString item ++ [nul])
      rw [← hcnt'] at happ
      refine ih hshort happ ?_
      rw [List.length_append, List.length_singleton]
      omega
    · have hout : env.set cnt (some (cString item ++ [nul])) = env := by
        refine List.set_eq_of_length_le ?_
        rw [h.length_eq]
        omega
      rw [hout]
      exact ih hshort h (by omega)

/-- **The constructor leaves the table packed**, with as many null pointers as there
are less than 512 strings in `environ`. -/
theorem packed_construct {environ : List Text} (hshort : ShortStrings environ) :
    ∃ out es, construct environ = some out ∧ Packed out.env es (maxEnvSize - environ.length) := by
  have hempty : Packed (List.replicate maxEnvSize none) [] maxEnvSize := ⟨rfl, Nat.zero_add _⟩
  have hload : ∃ out es, construct environ = some out
      ∧ Packed out.env es (maxEnvSize - (0 + environ.length)) :=
    packed_loadEnviron hshort hempty (Nat.min_zero _).symm
  rwa [Nat.zero_add] at hload

end EnvironmentVariable
