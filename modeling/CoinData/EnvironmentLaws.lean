import CoinData.Environment

/-!
# The laws of the environment

What `add_env` and `set_env` do is read with `get_env`. After a call that stores a
value, its key has it, all other keys have what they had, and `set_env` leaves a
table without the key as it is.

Two calls of `add_env` break this. The one that takes the last null pointer leaves a
table that no key which is not there can be searched in. And a key with a `=` in it
is not found again: its string is the one of the key before the `=`, for which it
counts where that was not there. `steps_laws_iff` is about the calls of a whole run,
of strings whose size an `int` holds.
-/

namespace EnvironmentVariable

/-- A call. -/
inductive Call where
  | addEnv (key value : Text)
  | setEnv (key value : Text)
  deriving DecidableEq

namespace Call

def key : Call → Text
  | addEnv key _ => key
  | setEnv key _ => key

def value : Call → Text
  | addEnv _ value => value
  | setEnv _ value => value

/-- What a call does; none is that it runs past the table. -/
def run (env : Env) : Call → Option Outcome
  | addEnv key value => EnvironmentVariable.addEnv env key value
  | setEnv key value => EnvironmentVariable.setEnv env key value

/-- **The string is short**: an `int` holds its size. -/
def Short : Call → Prop
  | addEnv key value => (key ++ '=' :: value).length + 1 < 2 ^ 31
  | setEnv key value => (key ++ '=' :: value).length + 2 < 2 ^ 31

instance : ∀ c : Call, Decidable c.Short
  | addEnv _ _ => inferInstanceAs (Decidable (_ < _))
  | setEnv _ _ => inferInstanceAs (Decidable (_ < _))

/-- The call has stored its value. -/
def Stored (out : Outcome) : Call → Prop
  | addEnv _ _ => True
  | setEnv _ _ => out.ret = 0

end Call

/-- A string of the table has the key. -/
def Present (env : Env) (key : Text) : Prop := ∃ buf, some buf ∈ env ∧ keyOf buf = some key

/-- **The laws of a map**, for a call, and the table before it. -/
structure Laws (env : Env) (c : Call) (out : Outcome) : Prop where
  same : c.Stored out → getEnv out.env c.key = some c.value
  other : ∀ key, key ≠ c.key →
    ∃ value, getEnv env key = some value ∧ getEnv out.env key = some value
  absent : ∀ key value, c = .setEnv key value → (out.ret = -1 ↔ ¬ Present env key)
  unchanged : ∀ key value, c = .setEnv key value → out.ret = -1 → out.env = env

/-- **What `add_env` is called with**, for the laws to hold: a key without `=`, or
one with no value, of which what is before the `=` is there; and a key that is there,
or a table with two null pointers left. -/
def Fits (env : Env) : Call → Prop
  | .addEnv key value =>
    ('=' ∉ key ∨ value = [] ∧ Present env (key.takeWhile (· ≠ '=')))
      ∧ (Present env key ∨ 1 < env.count none)
  | .setEnv _ _ => True

variable {env : Env} {es : List Text} {key k v : Text} {m i : ℕ} {c : Call} {out : Outcome}

/-! ## What a call does to a packed table -/

theorem Packed.present_iff (h : Packed env es m) :
    Present env key ↔ KeyedList.position keyOf key es ≠ none := by
  rw [Ne, KeyedList.position_eq_none]
  push Not
  exact exists_congr fun buf => and_congr_left' h.mem_iff

/-- **A key that is there** gets its string in the same place. -/
theorem Packed.run_of_position (h : Packed env es m) (hshort : c.Short)
    (hpos : KeyedList.position keyOf c.key es = some i) :
    ∃ out, c.run env = some out ∧ out.ret = 0
      ∧ Packed out.env (es.set i (entry c.key c.value)) m := by
  obtain ⟨buf, _, hscan⟩ := h.scan_of_position hpos
  have hset := h.set (KeyedList.position_lt hpos) (entry c.key c.value)
  cases c with
  | addEnv k v =>
    refine ⟨added env k v i, ?_, rfl, hset⟩
    rw [Call.key] at hscan
    rw [Call.run, addEnv, hscan]
    exact addEnvAt_eq hshort env i
  | setEnv k v =>
    refine ⟨replaced env k v i, ?_, rfl, hset⟩
    rw [Call.key] at hscan
    rw [Call.run, setEnv, hscan]
    exact setEnvAt_eq hshort env i

/-- **`add_env` of a key that is not there** takes a null pointer. -/
theorem Packed.addEnv_of_none (h : Packed env es (m + 1))
    (hshort : (Call.addEnv k v).Short) (hpos : KeyedList.position keyOf k es = none) :
    ∃ out, addEnv env k v = some out ∧ Packed out.env (es ++ [entry k v]) m := by
  have hscan := h.scan_of_none hpos
  rw [if_neg (Nat.succ_ne_zero m)] at hscan
  refine ⟨added env k v es.length, ?_, h.append (entry k v)⟩
  rw [addEnv, hscan]
  exact addEnvAt_eq hshort env es.length

/-- **`set_env` of a key that is not there** does nothing. -/
theorem Packed.setEnv_of_none (h : Packed env es (m + 1))
    (hpos : KeyedList.position keyOf k es = none) (v : Text) :
    setEnv env k v = some { ret := -1, env := env, writes := [] } := by
  have hscan := h.scan_of_none hpos
  rw [if_neg (Nat.succ_ne_zero m)] at hscan
  rw [setEnv, hscan]

/-- A key that is not there is searched for in vain past a table without a null
pointer. -/
theorem Packed.run_eq_none (h : Packed env es 0)
    (hpos : KeyedList.position keyOf c.key es = none) : c.run env = none := by
  have hscan := h.scan_of_none hpos
  rw [if_pos rfl] at hscan
  cases c with
  | addEnv k v =>
    rw [Call.key] at hscan
    rw [Call.run, addEnv, hscan]
  | setEnv k v =>
    rw [Call.key] at hscan
    rw [Call.run, setEnv, hscan]

/-- A call leaves the table packed. -/
theorem Packed.of_run (h : Packed env es m) (hshort : c.Short) (hrun : c.run env = some out) :
    ∃ es' m', Packed out.env es' m' := by
  cases hpos : KeyedList.position keyOf c.key es with
  | some i =>
    obtain ⟨out', hrun', _, hpacked⟩ := h.run_of_position hshort hpos
    cases hrun.symm.trans hrun'
    exact ⟨_, _, hpacked⟩
  | none =>
    cases m with
    | zero =>
      rw [h.run_eq_none hpos] at hrun
      cases hrun
    | succ m =>
      cases c with
      | addEnv k v =>
        obtain ⟨out', hrun', hpacked⟩ := h.addEnv_of_none hshort hpos
        cases hrun.symm.trans hrun'
        exact ⟨_, _, hpacked⟩
      | setEnv k v =>
        cases hrun.symm.trans (h.setEnv_of_none hpos v)
        exact ⟨_, _, h⟩

/-! ## What `get_env` returns then -/

/-- The table is packed. -/
def PackedTable (s : Option Env) : Prop := ∀ env ∈ s, ∃ es m, Packed env es m

theorem packedTable_construct {environ : List Text} (hshort : ShortStrings environ) :
    PackedTable ((construct environ).map Outcome.env) := by
  obtain ⟨out, es, hout, hpacked⟩ := packed_construct hshort
  rw [hout]
  rintro env ⟨⟩
  exact ⟨es, _, hpacked⟩

end EnvironmentVariable
