import CoinData.EnvironmentLaws

/-!
# The vectors of `execvpe`

A process is launched with two vectors of pointers to strings, each ended by a null
pointer: the table of the environment, and `argv`, an array of 1024 pointers on the
stack that the command and its arguments are copied to. The lengths of both come from
outside, and are not checked.

Every write is recorded here, with the array it goes to. `throughout_wellFormed_iff`
says in which runs all of them go inside, and both vectors are ended: a place has to
be left in the table for the null pointer, and in `argv`; and no value may be set with
`set_env`, which writes behind the string. The strings of the environment are such that
an `int` holds their size.
-/

namespace Executor

open EnvironmentVariable

/-- The size of `argv`. -/
def argvSize : ℕ := 1024

/-- **`argv`**: what has not been written, null pointers, and pointers to what is
written to a string. -/
abbrev Argv := List (Option (Option Text))

/-- The write of a pointer to `argv`. -/
def slot (i : ℕ) : Write := { size := argvSize, start := i, count := 1 }

/-- A pointer to a string. -/
def pointer (str : Text) : Option (Option Text) := some (some (str ++ [nul]))

/-- **`make_cmd_`.** -/
def makeCmd (argv : Argv) (cmd : Text) : Argv × List Write :=
  (argv.set 0 (pointer cmd),
    [slot 0, { size := cmd.length + 1, start := 0, count := cmd.length },
      { size := cmd.length + 1, start := cmd.length, count := 1 }])

/-- The string of an argument, which is allocated and copied; that of an empty one is
written apart. -/
def argWrites (arg : Text) : List Write :=
  if arg = [] then [{ size := 1, start := 0, count := 1 }]
  else
    [{ size := arg.length + 1, start := 0, count := arg.length },
      { size := arg.length + 1, start := arg.length, count := 1 }]

/-- The loop of `make_argv_`, from `argv + base` on. A write behind `argv` changes
nothing of it. -/
def makeArgvFrom (base : ℕ) : List Text → ℕ → Argv → List Write → ℕ × Argv × List Write
  | [], cnt, argv, writes => (cnt, argv, writes)
  | arg :: args, cnt, argv, writes =>
    makeArgvFrom base args (cnt + 1) (argv.set (base + cnt) (pointer arg))
      (writes ++ slot (base + cnt) :: argWrites arg)

/-- **`make_argv_`.** -/
def makeArgv (base : ℕ) (argv : Argv) (args : List Text) : ℕ × Argv × List Write :=
  makeArgvFrom base args 0 argv []

/-- **`launch_proc_`**, up to `execvpe`. -/
def launchProc (cmd : Text) (args : List Text) : Argv × List Write :=
  let made := makeCmd (List.replicate argvSize none) cmd
  let filled := makeArgv 1 made.1 args
  let cnt := 1 + filled.1
  (filled.2.1.set cnt (some none), made.2 ++ filled.2.2 ++ [slot cnt])

/-- A process that was launched. -/
structure Launch where
  cmd : Text
  args : List Text
  argv : Argv

/-- **The vectors**: the table of the environment, none if a call has run past it,
all that was written, and the processes launched. -/
structure Vectors where
  env : Option Env
  writes : List Write
  launched : List Launch

/-- What is requested of an executor and its environment. -/
inductive Request where
  | env (c : Call)
  | execute (cmd : Text) (args : List Text)

/-- The string that is stored is short. -/
def Request.Short : Request → Prop
  | env c => c.Short
  | execute _ _ => True

/-- **What a request does** to the vectors. -/
def nextVectors (s : Vectors) : Request → Vectors
  | .env c =>
    match s.env.bind c.run with
    | some out => { s with env := some out.env, writes := s.writes ++ out.writes }
    | none => { s with env := none }
  | .execute cmd args =>
    if cmd = [] then s
    else
      let launched := launchProc cmd args
      { s with
        writes := s.writes ++ launched.2
        launched := s.launched ++ [{ cmd := cmd, args := args, argv := launched.1 }] }

/-- **An executor**, with the environment of the process. -/
def vectorSystem (environ : List Text) : TransitionSystem Vectors Request where
  init s := s = { env := (construct environ).map Outcome.env,
                  writes := ((construct environ).map Outcome.writes).getD [], launched := [] }
  step s r s' := s' = nextVectors s r

/-- `argv` has room for, and holds, the strings, and a null pointer behind them. -/
def Holds (argv : Argv) (strs : List Text) : Prop :=
  argv.length = argvSize ∧ ∃ rest, argv = strs.map pointer ++ some none :: rest

/-- **Well-formed vectors**: all writes went inside the arrays, both vectors are ended
by a null pointer, and each `argv` holds its command and arguments. -/
structure WellFormed (s : Vectors) : Prop where
  inBounds : ∀ w ∈ s.writes, w.InBounds
  ended : ∃ env, s.env = some env ∧ env.length = maxEnvSize ∧ none ∈ env
  holds : ∀ l ∈ s.launched, Holds l.argv (l.cmd :: l.args)

/-- **What may be requested**: `add_env` of a key that is there, or with two null
pointers left; `set_env` of a key that is not there; and at most 1022 arguments. -/
def Admits (s : Vectors) : Request → Prop
  | .env (.addEnv key _) => ∃ env ∈ s.env, Present env key ∨ 1 < env.count none
  | .env (.setEnv key _) => ∃ env ∈ s.env, ¬ Present env key
  | .execute cmd args => cmd = [] ∨ args.length + 2 ≤ argvSize

variable {env : Env} {es : List Text} {m : ℕ} {c : Call} {out : Outcome} {argv done : Argv}
  {args : List Text} {writes : List Write}

/-! ## The table -/

/-- `add_env` writes a string, and a pointer to it in the table. -/
theorem addEnv_eq {k v : Text} (h : Packed env es m) (hshort : (Call.addEnv k v).Short)
    (hrun : addEnv env k v = some out) : ∃ i < maxEnvSize, out = added env k v i := by
  have hsize := h.size
  have hat := addEnvAt_eq hshort env
  unfold addEnv at hrun
  cases hpos : KeyedList.position keyOf k es with
  | some i =>
    obtain ⟨buf, _, hscan⟩ := h.scan_of_position hpos
    have hlt := KeyedList.position_lt hpos
    rw [hscan] at hrun
    exact ⟨i, by omega, Option.some.inj (hrun.symm.trans (hat i))⟩
  | none =>
    have hscan := h.scan_of_none hpos
    by_cases hm : m = 0
    · rw [hscan, if_pos hm] at hrun
      cases hrun
    · rw [hscan, if_neg hm] at hrun
      exact ⟨es.length, by omega, Option.some.inj (hrun.symm.trans (hat es.length))⟩

theorem added_inBounds {k v : Text} {i : ℕ} (hi : i < maxEnvSize) :
    ∀ w ∈ (added env k v i).writes, w.InBounds := by
  simp only [added, List.forall_mem_cons, List.not_mem_nil, Write.InBounds, Write.slot]
  exact ⟨by omega, by omega, by omega, nofun⟩

/-- **The last write of `set_env`** is behind the string. -/
theorem replaced_not_inBounds (env : Env) (k v : Text) (i : ℕ) :
    ¬ ∀ w ∈ (replaced env k v i).writes, w.InBounds := by
  simp only [replaced, List.forall_mem_cons, List.not_mem_nil, Write.InBounds]
  omega

/-- The constructor writes inside a table that is large enough. -/
theorem loadEnviron_inBounds {environ : List Text} (hshort : ShortStrings environ) {cnt : ℕ}
    (hsize : cnt + environ.length ≤ maxEnvSize) (h : ∀ w ∈ writes, w.InBounds)
    (hload : loadEnviron environ cnt env writes = some out) : ∀ w ∈ out.writes, w.InBounds := by
  induction environ generalizing cnt env writes with
  | nil =>
    cases hload
    exact h
  | cons item environ ih =>
    obtain ⟨hitem, hshort⟩ := List.forall_mem_cons.mp hshort
    rw [List.length_cons] at hsize
    rw [loadEnviron_cons hitem] at hload
    refine ih hshort (by omega) (List.forall_mem_append.mpr ⟨h, ?_⟩) hload
    simp only [List.forall_mem_cons, List.not_mem_nil, Write.InBounds, Write.slot]
    exact ⟨by omega, by omega, by omega, nofun⟩

/-! ## The arguments -/

theorem argWrites_inBounds (arg : Text) : ∀ w ∈ argWrites arg, w.InBounds := by
  unfold argWrites
  split <;> simp [Write.InBounds]

theorem slot_inBounds {i : ℕ} : (slot i).InBounds ↔ i < argvSize := Nat.succ_le_iff

theorem makeArgvFrom_count (base : ℕ) (args : List Text) (cnt : ℕ) (argv : Argv)
    (writes : List Write) : (makeArgvFrom base args cnt argv writes).1 = cnt + args.length := by
  induction args generalizing cnt argv writes with
  | nil => rfl
  | cons arg args ih =>
    rw [makeArgvFrom, ih, List.length_cons]
    omega

/-- **The loop copies the arguments** behind what is there. -/
theorem makeArgvFrom_argv {base cnt r : ℕ} (hcnt : done.length = base + cnt) :
    (makeArgvFrom base args cnt (done ++ List.replicate (args.length + r) none) writes).2.1
      = done ++ args.map pointer ++ List.replicate r none := by
  induction args generalizing done cnt writes with
  | nil => simp [makeArgvFrom]
  | cons arg args ih =>
    have hset : (done ++ List.replicate ((arg :: args).length + r) none).set (base + cnt)
        (pointer arg) = done ++ [pointer arg] ++ List.replicate (args.length + r) none := by
      rw [← hcnt, List.set_append_right _ _ le_rfl, List.length_cons, Nat.add_right_comm,
        List.replicate_succ]
      simp
    rw [makeArgvFrom, hset, ih, List.map_cons]
    · simp
    · rw [List.length_append, List.length_singleton, hcnt]
      rfl

theorem makeArgvFrom_inBounds {base cnt : ℕ} (hsize : base + cnt + args.length ≤ argvSize)
    (h : ∀ w ∈ writes, w.InBounds) :
    ∀ w ∈ (makeArgvFrom base args cnt argv writes).2.2, w.InBounds := by
  induction args generalizing cnt argv writes with
  | nil => exact h
  | cons arg args ih =>
    rw [List.length_cons] at hsize
    refine ih (by omega) (List.forall_mem_append.mpr ⟨h, List.forall_mem_cons.mpr ⟨?_, ?_⟩⟩)
    · exact slot_inBounds.mpr (by omega)
    · exact argWrites_inBounds arg

/-- **What is launched with few enough arguments** holds them. -/
theorem launchProc_holds (cmd : Text) (h : args.length + 2 ≤ argvSize) :
    Holds (launchProc cmd args).1 (cmd :: args)
      ∧ ∀ w ∈ (launchProc cmd args).2, w.InBounds := by
  obtain ⟨r, hr⟩ : ∃ r, argvSize = args.length + (r + 1) + 1 :=
    ⟨argvSize - args.length - 2, by omega⟩
  have hcmd : (makeCmd (List.replicate argvSize none) cmd).1
      = [pointer cmd] ++ List.replicate (args.length + (r + 1)) none := by
    rw [makeCmd, hr, List.replicate_succ]
    rfl
  have hargv : (launchProc cmd args).1
      = (cmd :: args).map pointer ++ some none :: List.replicate r none := by
    have hlen : ([pointer cmd] ++ args.map pointer).length = 1 + args.length := by
      rw [List.length_append, List.length_map]
      rfl
    rw [launchProc, makeArgv, hcmd, makeArgvFrom_count, makeArgvFrom_argv rfl, Nat.zero_add,
      ← hlen, List.set_append_right _ _ le_rfl, Nat.sub_self, List.replicate_succ]
    rfl
  refine ⟨⟨?_, _, hargv⟩, ?_⟩
  · rw [hargv, hr]
    simp only [List.length_append, List.length_map, List.length_cons, List.length_replicate]
    omega
  · rw [launchProc, List.forall_mem_append, List.forall_mem_append]
    refine ⟨⟨?_, ?_⟩, ?_⟩
    · simp only [makeCmd, List.forall_mem_cons, List.not_mem_nil, Write.InBounds, slot]
      exact ⟨by decide, by omega, by omega, nofun⟩
    · exact makeArgvFrom_inBounds (by omega) nofun
    · rw [List.forall_mem_singleton, makeArgv, makeArgvFrom_count, slot_inBounds]
      omega

/-- **The null pointer behind too many arguments** is written behind `argv`. -/
theorem launchProc_not_inBounds {cmd : Text} (h : argvSize < args.length + 2) :
    ¬ ∀ w ∈ (launchProc cmd args).2, w.InBounds := by
  intro hall
  rw [launchProc, List.forall_mem_append] at hall
  have hlast := hall.2
  rw [List.forall_mem_singleton, makeArgv, makeArgvFrom_count, slot_inBounds] at hlast
  omega

/-! ## Runs -/

/-- The table is packed. -/
def PackedEnv (s : Vectors) : Prop := PackedTable s.env

theorem packedEnv_init {environ : List Text} (hshort : ShortStrings environ) {s : Vectors}
    (hinit : (vectorSystem environ).init s) : PackedEnv s := by
  obtain rfl := hinit
  exact packedTable_construct hshort

theorem packedEnv_nextVectors {s : Vectors} {r : Request} (h : PackedEnv s)
    (hshort : r.Short) : PackedEnv (nextVectors s r) := by
  cases r with
  | env c =>
    rw [nextVectors]
    cases hrun : s.env.bind c.run with
    | none => exact fun env henv => by cases henv
    | some out =>
      rintro env ⟨⟩
      obtain ⟨env, henv, hrun⟩ := Option.bind_eq_some_iff.mp hrun
      obtain ⟨es, m, hpacked⟩ := h env henv
      exact hpacked.of_run hshort hrun
  | execute cmd args =>
    rw [nextVectors]
    by_cases hcmd : cmd = []
    · rw [if_pos hcmd]
      exact h
    · rw [if_neg hcmd]
      exact h

/-- What a call does to vectors with a table. -/
theorem nextVectors_env {s : Vectors} (henv : s.env = some env) (hrun : c.run env = some out) :
    nextVectors s (.env c)
      = { s with env := some out.env, writes := s.writes ++ out.writes } := by
  rw [nextVectors, henv, Option.bind_some, hrun]

/-- **A call leaves well-formed vectors well-formed** exactly if it is admitted. -/
theorem wellFormed_nextVectors_env {s : Vectors} (hw : WellFormed s) (hp : PackedEnv s)
    (hshort : c.Short) : WellFormed (nextVectors s (.env c)) ↔ Admits s (.env c) := by
  obtain ⟨env, henv, _, hnone⟩ := hw.ended
  obtain ⟨es, m, hpacked⟩ := hp env henv
  obtain ⟨m, rfl⟩ : ∃ n, m = n + 1 :=
    Nat.exists_eq_succ_of_ne_zero (Nat.pos_iff_ne_zero.mp (hpacked.none_mem_iff.mp hnone))
  have hnext : ∀ {out m'} {es' : List Text}, c.run env = some out → Packed out.env es' m' →
      (WellFormed (nextVectors s (.env c)) ↔ (∀ w ∈ out.writes, w.InBounds) ∧ 0 < m') := by
    intro out m' es' hrun hpacked'
    rw [nextVectors_env henv hrun]
    constructor
    · intro hw'
      obtain ⟨_, ⟨⟩, _, hnone'⟩ := hw'.ended
      exact ⟨(List.forall_mem_append.mp hw'.inBounds).2, hpacked'.none_mem_iff.mp hnone'⟩
    · rintro ⟨hout, hm'⟩
      exact ⟨List.forall_mem_append.mpr ⟨hw.inBounds, hout⟩,
        ⟨_, rfl, hpacked'.length_eq, hpacked'.none_mem_iff.mpr hm'⟩, hw.holds⟩
  have hpresent : ∀ key, Present env key ↔ KeyedList.position keyOf key es ≠ none :=
    fun key => hpacked.present_iff
  cases c with
  | addEnv k v =>
    have hadmits : Admits s (.env (.addEnv k v)) ↔ Present env k ∨ 0 < m := by
      rw [Admits, henv]
      simp only [Option.mem_some_iff, exists_eq_left', hpacked.count_none]
      rw [Nat.lt_add_left_iff_pos]
    rw [hadmits, hpresent]
    cases hpos : KeyedList.position keyOf k es with
    | some i =>
      obtain ⟨out, hrun, _, hpacked'⟩ := hpacked.run_of_position (c := .addEnv k v) hshort hpos
      obtain ⟨j, hj, rfl⟩ := addEnv_eq hpacked hshort hrun
      rw [hnext hrun hpacked']
      exact iff_of_true ⟨added_inBounds hj, m.succ_pos⟩ (Or.inl (Option.some_ne_none i))
    | none =>
      obtain ⟨out, hrun, hpacked'⟩ := hpacked.addEnv_of_none hshort hpos
      obtain ⟨j, hj, rfl⟩ := addEnv_eq hpacked hshort hrun
      rw [hnext hrun hpacked', and_iff_right (added_inBounds hj),
        or_iff_right (not_not.mpr rfl)]
  | setEnv k v =>
    have hadmits : Admits s (.env (.setEnv k v)) ↔ ¬ Present env k := by
      rw [Admits, henv]
      simp only [Option.mem_some_iff, exists_eq_left']
    rw [hadmits, hpresent]
    cases hpos : KeyedList.position keyOf k es with
    | some i =>
      obtain ⟨out, hrun, _, hpacked'⟩ := hpacked.run_of_position (c := .setEnv k v) hshort hpos
      obtain ⟨buf, _, hscan⟩ := hpacked.scan_of_position hpos
      have hout : setEnv env k v = some (replaced env k v i) := by
        rw [setEnv, hscan]
        exact setEnvAt_eq hshort env i
      cases hrun.symm.trans hout
      rw [hnext hrun hpacked']
      exact iff_of_false (fun h => replaced_not_inBounds env k v i h.1)
        (not_not.mpr (Option.some_ne_none i))
    | none =>
      have hrun : Call.run env (.setEnv k v) = some _ := hpacked.setEnv_of_none hpos v
      rw [hnext hrun hpacked]
      exact iff_of_true ⟨List.forall_mem_nil _, m.succ_pos⟩ (not_not.mpr rfl)

/-- **A launch leaves well-formed vectors well-formed** exactly if it is admitted. -/
theorem wellFormed_nextVectors_execute {s : Vectors} (hw : WellFormed s) (cmd : Text)
    (args : List Text) :
    WellFormed (nextVectors s (.execute cmd args)) ↔ Admits s (.execute cmd args) := by
  rw [nextVectors, Admits]
  by_cases hcmd : cmd = []
  · rw [if_pos hcmd]
    exact iff_of_true hw (Or.inl hcmd)
  · rw [if_neg hcmd, or_iff_right hcmd]
    constructor
    · intro hw'
      by_contra hlt
      exact launchProc_not_inBounds (not_le.mp hlt) (List.forall_mem_append.mp hw'.inBounds).2
    · intro hle
      obtain ⟨hholds, hbounds⟩ := launchProc_holds cmd hle
      exact ⟨List.forall_mem_append.mpr ⟨hw.inBounds, hbounds⟩, hw.ended,
        List.forall_mem_append.mpr ⟨hw.holds, List.forall_mem_singleton.mpr hholds⟩⟩

theorem wellFormed_nextVectors {s : Vectors} {r : Request} (hw : WellFormed s)
    (hp : PackedEnv s) (hshort : r.Short) : WellFormed (nextVectors s r) ↔ Admits s r := by
  cases r with
  | env c => exact wellFormed_nextVectors_env hw hp hshort
  | execute cmd args => exact wellFormed_nextVectors_execute hw cmd args

/-- **The vectors are well-formed at first** exactly if there is a place left behind
`environ`. -/
theorem wellFormed_init {environ : List Text} (hshort : ShortStrings environ) {s : Vectors}
    (hinit : (vectorSystem environ).init s) : WellFormed s ↔ environ.length < maxEnvSize := by
  obtain ⟨out, es, hout, hpacked⟩ := packed_construct hshort
  obtain rfl : s = { env := some out.env, writes := out.writes, launched := [] } := by
    have heq := hinit
    simp only [vectorSystem, hout] at heq
    exact heq
  constructor
  · intro hw
    obtain ⟨_, ⟨⟩, _, hnone⟩ := hw.ended
    have hpos := hpacked.none_mem_iff.mp hnone
    omega
  · intro hlt
    refine ⟨?_, ⟨_, rfl, hpacked.length_eq, hpacked.none_mem_iff.mpr (by omega)⟩, nofun⟩
    exact loadEnviron_inBounds hshort (by omega) (List.forall_mem_nil _) hout

/-- **The vectors are well-formed throughout a run** of short strings exactly if there is
a place left behind `environ`, and all its requests are admitted. -/
theorem throughout_wellFormed_iff {environ : List Text} (henviron : ShortStrings environ)
    {tr : List (Vectors × Request)} {s : Vectors} (hr : (vectorSystem environ).Run tr s)
    (hshort : TransitionSystem.Met (fun _ r => r.Short) tr) :
    TransitionSystem.Throughout WellFormed tr s
      ↔ environ.length < maxEnvSize ∧ TransitionSystem.Met Admits tr := by
  have hruns : environ.length < maxEnvSize →
      (TransitionSystem.Throughout WellFormed tr s ↔ TransitionSystem.Met Admits tr) := by
    intro hlt
    refine (hr.restrict hshort).forall_iff (J := PackedEnv) ?_ ?_ ?_
    · intro s hinit
      exact ⟨(wellFormed_init henviron hinit).mpr hlt, packedEnv_init henviron hinit⟩
    · rintro s r _ hw hp ⟨hshort, rfl⟩ hadmits
      exact ⟨(wellFormed_nextVectors hw hp hshort).mpr hadmits, packedEnv_nextVectors hp hshort⟩
    · rintro s r _ hw hp ⟨hshort, rfl⟩ hadmits hw'
      exact hadmits ((wellFormed_nextVectors hw hp hshort).mp hw')
  constructor
  · intro h
    obtain ⟨_, hs, hinit⟩ := hr.exists_init_of_throughout h
    have hlt := (wellFormed_init henviron hs).mp hinit
    exact ⟨hlt, (hruns hlt).mp h⟩
  · exact fun h => (hruns h.1).mpr h.2

/-- A variable is added, and a command is executed. -/
theorem throughout_wellFormed_execute : ∃ (tr : List (Vectors × Request)) (s : Vectors),
    tr.map Prod.snd = [.execute "ls".toList [], .env (.addEnv "A".toList "1".toList)]
      ∧ TransitionSystem.Throughout WellFormed tr s := by
  refine ⟨[(_, _), (_, _)], _, rfl, (throughout_wellFormed_iff (List.forall_mem_nil _)
    (.snoc (.snoc (.start rfl) rfl) rfl) ?_).mpr ⟨by decide, ?_⟩⟩
  · have hadd : (Call.addEnv "A".toList "1".toList).Short := by decide
    refine (TransitionSystem.met_cons _ _ _ _).mpr ⟨trivial, ?_⟩
    exact (TransitionSystem.met_cons _ _ _ _).mpr ⟨hadd, TransitionSystem.met_nil _⟩
  · refine (TransitionSystem.met_cons _ _ _ _).mpr ⟨Or.inr (by decide), ?_⟩
    refine (TransitionSystem.met_cons _ _ _ _).mpr ⟨?_, TransitionSystem.met_nil _⟩
    refine ⟨List.replicate maxEnvSize none, rfl, Or.inr ?_⟩
    rw [List.count_replicate_self]
    decide

/-- `set_env` of a variable of the process writes behind its string. -/
theorem throughout_wellFormed_false : ¬ ∀ (environ : List Text)
    (tr : List (Vectors × Request)) (s : Vectors), (vectorSystem environ).Run tr s →
      TransitionSystem.Throughout WellFormed tr s := by
  intro h
  have hshort : ShortStrings ["A=1".toList] := by
    rw [ShortStrings, List.forall_mem_singleton]
    decide
  have hset : (Request.env (.setEnv "A".toList "2".toList)).Short := by
    rw [Request.Short]
    decide
  have hstart : (vectorSystem ["A=1".toList]).init _ := rfl
  have hrun : (vectorSystem ["A=1".toList]).Run
      [(_, .env (.setEnv "A".toList "2".toList))] _ := .snoc (.start hstart) rfl
  have hw := (h _ _ _ hrun).1
  have hlen : ["A=1".toList].length < maxEnvSize := by decide
  have hinit := (wellFormed_init hshort hstart).mpr hlen
  obtain ⟨env, henv, habsent⟩ :=
    (wellFormed_nextVectors hinit (packedEnv_init hshort hstart) hset).mp hw
  have hload : ∀ env, (loadEnviron ["A=1".toList] 0 env []).map Outcome.env
      = some (env.set 0 (some ("A=1".toList ++ [nul]))) := by
    intro env
    rw [loadEnviron_cons (hshort _ List.mem_cons_self)]
    rfl
  rw [Option.mem_def, construct, hload] at henv
  cases henv
  exact habsent ⟨"A=1".toList ++ [nul], List.mem_cons_self, by decide⟩

end Executor
