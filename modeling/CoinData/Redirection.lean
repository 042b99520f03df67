import CoinData.Runs
import Mathlib.Logic.Function.Basic

/-!
# Subscribers that can be redirected

A `MutableSubscriber` is told from outside which topic it is to take its
messages from, and from inside which callback they go to; either may come
first, and either may change. What it is bound to is spread over three
fields: the subscriber it has at the moment, the topic it was told last, and
the callback.

`disconnect` gives up the subscriber, but keeps the topic. So a callback
that is set later subscribes to it again.
-/

/-- A subscriber of the channel: its `name_` and its `cb_`, which may be
null. -/
structure LocalSubscription (κ : Type) where
  name : String
  cb : Option κ
deriving DecidableEq, Repr

/-- **A `MutableSubscriber`**, with the subscribers that were made for it: the
channel has weak pointers to them, so that one is there as long as
`subscriber_` points to it. -/
structure MutableSubscriber (κ : Type) where
  subscriber : Option ℕ
  subName : String
  subCallback : Option κ
  alive : ℕ → Option (LocalSubscription κ)
  next : ℕ

/-- What is done with a `MutableSubscriber`. -/
inductive MutableCall (κ : Type) where
  | redirect (name : String)
  | disconnect
  | setSubCallback (cb : Option κ)
deriving DecidableEq, Repr

/-- Topics have a name, and callbacks are not null. -/
def MutableCall.Valid {κ : Type} : MutableCall κ → Prop
  | .redirect name => name ≠ ""
  | .disconnect => True
  | .setSubCallback cb => cb ≠ none

instance {κ : Type} : (l : MutableCall κ) → Decidable l.Valid
  | .redirect name => inferInstanceAs (Decidable (name ≠ ""))
  | .disconnect => inferInstanceAs (Decidable True)
  | .setSubCallback cb => decidable_of_iff (cb.isSome = true) Option.isSome_iff_ne_none

namespace MutableSubscriber

variable {κ : Type}

/-- The constructor. -/
def new (cb : Option κ) : MutableSubscriber κ where
  subscriber := none
  subName := ""
  subCallback := cb
  alive _ := none
  next := 0

/-- `subscriber_.reset()`, which destroys what it pointed to. -/
def resetSubscriber (s : MutableSubscriber κ) : MutableSubscriber κ :=
  match s.subscriber with
  | none => s
  | some i => { s with subscriber := none, alive := Function.update s.alive i none }

/-- `subscriber_ = Communicator::subscriber(name, cb)`. The new subscriber is
made before the old one is destroyed. -/
def assignSubscriber (s : MutableSubscriber κ) (name : String) (cb : Option κ) :
    MutableSubscriber κ :=
  let i := s.next
  let alive := Function.update s.alive i (some ⟨name, cb⟩)
  let s := { s with alive := alive, next := i + 1 }
  { s.resetSubscriber with subscriber := some i }

/-- `set_sub_callback`. -/
def setSubCallback (s : MutableSubscriber κ) (cb : Option κ) : MutableSubscriber κ :=
  let s := { s with subCallback := cb }
  if s.subName ≠ "" then s.assignSubscriber s.subName s.subCallback else s

/-- `redirect`. -/
def redirect (s : MutableSubscriber κ) (name : String) : MutableSubscriber κ :=
  let s := { s with subName := name }
  if s.subCallback.isSome then s.resetSubscriber.assignSubscriber name s.subCallback else s

/-- `disconnect`. -/
def disconnect (s : MutableSubscriber κ) : MutableSubscriber κ := s.resetSubscriber

/-- `target_name`. -/
def targetName (s : MutableSubscriber κ) : String :=
  ((s.subscriber.bind s.alive).map LocalSubscription.name).getD ""

/-- **A call.** -/
def run (s : MutableSubscriber κ) : MutableCall κ → MutableSubscriber κ
  | .redirect name => s.redirect name
  | .disconnect => s.disconnect
  | .setSubCallback cb => s.setSubCallback cb

/-- **The topics it is subscribed to.** -/
def topics (s : MutableSubscriber κ) : Set String :=
  {name | ∃ i cb, s.alive i = some ⟨name, cb⟩}

end MutableSubscriber

/-! ## Requests -/

/-- A request to redirect a communicator. -/
structure MutableServerReq where
  commId : String
  targetName : String

/-- The answer. -/
structure MutableServerAck where
  isOk : Bool
  msg : String
deriving DecidableEq

/-- **`mutable_communicator_service_callback_`**, where the communicators
that are registered are given by their ids. -/
def mutableCommunicatorServiceCallback {κ : Type}
    (mutableCommunicator : String → Option (MutableSubscriber κ)) (req : MutableServerReq) :
    MutableServerAck × (String → Option (MutableSubscriber κ)) :=
  match mutableCommunicator req.commId with
  | none => (⟨false, "communicator <" ++ req.commId ++ "> is not exist."⟩, mutableCommunicator)
  | some s =>
    if req.targetName = "" then
      (⟨true, "disconnect."⟩, Function.update mutableCommunicator req.commId (some s.disconnect))
    else
      (⟨true, "redirect to <" ++ req.targetName ++ ">."⟩,
        Function.update mutableCommunicator req.commId (some (s.redirect req.targetName)))

/-- **What a request does** is a valid call of the communicator it names, and
nothing to the others. -/
theorem mutableCommunicatorServiceCallback_spec {κ : Type}
    (mutableCommunicator : String → Option (MutableSubscriber κ)) (req : MutableServerReq)
    {s : MutableSubscriber κ} (hs : mutableCommunicator req.commId = some s) :
    ∃ l : MutableCall κ, l.Valid
      ∧ (mutableCommunicatorServiceCallback mutableCommunicator req).1.isOk = true
      ∧ (mutableCommunicatorServiceCallback mutableCommunicator req).2
        = Function.update mutableCommunicator req.commId (some (s.run l)) := by
  unfold mutableCommunicatorServiceCallback
  rw [hs]
  dsimp only
  by_cases hname : req.targetName = ""
  · rw [if_pos hname]
    exact ⟨.disconnect, trivial, rfl, rfl⟩
  · rw [if_neg hname]
    exact ⟨.redirect req.targetName, hname, rfl, rfl⟩

/-- **Any calls**, with or without an initial callback. -/
def mutableSubscriberSystem {κ : Type} (cb : Option κ) :
    TransitionSystem (MutableSubscriber κ) (MutableCall κ) where
  init s := s = MutableSubscriber.new cb
  step s l s' := l.Valid ∧ s' = s.run l

/-! ## What was asked for

The calls are given with the latest first. -/

namespace MutableCall

variable {κ : Type}

/-- The topic of the last of the `redirect` and `disconnect` calls. -/
def asked : List (MutableCall κ) → Option String
  | [] => none
  | .redirect name :: _ => some name
  | .disconnect :: _ => none
  | .setSubCallback _ :: ls => asked ls

/-- The last callback. -/
def lastCallback (cb : Option κ) : List (MutableCall κ) → Option κ
  | [] => cb
  | .setSubCallback cb :: _ => cb
  | _ :: ls => lastCallback cb ls

/-- The topic of the last `redirect`. -/
def lastTopic : List (MutableCall κ) → Option String
  | [] => none
  | .redirect name :: _ => some name
  | _ :: ls => lastTopic ls

/-- **A callback that was set after it was disconnected**: the last of the
`redirect` and `disconnect` calls is a `disconnect`, there was a `redirect`
before, and a callback has been set since. -/
def SetLate : List (MutableCall κ) → Prop
  | .setSubCallback _ :: ls => asked ls = none ∧ lastTopic ls ≠ none
  | _ => False

end MutableCall

/-- **It is subscribed as it was asked to be**: to the topic of the last
`redirect`, if it was not disconnected since and has a callback, and to
nothing otherwise. -/
def MutableSubscriber.AsAsked {κ : Type} (s : MutableSubscriber κ) (cb : Option κ)
    (ls : List (MutableCall κ)) : Prop :=
  ∀ name, name ∈ s.topics ↔
    MutableCall.lastCallback cb ls ≠ none ∧ MutableCall.asked ls = some name

namespace MutableCall

variable {κ : Type} {cb : Option κ} {ls : List (MutableCall κ)} {l : MutableCall κ}

instance : (ls : List (MutableCall κ)) → Decidable (SetLate ls)
  | .setSubCallback _ :: ls =>
    inferInstanceAs (Decidable (asked ls = none ∧ lastTopic ls ≠ none))
  | [] | .redirect _ :: _ | .disconnect :: _ => inferInstanceAs (Decidable False)

/-- A topic that was asked for is the last one. -/
theorem lastTopic_of_asked {name : String} (h : asked ls = some name) :
    lastTopic ls = some name := by
  induction ls with
  | nil => cases h
  | cons l ls ih =>
    cases l with
    | redirect name' => exact h
    | disconnect => cases h
    | setSubCallback cb => exact ih h

/-- The topic of a valid call has a name. -/
theorem lastTopic_ne (hls : ∀ l ∈ ls, l.Valid) : lastTopic ls ≠ some "" := by
  induction ls with
  | nil => nofun
  | cons l ls ih =>
    obtain ⟨hl, hls'⟩ := List.forall_mem_cons.mp hls
    cases l with
    | redirect name => exact fun heq => hl (Option.some.inj heq)
    | disconnect => exact ih hls'
    | setSubCallback cb => exact ih hls'

/-- **What it is bound to**, after the calls. -/
def bound (cb : Option κ) (ls : List (MutableCall κ)) : Option String :=
  if (lastCallback cb ls).isNone then none else if SetLate ls then lastTopic ls else asked ls

theorem bound_of_lastCallback (h : lastCallback cb ls = none) : bound cb ls = none := by
  unfold bound
  rw [if_pos (Option.isNone_iff_eq_none.mpr h)]

theorem bound_redirect {name : String} (h : lastCallback cb ls ≠ none) :
    bound cb (.redirect name :: ls) = some name := by
  have hsome : ¬ (lastCallback cb (.redirect name :: ls)).isNone :=
    fun hnone => h (Option.isNone_iff_eq_none.mp hnone)
  unfold bound
  rw [if_neg hsome]
  exact if_neg id

theorem bound_disconnect : bound cb (.disconnect :: ls) = none := by
  unfold bound
  split
  · rfl
  · exact if_neg id

/-- It is bound to nothing, if there was no topic. -/
theorem bound_of_lastTopic (h : lastTopic ls = none) : bound cb ls = none := by
  have hasked : asked ls = none := by
    cases ha : asked ls with
    | none => rfl
    | some name =>
      rw [lastTopic_of_asked ha] at h
      cases h
  unfold bound
  rw [h, hasked, ite_self, ite_self]

/-- **After a callback is set**, it is bound to the last topic. -/
theorem bound_setSubCallback {cb' : Option κ} (hcb' : cb' ≠ none) :
    bound cb (.setSubCallback cb' :: ls) = lastTopic ls := by
  have hsome : ¬ (lastCallback cb (.setSubCallback cb' :: ls)).isNone :=
    fun h => hcb' (Option.isNone_iff_eq_none.mp h)
  unfold bound
  rw [if_neg hsome]
  split
  · rfl
  · next hlate =>
    show asked ls = lastTopic ls
    cases ha : asked ls with
    | some name => exact (lastTopic_of_asked ha).symm
    | none =>
      by_contra hne
      exact hlate ⟨ha, Ne.symm hne⟩

/-- **It is bound to what was asked for** exactly if no callback was set
late. -/
theorem bound_eq_iff (hls : ∀ l ∈ ls, l.Valid) :
    (∀ name, bound cb ls = some name ↔ lastCallback cb ls ≠ none ∧ asked ls = some name)
      ↔ ¬ SetLate ls := by
  unfold bound
  cases hcb : lastCallback cb ls with
  | none =>
    refine iff_of_true (fun name => iff_of_false nofun fun h => h.1 rfl) fun hlate => ?_
    cases ls with
    | nil => exact hlate
    | cons l ls =>
      cases l with
      | redirect name => exact hlate
      | disconnect => exact hlate
      | setSubCallback cb' =>
        exact (List.forall_mem_cons.mp hls).1 hcb
  | some c =>
    rw [if_neg (by exact Bool.false_ne_true)]
    by_cases hlate : SetLate ls
    · rw [if_pos hlate]
      refine iff_of_false (fun h => ?_) (not_not.mpr hlate)
      cases ls with
      | nil => exact hlate
      | cons l ls =>
        cases l with
        | redirect name => exact hlate
        | disconnect => exact hlate
        | setSubCallback cb' =>
          obtain ⟨name, hname⟩ := Option.ne_none_iff_exists'.mp hlate.2
          have hasked : asked ls = some name := ((h name).mp hname).2
          rw [hlate.1] at hasked
          cases hasked
    · rw [if_neg hlate]
      exact iff_of_true (fun name => (and_iff_right (Option.some_ne_none c)).symm) hlate

end MutableCall

namespace MutableSubscriber

open MutableCall

variable {κ : Type} {s : MutableSubscriber κ} {cb : Option κ} {name : String}

/-! ## The subscriber it has -/

/-- **It has one subscriber, or none**: no other is there. -/
structure Owns (s : MutableSubscriber κ) (sub : Option (LocalSubscription κ)) : Prop where
  alive : ∀ i, s.alive i = if s.subscriber = some i then sub else none
  null : s.subscriber = none → sub = none
  made : ∀ i, s.subscriber = some i → i < s.next

theorem Owns.new (cb : Option κ) : (new cb).Owns none where
  alive _ := (ite_self _).symm
  null _ := rfl
  made := nofun

/-- **Resetting `subscriber_`** leaves none. -/
theorem Owns.resetSubscriber {sub : Option (LocalSubscription κ)} (h : s.Owns sub) :
    s.resetSubscriber.Owns none := by
  unfold MutableSubscriber.resetSubscriber
  cases hs : s.subscriber with
  | none => exact ⟨fun i => by rw [h.alive i, h.null hs], fun _ => rfl, h.made⟩
  | some i =>
    refine ⟨fun j => ?_, fun _ => rfl, nofun⟩
    rw [ite_self]
    show Function.update s.alive i none j = none
    by_cases hj : j = i
    · rw [hj, Function.update_self]
    · rw [Function.update_of_ne hj, h.alive j, hs, if_neg]
      exact fun heq => hj (Option.some.inj heq).symm

/-- **Assigning to `subscriber_`** leaves the new one. -/
theorem Owns.assignSubscriber {sub : Option (LocalSubscription κ)} (h : s.Owns sub)
    (name : String) (cb : Option κ) : (s.assignSubscriber name cb).Owns (some ⟨name, cb⟩) := by
  have hnew : (s.assignSubscriber name cb).subscriber = some s.next := rfl
  have hnext : (s.assignSubscriber name cb).next = s.next + 1 := by
    unfold MutableSubscriber.assignSubscriber MutableSubscriber.resetSubscriber
    cases hs : s.subscriber <;> rfl
  refine ⟨fun i => ?_, fun hnone => ?_, fun i hi => ?_⟩
  · rw [hnew]
    unfold MutableSubscriber.assignSubscriber MutableSubscriber.resetSubscriber
    cases hs : s.subscriber with
    | none =>
      show Function.update s.alive s.next _ i = _
      by_cases hi : i = s.next
      · rw [hi, Function.update_self, if_pos rfl]
      · rw [Function.update_of_ne hi, h.alive i, h.null hs, ite_self,
          if_neg fun heq => hi (Option.some.inj heq).symm]
    | some j =>
      show Function.update (Function.update s.alive s.next _) j none i = _
      have hlt : j < s.next := h.made j hs
      by_cases hj : i = j
      · rw [hj, Function.update_self,
          if_neg fun heq => (Nat.ne_of_lt hlt).symm (Option.some.inj heq)]
      · rw [Function.update_of_ne hj]
        by_cases hi : i = s.next
        · rw [hi, Function.update_self, if_pos rfl]
        · rw [Function.update_of_ne hi, h.alive i, hs,
            if_neg fun heq => hj (Option.some.inj heq).symm,
            if_neg fun heq => hi (Option.some.inj heq).symm]
  · rw [hnew] at hnone
    cases hnone
  · rw [hnew] at hi
    cases hi
    rw [hnext]
    exact Nat.lt_succ_self _

/-- **The topics it is subscribed to** are that of its subscriber. -/
theorem Owns.mem_topics {sub : Option (LocalSubscription κ)} (h : s.Owns sub) :
    name ∈ s.topics ↔ sub.map LocalSubscription.name = some name := by
  constructor
  · rintro ⟨i, cb, hi⟩
    rw [h.alive i] at hi
    split at hi
    · rw [hi]
      rfl
    · cases hi
  · intro hsub
    obtain ⟨c, rfl, rfl⟩ := Option.map_eq_some_iff.mp hsub
    cases hs : s.subscriber with
    | none => cases h.null hs
    | some i => exact ⟨i, c.cb, by rw [h.alive i, hs, if_pos rfl]⟩

/-- `target_name` is the topic of its subscriber. -/
theorem Owns.targetName_eq {sub : Option (LocalSubscription κ)} (h : s.Owns sub) :
    s.targetName = (sub.map LocalSubscription.name).getD "" := by
  unfold targetName
  cases hs : s.subscriber with
  | none => rw [h.null hs]; rfl
  | some i => rw [Option.bind_some, h.alive i, hs, if_pos rfl]

/-! ## The invariant -/

/-- **The fields after the calls.** -/
structure Inv (s : MutableSubscriber κ) (cb : Option κ) (ls : List (MutableCall κ)) : Prop where
  subCallback : s.subCallback = lastCallback cb ls
  subName : s.subName = (lastTopic ls).getD ""
  owns : ∃ sub, s.Owns sub ∧ sub.map LocalSubscription.name = bound cb ls
  valid : ∀ l ∈ ls, l.Valid

theorem resetSubscriber_fields (s : MutableSubscriber κ) :
    s.resetSubscriber.subCallback = s.subCallback ∧ s.resetSubscriber.subName = s.subName := by
  unfold resetSubscriber
  cases s.subscriber <;> exact ⟨rfl, rfl⟩

theorem assignSubscriber_fields (s : MutableSubscriber κ) (name : String) (cb : Option κ) :
    (s.assignSubscriber name cb).subCallback = s.subCallback
      ∧ (s.assignSubscriber name cb).subName = s.subName :=
  resetSubscriber_fields { s with alive := Function.update s.alive s.next (some ⟨name, cb⟩)
                                  next := s.next + 1 }

/-- `redirect` keeps the invariant. -/
theorem Inv.redirect {ls : List (MutableCall κ)} (h : s.Inv cb ls) (hname : name ≠ "") :
    (s.redirect name).Inv cb (.redirect name :: ls) := by
  have hvalid : ∀ l ∈ MutableCall.redirect name :: ls, l.Valid :=
    List.forall_mem_cons.mpr ⟨hname, h.valid⟩
  obtain ⟨sub, howns, hsub⟩ := h.owns
  have howns' : ({ s with subName := name } : MutableSubscriber κ).Owns sub :=
    ⟨howns.alive, howns.null, howns.made⟩
  have hlast : lastCallback cb (.redirect name :: ls) = lastCallback cb ls := rfl
  unfold MutableSubscriber.redirect
  dsimp only
  split
  · next hcb =>
    obtain ⟨hcb₁, hname₁⟩ := resetSubscriber_fields { s with subName := name }
    obtain ⟨hcb₂, hname₂⟩ := assignSubscriber_fields
      ({ s with subName := name } : MutableSubscriber κ).resetSubscriber name s.subCallback
    refine ⟨?_, ?_, ⟨_, howns'.resetSubscriber.assignSubscriber name s.subCallback, ?_⟩, hvalid⟩
    · rw [hcb₂, hcb₁, hlast, ← h.subCallback]
    · rw [hname₂, hname₁]
      rfl
    · rw [bound_redirect]
      · rfl
      · rw [← h.subCallback]
        exact Option.isSome_iff_ne_none.mp hcb
  · next hcb =>
    have hnone : lastCallback cb ls = none := by
      rw [← h.subCallback]
      exact Option.not_isSome_iff_eq_none.mp hcb
    refine ⟨h.subCallback, rfl, ⟨sub, howns', ?_⟩, hvalid⟩
    rw [hsub, bound_of_lastCallback hnone, bound_of_lastCallback (hlast.trans hnone)]

/-- `disconnect` keeps the invariant. -/
theorem Inv.disconnect {ls : List (MutableCall κ)} (h : s.Inv cb ls) :
    s.disconnect.Inv cb (.disconnect :: ls) := by
  obtain ⟨sub, howns, _⟩ := h.owns
  obtain ⟨hcb, hname⟩ := resetSubscriber_fields s
  exact ⟨hcb.trans h.subCallback, hname.trans h.subName,
    ⟨none, howns.resetSubscriber, bound_disconnect.symm⟩,
    List.forall_mem_cons.mpr ⟨trivial, h.valid⟩⟩

/-- `set_sub_callback` keeps the invariant. -/
theorem Inv.setSubCallback {ls : List (MutableCall κ)} (h : s.Inv cb ls) {cb' : Option κ}
    (hcb' : cb' ≠ none) : (s.setSubCallback cb').Inv cb (.setSubCallback cb' :: ls) := by
  have hvalid : ∀ l ∈ MutableCall.setSubCallback cb' :: ls, l.Valid :=
    List.forall_mem_cons.mpr ⟨hcb', h.valid⟩
  obtain ⟨sub, howns, hsub⟩ := h.owns
  have howns' : ({ s with subCallback := cb' } : MutableSubscriber κ).Owns sub :=
    ⟨howns.alive, howns.null, howns.made⟩
  unfold MutableSubscriber.setSubCallback
  dsimp only
  cases htopic : lastTopic ls with
  | none =>
    have hname : s.subName = "" := by
      rw [h.subName, htopic]
      rfl
    rw [if_neg (not_not.mpr hname)]
    refine ⟨rfl, h.subName, ⟨sub, howns', ?_⟩, hvalid⟩
    rw [hsub, bound_of_lastTopic htopic, bound_setSubCallback hcb', htopic]
  | some name =>
    have hname : s.subName = name := by
      rw [h.subName, htopic]
      rfl
    have hne : s.subName ≠ "" := by
      intro hempty
      rw [← hname, hempty] at htopic
      exact lastTopic_ne h.valid htopic
    rw [if_pos hne]
    obtain ⟨hcb₁, hname₁⟩ := assignSubscriber_fields
      ({ s with subCallback := cb' } : MutableSubscriber κ) s.subName cb'
    refine ⟨hcb₁, hname₁.trans h.subName, ⟨_, howns'.assignSubscriber s.subName cb', ?_⟩, hvalid⟩
    rw [bound_setSubCallback hcb', htopic, ← hname]
    rfl

open TransitionSystem

theorem inv_of_run {tr : List (MutableSubscriber κ × MutableCall κ)}
    (hr : (mutableSubscriberSystem cb).Run tr s) : s.Inv cb (tr.map Prod.snd) := by
  induction hr with
  | start hi =>
    cases hi
    exact ⟨rfl, rfl, ⟨none, .new cb, (bound_of_lastTopic rfl).symm⟩, nofun⟩
  | @snoc tr s s' l _ hstep ih =>
    obtain ⟨hl, rfl⟩ := hstep
    cases l with
    | redirect name => exact ih.redirect hl
    | disconnect => exact ih.disconnect
    | setSubCallback cb' => exact ih.setSubCallback hl

/-- **It is subscribed as it was asked to be**, exactly if no callback was
set after it was disconnected. -/
theorem asAsked_iff {tr : List (MutableSubscriber κ × MutableCall κ)}
    (hr : (mutableSubscriberSystem cb).Run tr s) :
    s.AsAsked cb (tr.map Prod.snd) ↔ ¬ SetLate (tr.map Prod.snd) := by
  have h := inv_of_run hr
  obtain ⟨sub, howns, hsub⟩ := h.owns
  rw [← @bound_eq_iff κ cb _ h.valid]
  refine forall_congr' fun name => ?_
  rw [howns.mem_topics, hsub]

/-- Take a step, if it is possible. -/
def nextCall (s : MutableSubscriber κ) (l : MutableCall κ) : Option (MutableSubscriber κ) :=
  if l.Valid then some (s.run l) else none

theorem step_of_nextCall (s : MutableSubscriber κ) (l : MutableCall κ) (s' : MutableSubscriber κ)
    (h : s.nextCall l = some s') : (mutableSubscriberSystem cb).step s l s' := by
  obtain ⟨hl, heq⟩ := Option.ite_none_right_eq_some.mp h
  exact ⟨hl, (Option.some.inj heq).symm⟩

/-- The callback comes after the topic, and later another topic and another
callback. -/
theorem asAsked_iff_late : ∃ (s : MutableSubscriber ℕ) (tr : _),
    (mutableSubscriberSystem none).Run tr s ∧ tr.length = 5 ∧ s.topics = {"b"} := by
  have htrace : (trace nextCall [] (new none) [.redirect "a", .setSubCallback (some 1),
      .disconnect, .redirect "b", .setSubCallback (some 2)]).map
        (fun e => (e.1.length, e.1.map Prod.snd))
      = some (5, [.setSubCallback (some 2), .redirect "b", .disconnect, .setSubCallback (some 1),
        .redirect "a"]) := by decide +kernel
  obtain ⟨tr, s, hr, heq⟩ := Run.exists_of_trace (S := mutableSubscriberSystem none)
    step_of_nextCall rfl htrace
  obtain ⟨hlen, hlabels⟩ := Prod.mk.inj heq
  refine ⟨s, tr, hr, hlen, Set.ext fun name => ?_⟩
  have hasked := (asAsked_iff hr).mpr (by rw [hlabels]; decide) name
  rw [hlabels] at hasked
  rw [hasked]
  exact ⟨fun h => (Option.some.inj h.2).symm, fun h => ⟨nofun, congrArg some h.symm⟩⟩

/-- **A callback that comes after `disconnect`** subscribes to the topic it
was disconnected from. -/
theorem subscribed_after_disconnect : ∃ (s : MutableSubscriber ℕ) (tr : _),
    (mutableSubscriberSystem none).Run tr s
      ∧ tr.map Prod.snd = [.setSubCallback (some 1), .disconnect, .redirect "a"]
      ∧ "a" ∈ s.topics ∧ ¬ s.AsAsked none (tr.map Prod.snd) := by
  have htrace : (trace nextCall [] (new none) [.redirect "a", .disconnect,
      .setSubCallback (some 1)]).map (fun e => (e.1.map Prod.snd, e.2.alive 0))
      = some ([.setSubCallback (some 1), .disconnect, .redirect "a"], some ⟨"a", some 1⟩) := by
    decide +kernel
  obtain ⟨tr, s, hr, heq⟩ := Run.exists_of_trace (S := mutableSubscriberSystem none)
    step_of_nextCall rfl htrace
  obtain ⟨hlabels, halive⟩ := Prod.mk.inj heq
  have hmem : "a" ∈ s.topics := ⟨0, some 1, halive⟩
  refine ⟨s, tr, hr, hlabels, hmem, fun h => ?_⟩
  have hasked := ((h "a").mp hmem).2
  rw [hlabels] at hasked
  cases hasked

end MutableSubscriber
