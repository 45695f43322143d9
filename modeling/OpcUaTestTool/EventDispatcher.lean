import OpcUaTestTool.Numerals
import OpcUaTestTool.Transition
import Mathlib.Logic.Function.Basic

/-! `EventDispatcher`: one message buffer, the id of the next event and the id of the last one.
Any number of subscribers loop over `wait_event`, any number of threads call `send_event`; the
mutex makes capturing the id, sending, and writing single steps. -/
namespace OpcUaTestTool.EventDispatcher
open Numerals Transition

structure Dispatcher where
  id_ : Int := 0
  cid_ : Int := -1
  message_ : Bytes := []

def frame (message : Bytes) : Bytes := text "data: " ++ message ++ text "\n\n"

/-- `EventDispatcher::send_event`. `id_++` on an `atomic_int` wraps. -/
def Dispatcher.sendEvent (d : Dispatcher) (message : Bytes) : Dispatcher :=
  { message_ := frame message, cid_ := d.id_, id_ := int32 (d.id_ + 1) }

/-- The predicate of `cv_.wait` in `EventDispatcher::wait_event`. -/
def Dispatcher.ready (d : Dispatcher) (id : Int) : Bool := d.cid_ = id

/-- The end of `wait_event`: what is written to the sink. -/
def Dispatcher.deliver (d : Dispatcher) (writable : Bool) : Option Bytes :=
  if writable then some d.message_ else none

/- A call blocked in `wait_event`, with the number of events sent when it captured the id. -/
structure Waiting where
  id : Int
  armedAt : Nat

/- A call that has returned, with the number of events sent when it did. -/
structure Returned where
  id : Int
  armedAt : Nat
  returnedAt : Nat
  written : Option Bytes

structure Subscriber where
  waiting : Option Waiting := none
  calls : List Returned := []

/- The dispatcher with the messages sent and the subscribers' calls so far, oldest first. -/
structure Events where
  ed : Dispatcher := {}
  sent : List Bytes := []
  subscribers : Nat → Subscriber := fun _ => {}

inductive Action where
  | send (message : Bytes)
  | arm (i : Nat)
  | wake (i : Nat) (writable : Bool)

def Events.setSubscriber (s : Events) (i : Nat) (sub : Subscriber) : Events :=
  { s with subscribers := Function.update s.subscribers i sub }

def Subscriber.arm (sub : Subscriber) (id : Int) (sent : Nat) : Subscriber :=
  { sub with waiting := some ⟨id, sent⟩ }

def Subscriber.finish (sub : Subscriber) (w : Waiting) (sent : Nat) (written : Option Bytes) :
    Subscriber :=
  { waiting := none, calls := sub.calls ++ [⟨w.id, w.armedAt, sent, written⟩] }

def step (s : Events) : Action → Option Events
  | .send message => some { s with ed := s.ed.sendEvent message, sent := s.sent ++ [message] }
  | .arm i =>
    match (s.subscribers i).waiting with
    | some _ => none
    | none => some (s.setSubscriber i ((s.subscribers i).arm s.ed.id_ s.sent.length))
  | .wake i writable =>
    match (s.subscribers i).waiting with
    | none => none
    | some w =>
      if s.ed.ready w.id then
        some (s.setSubscriber i
          ((s.subscribers i).finish w s.sent.length (s.ed.deliver writable)))
      else none

theorem step_arm {s t : Events} {i : Nat} (h : step s (.arm i) = some t) :
    (s.subscribers i).waiting = none ∧
      t = s.setSubscriber i ((s.subscribers i).arm s.ed.id_ s.sent.length) := by
  simp only [step] at h
  cases hw : (s.subscribers i).waiting with
  | none =>
    simp only [hw, Option.some.injEq] at h
    exact ⟨rfl, h.symm⟩
  | some w => simp [hw] at h

theorem step_wake {s t : Events} {i : Nat} {writable : Bool}
    (h : step s (.wake i writable) = some t) :
    ∃ w, (s.subscribers i).waiting = some w ∧ s.ed.cid_ = w.id ∧
      t = s.setSubscriber i
        ((s.subscribers i).finish w s.sent.length (s.ed.deliver writable)) := by
  simp only [step] at h
  cases hw : (s.subscribers i).waiting with
  | none => simp [hw] at h
  | some w =>
    simp only [hw] at h
    by_cases hr : s.ed.ready w.id
    · simp only [if_pos hr, Option.some.injEq] at h
      exact ⟨w, rfl, by simpa [Dispatcher.ready] using hr, h.symm⟩
    · simp [hr] at h

/-- A subscriber after one of its own steps, or another one, unchanged. -/
theorem subscribers_set {s : Events} {i j : Nat} {sub : Subscriber} {P : Subscriber → Prop}
    (hi : P sub) (hj : P (s.subscribers j)) : P ((s.setSubscriber i sub).subscribers j) := by
  by_cases h : j = i
  · subst j
    simpa [Events.setSubscriber] using hi
  · simpa [Events.setSubscriber, h] using hj

/-- What a step does to the dispatcher: it sends an event, or leaves it as it is. -/
theorem dispatcher_of_step {s t : Events} {a : Action} (hs : step s a = some t) :
    (∃ message, a = .send message ∧
      t = { s with ed := s.ed.sendEvent message, sent := s.sent ++ [message] }) ∨
    (t.ed = s.ed ∧ t.sent = s.sent) := by
  cases a with
  | send message =>
    simp only [step, Option.some.injEq] at hs
    exact Or.inl ⟨message, rfl, hs.symm⟩
  | arm i =>
    obtain ⟨_, rfl⟩ := step_arm hs
    exact Or.inr ⟨rfl, rfl⟩
  | wake i writable =>
    obtain ⟨w, _, _, rfl⟩ := step_wake hs
    exact Or.inr ⟨rfl, rfl⟩

/-- A call that is blocked after a step was blocked before it, or has just captured the id. -/
theorem waiting_of_step {s t : Events} {a : Action} (hs : step s a = some t) {i : Nat}
    {w : Waiting} (hw : (t.subscribers i).waiting = some w) :
    (s.subscribers i).waiting = some w ∨ w = ⟨t.ed.id_, t.sent.length⟩ := by
  cases a with
  | send message =>
    simp only [step, Option.some.injEq] at hs
    subst t
    exact Or.inl hw
  | arm j =>
    obtain ⟨_, rfl⟩ := step_arm hs
    revert hw
    apply subscribers_set (P := fun sub => sub.waiting = some w →
      (s.subscribers i).waiting = some w ∨ w = ⟨s.ed.id_, s.sent.length⟩) _ Or.inl
    intro hw
    exact Or.inr (Option.some.inj hw).symm
  | wake j writable =>
    obtain ⟨_, _, _, rfl⟩ := step_wake hs
    revert hw
    apply subscribers_set (P := fun sub => sub.waiting = some w →
      (s.subscribers i).waiting = some w ∨ w = ⟨s.ed.id_, s.sent.length⟩) _ Or.inl
    intro hw
    simp [Subscriber.finish] at hw

/-- The counters are the number of events sent, wrapped; the buffer holds the last event. -/
structure Tied (s : Events) : Prop where
  id : s.ed.id_ = int32 s.sent.length
  cid : s.ed.cid_ = int32 ((s.sent.length : Int) - 1)
  message : ∀ m, s.sent.getLast? = some m → s.ed.message_ = frame m
  waiting : ∀ i w, (s.subscribers i).waiting = some w →
    w.id = int32 w.armedAt ∧ w.armedAt ≤ s.sent.length

theorem tied_init : Tied {} := by
  constructor
  · decide
  · decide
  · simp
  · simp

theorem Tied.step {s t : Events} {a : Action} (h : Tied s)
    (hs : EventDispatcher.step s a = some t) : Tied t := by
  have hwaiting (hid : t.ed.id_ = int32 t.sent.length) (hle : s.sent.length ≤ t.sent.length) :
      ∀ i w, (t.subscribers i).waiting = some w →
        w.id = int32 w.armedAt ∧ w.armedAt ≤ t.sent.length := by
    intro i w hw
    cases waiting_of_step hs hw with
    | inl hw => exact ⟨(h.waiting i w hw).1, (h.waiting i w hw).2.trans hle⟩
    | inr hw =>
      subst w
      exact ⟨hid, le_rfl⟩
  cases dispatcher_of_step hs with
  | inl hsend =>
    obtain ⟨message, _, rfl⟩ := hsend
    have hid : (s.ed.sendEvent message).id_ = int32 ((s.sent ++ [message]).length) := by
      simp only [Dispatcher.sendEvent, h.id, int32_add, List.length_append,
        List.length_singleton, Nat.cast_add, Nat.cast_one]
    refine ⟨hid, ?_, ?_, hwaiting hid (by simp)⟩
    · simp [Dispatcher.sendEvent, h.id]
    · intro m hm
      simp only [List.getLast?_append, List.getLast?_singleton, Option.some_or,
        Option.some.injEq] at hm
      rw [← hm]
      rfl
  | inr hkept =>
    obtain ⟨hed, hsent⟩ := hkept
    have hid : t.ed.id_ = int32 t.sent.length := by rw [hed, hsent, h.id]
    refine ⟨hid, ?_, ?_, hwaiting hid (by rw [hsent])⟩
    · rw [hed, hsent, h.cid]
    · rw [hed, hsent]
      exact h.message

/-- A call that can wake was armed a multiple of 2^32 events before the last one. -/
theorem Tied.ready_dvd {s : Events} (h : Tied s) {i : Nat} {w : Waiting}
    (hw : (s.subscribers i).waiting = some w) (hr : s.ed.cid_ = w.id) :
    w.armedAt < s.sent.length ∧
      (4294967296 : Int) ∣ (s.sent.length : Int) - 1 - w.armedAt := by
  obtain ⟨hid, hle⟩ := h.waiting i w hw
  rw [h.cid, hid, int32_eq_int32_iff] at hr
  refine ⟨?_, hr⟩
  obtain ⟨k, hk⟩ := hr
  omega

/-! ### Blocked subscribers -/

/-- A blocked call waits for the next event, or it is able to wake. -/
def NoneStranded (s : Events) : Prop :=
  ∀ i w, (s.subscribers i).waiting = some w → w.id = s.ed.id_ ∨ s.ed.cid_ = w.id

/-- An event is sent only when no blocked call still has to wake for the one before. -/
def AllAwake (s : Events) : Action → Prop
  | .send _ => ∀ i w, (s.subscribers i).waiting = some w → w.id = s.ed.id_
  | _ => True

theorem noneStranded_step {s t : Events} {a : Action} (h : NoneStranded s) (hc : AllAwake s a)
    (hs : step s a = some t) : NoneStranded t := by
  intro i w hw
  cases waiting_of_step hs hw with
  | inr hw =>
    subst w
    exact Or.inl rfl
  | inl hw =>
    cases dispatcher_of_step hs with
    | inl hsend =>
      obtain ⟨message, rfl, rfl⟩ := hsend
      exact Or.inr (hc i w hw).symm
    | inr hkept =>
      rw [hkept.1]
      exact h i w hw

theorem allAwake_of_noneStranded {s t : Events} {a : Action} (hi : Tied s) (h : NoneStranded s)
    (hs : step s a = some t) (ht : NoneStranded t) : AllAwake s a := by
  cases a with
  | send message =>
    simp only [step, Option.some.injEq] at hs
    subst t
    intro i w hw
    cases ht i w hw with
    | inr hlast => exact hlast.symm
    | inl hnext =>
      cases h i w hw with
      | inl hid => exact hid
      | inr hcid =>
        -- the counter would have to move by two and come back to the same value
        have hw' : int32 ((s.sent.length : Int) - 1) = int32 ((s.sent.length : Int) + 1) := by
          rw [← hi.cid, hcid, hnext, Dispatcher.sendEvent, hi.id, int32_add]
        obtain ⟨k, hk⟩ := (int32_eq_int32_iff _ _).mp hw'
        omega
  | arm i => trivial
  | wake i writable => trivial

/-- A blocked call has missed nothing, or only the last event, for which it can wake. -/
def Current (s : Events) : Prop :=
  ∀ i w, (s.subscribers i).waiting = some w →
    w.armedAt = s.sent.length ∨ w.armedAt + 1 = s.sent.length

theorem current_step {s t : Events} {a : Action} (hi : Tied s) (h : Current s)
    (hc : AllAwake s a) (hs : step s a = some t) : Current t := by
  intro i w hw
  cases waiting_of_step hs hw with
  | inr hw =>
    subst w
    exact Or.inl rfl
  | inl hw =>
    cases dispatcher_of_step hs with
    | inl hsend =>
      obtain ⟨message, rfl, rfl⟩ := hsend
      simp only [List.length_append, List.length_singleton]
      cases h i w hw with
      | inl he => exact Or.inr (by omega)
      | inr he =>
        have hid := hc i w hw
        rw [(hi.waiting i w hw).1, hi.id, int32_eq_int32_iff] at hid
        obtain ⟨k, hk⟩ := hid
        omega
    | inr hkept =>
      rw [hkept.2]
      exact h i w hw

/-- Blocked calls are never stranded in exactly the runs in which each event is sent after every
call blocked for the previous one has woken; a call that missed an event is then able to wake. -/
theorem no_subscriber_stranded_iff (as : List Action) (s : Events)
    (hrun : run step {} as = some s) :
    (Along step NoneStranded {} as ↔ Meets step AllAwake {} as) ∧
    (Meets step AllAwake {} as → ∀ i w, (s.subscribers i).waiting = some w →
      w.armedAt < s.sent.length → s.ed.cid_ = w.id) := by
  have h0 : NoneStranded {} := fun i w hw => by simp at hw
  have hc0 : Current {} := fun i w hw => by simp at hw
  have htied : ∀ s a t, Tied s → step s a = some t → Tied t := fun _ _ _ h hs => h.step hs
  refine ⟨?_, ?_⟩
  · exact along_iff_meets htied (fun _ _ _ _ h hc hs => noneStranded_step h hc hs)
      (fun _ _ _ hi h hs ht => allAwake_of_noneStranded hi h hs ht) tied_init h0 hrun
  · intro hm i w hw hlt
    have hstep : ∀ s a t, Tied s ∧ Current s → AllAwake s a → step s a = some t →
        Tied t ∧ Current t := fun s a t h hc hs => ⟨h.1.step hs, current_step h.1 h.2 hc hs⟩
    obtain ⟨htied, hcurrent⟩ := run_invariant_of_meets hstep ⟨tied_init, hc0⟩ hm hrun
    have hlast : (w.armedAt : Int) = s.sent.length - 1 := by
      have := hcurrent i w hw
      omega
    rw [htied.cid, (htied.waiting i w hw).1, hlast]

/- Both subscribers wake for the first event before the second one is sent. -/
def inTurn : List Action :=
  [.arm 0, .arm 1, .send (text "a"), .wake 1 true, .wake 0 true, .arm 0, .send (text "b")]

theorem no_subscriber_stranded_sample : ∃ s, run step {} inTurn = some s ∧
    (s.subscribers 0).waiting = some ⟨1, 1⟩ ∧
    (Along step NoneStranded {} inTurn ↔ Meets step AllAwake {} inTurn) :=
  ⟨_, rfl, rfl, (no_subscriber_stranded_iff inTurn _ rfl).1⟩

/- Two events are sent before the blocked subscriber gets the mutex back. -/
def overtaken : List Action := [.arm 0, .send (text "a"), .send (text "b")]

/-- The blocked call captured id 0, the next event has id 2 and the last one had id 1. -/
theorem overtaken_subscriber_stranded : ∃ s, run step {} overtaken = some s ∧
    (s.subscribers 0).waiting = some ⟨0, 0⟩ ∧ s.ed.id_ = 2 ∧ s.ed.cid_ = 1 ∧
    ¬ NoneStranded s := by
  refine ⟨_, rfl, rfl, rfl, rfl, ?_⟩
  intro h
  exact absurd (h 0 ⟨0, 0⟩ rfl) (by decide)

end OpcUaTestTool.EventDispatcher
