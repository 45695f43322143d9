import OpcUaTestTool.EventDispatcher

/-! What the streams of `/api/events` receive. A call writes the event in the buffer when it
wakes; its number is one less than the number of events sent by then. -/
namespace OpcUaTestTool.EventStreams
open Numerals Transition EventDispatcher

/-- The number of the event a call wrote, if it wrote one. -/
def Returned.event (c : Returned) : Option Nat := c.written.map fun _ => c.returnedAt - 1

/-- The events written to a subscriber's sink, by number. -/
def events (sub : Subscriber) : List Nat := sub.calls.filterMap Returned.event

/-- The bytes written to a subscriber's sink, one chunk for each call that wrote. -/
def chunks (sub : Subscriber) : List Bytes := sub.calls.filterMap Returned.written

/-- A call returned for an event sent after it armed, a multiple of 2^32 events after the first
one, and wrote the frame of that event. -/
structure Answered (sent : List Bytes) (c : Returned) : Prop where
  id : c.id = int32 c.armedAt
  after : c.armedAt < c.returnedAt
  le : c.returnedAt ≤ sent.length
  dvd : (4294967296 : Int) ∣ (c.returnedAt : Int) - 1 - c.armedAt
  written : ∀ bytes, c.written = some bytes → sent[c.returnedAt - 1]?.map frame = some bytes

/-- The calls of one subscriber follow each other. -/
structure InOrder (sub : Subscriber) : Prop where
  calls : sub.calls.Pairwise fun c c' => c.returnedAt ≤ c'.armedAt
  waiting : ∀ w c, sub.waiting = some w → c ∈ sub.calls → c.returnedAt ≤ w.armedAt

structure Served (s : Events) : Prop where
  tied : Tied s
  answered : ∀ i, ∀ c ∈ (s.subscribers i).calls, Answered s.sent c
  inOrder : ∀ i, InOrder (s.subscribers i)

theorem Answered.send {sent : List Bytes} {c : Returned} (h : Answered sent c) (message : Bytes) :
    Answered (sent ++ [message]) c := by
  have hlt : c.returnedAt - 1 < sent.length := by
    have := h.after
    have := h.le
    omega
  refine ⟨h.id, h.after, ?_, h.dvd, ?_⟩
  · have := h.le
    simp only [List.length_append, List.length_singleton]
    omega
  · intro bytes hw
    rw [List.getElem?_append_left hlt]
    exact h.written bytes hw

/-- A call that wakes finds the last event in the buffer. -/
theorem Served.wake {s : Events} (h : Served s) {i : Nat} {w : Waiting} {writable : Bool}
    (hw : (s.subscribers i).waiting = some w) (hr : s.ed.cid_ = w.id) :
    Answered s.sent ⟨w.id, w.armedAt, s.sent.length, s.ed.deliver writable⟩ := by
  obtain ⟨hlt, hdvd⟩ := h.tied.ready_dvd hw hr
  refine ⟨(h.tied.waiting i w hw).1, hlt, le_rfl, hdvd, ?_⟩
  intro bytes hb
  cases writable with
  | false => simp [Dispatcher.deliver] at hb
  | true =>
    obtain ⟨m, hm⟩ : ∃ m, s.sent[s.sent.length - 1]? = some m :=
      ⟨_, List.getElem?_eq_getElem (by omega)⟩
    have hmessage := h.tied.message m (by rw [List.getLast?_eq_getElem?, hm])
    simp only [Dispatcher.deliver, if_true, Option.some.injEq] at hb
    simp only [hm, Option.map_some, ← hmessage, hb]

theorem served_init : Served {} := by
  refine ⟨tied_init, ?_, ?_⟩
  · simp
  · intro i
    exact ⟨by simp, by simp⟩

theorem Served.answered_step {s t : Events} {a : Action} (h : Served s)
    (hs : EventDispatcher.step s a = some t) :
    ∀ i, ∀ c ∈ (t.subscribers i).calls, Answered t.sent c := by
  cases a with
  | send message =>
    simp only [EventDispatcher.step, Option.some.injEq] at hs
    subst t
    intro i c hc
    exact (h.answered i c hc).send message
  | arm i =>
    obtain ⟨_, rfl⟩ := step_arm hs
    intro j
    exact subscribers_set (P := fun sub => ∀ c ∈ sub.calls, Answered s.sent c)
      (h.answered i) (h.answered j)
  | wake i writable =>
    obtain ⟨w, hw, hr, rfl⟩ := step_wake hs
    intro j
    apply subscribers_set (P := fun sub => ∀ c ∈ sub.calls, Answered s.sent c) _ (h.answered j)
    intro c hc
    cases List.mem_append.mp hc with
    | inl hc => exact h.answered i c hc
    | inr hc =>
      obtain rfl := List.mem_singleton.mp hc
      exact h.wake hw hr

theorem Served.inOrder_step {s t : Events} {a : Action} (h : Served s)
    (hs : EventDispatcher.step s a = some t) : ∀ i, InOrder (t.subscribers i) := by
  cases a with
  | send message =>
    simp only [EventDispatcher.step, Option.some.injEq] at hs
    subst t
    exact h.inOrder
  | arm i =>
    obtain ⟨_, rfl⟩ := step_arm hs
    intro j
    apply subscribers_set (P := InOrder) _ (h.inOrder j)
    refine ⟨(h.inOrder i).calls, ?_⟩
    intro w c hw hc
    simp only [Subscriber.arm, Option.some.injEq] at hw
    subst w
    exact (h.answered i c hc).le
  | wake i writable =>
    obtain ⟨w, hw, _, rfl⟩ := step_wake hs
    intro j
    apply subscribers_set (P := InOrder) _ (h.inOrder j)
    refine ⟨?_, by simp [Subscriber.finish]⟩
    simp only [Subscriber.finish]
    apply List.pairwise_append.mpr
    refine ⟨(h.inOrder i).calls, List.pairwise_singleton _ _, ?_⟩
    intro c hc c' hc'
    obtain rfl := List.mem_singleton.mp hc'
    exact (h.inOrder i).waiting w c hw hc

theorem Served.step {s t : Events} {a : Action} (h : Served s)
    (hs : EventDispatcher.step s a = some t) : Served t :=
  ⟨h.tied.step hs, h.answered_step hs, h.inOrder_step hs⟩

theorem served_of_run {as : List Action} {s : Events} (hrun : run step {} as = some s) :
    Served s :=
  run_invariant (fun _ _ _ h hs => h.step hs) served_init hrun

/-! ### Fewer than 2^32 events -/

theorem Answered.next {sent : List Bytes} {c : Returned} (h : Answered sent c)
    (hlt : sent.length < 4294967296) : c.returnedAt = c.armedAt + 1 := by
  have := h.after
  have := h.le
  obtain ⟨k, hk⟩ := h.dvd
  omega

/-- While fewer than 2^32 events are sent, a call returns after an event was sent and writes the
frame of the first one; a subscriber's calls write strictly later events each time, and calls
that captured the same id write the same bytes. -/
theorem first_event_after_arming (as : List Action) (s : Events)
    (hrun : run step {} as = some s) (hlt : s.sent.length < 4294967296) :
    (∀ i, ∀ c ∈ (s.subscribers i).calls, c.armedAt < c.returnedAt ∧
      ∀ bytes, c.written = some bytes → s.sent[c.armedAt]?.map frame = some bytes) ∧
    (∀ i, (s.subscribers i).calls.Pairwise fun c c' => c.armedAt < c'.armedAt) ∧
    (∀ i j, ∀ c ∈ (s.subscribers i).calls, ∀ c' ∈ (s.subscribers j).calls, c.id = c'.id →
      ∀ bytes bytes', c.written = some bytes → c'.written = some bytes' → bytes = bytes') := by
  have hserved := served_of_run hrun
  have hfirst (i : Nat) (c : Returned) (hc : c ∈ (s.subscribers i).calls) (bytes : Bytes)
      (hw : c.written = some bytes) : s.sent[c.armedAt]?.map frame = some bytes := by
    have hanswered := hserved.answered i c hc
    have hframe := hanswered.written bytes hw
    rwa [hanswered.next hlt, Nat.add_sub_cancel] at hframe
  refine ⟨?_, ?_, ?_⟩
  · intro i c hc
    exact ⟨(hserved.answered i c hc).after, hfirst i c hc⟩
  · intro i
    apply (hserved.inOrder i).calls.imp_of_mem
    intro c c' hc _ hle
    have := (hserved.answered i c hc).after
    omega
  · intro i j c hc c' hc' hid bytes bytes' hw hw'
    have h := hserved.answered i c hc
    have h' := hserved.answered j c' hc'
    have harmed : c.armedAt = c'.armedAt := by
      have := h.after
      have := h.le
      have := h'.after
      have := h'.le
      apply int32_inj_of_lt (by omega) (by omega)
      rw [← h.id, ← h'.id, hid]
    have hframe := hfirst i c hc bytes hw
    rw [harmed, hfirst j c' hc' bytes' hw', Option.some.injEq] at hframe
    exact hframe.symm

/- Two subscribers; the second is slow, and its connection is closed before its last event. -/
def twoStreams : List Action :=
  [.arm 0, .arm 1, .send (text "a"), .wake 0 true, .arm 0, .wake 1 true, .arm 1,
    .send (text "b"), .wake 1 false, .wake 0 true]

theorem first_event_after_arming_sample : ∃ s, run step {} twoStreams = some s ∧
    chunks (s.subscribers 0) = [frame (text "a"), frame (text "b")] ∧
    chunks (s.subscribers 1) = [frame (text "a")] ∧
    (∀ i, ∀ c ∈ (s.subscribers i).calls, c.armedAt < c.returnedAt ∧
      ∀ bytes, c.written = some bytes → s.sent[c.armedAt]?.map frame = some bytes) :=
  ⟨_, rfl, rfl, rfl, (first_event_after_arming twoStreams _ rfl (by decide)).1⟩

/-! ### Gaps -/

theorem event_eq_some {c : Returned} {k : Nat} :
    Returned.event c = some k ↔ (∃ bytes, c.written = some bytes) ∧ c.returnedAt - 1 = k := by
  simp only [Returned.event, Option.map_eq_some_iff]
  constructor
  · rintro ⟨bytes, hb, hk⟩
    exact ⟨⟨bytes, hb⟩, hk⟩
  · rintro ⟨⟨bytes, hb⟩, hk⟩
    exact ⟨bytes, hb, hk⟩

/-- The chunks are the frames of the events. -/
theorem Served.chunks_eq {s : Events} (h : Served s) (i : Nat) :
    (chunks (s.subscribers i)).map some =
      (events (s.subscribers i)).map fun k => s.sent[k]?.map frame := by
  simp only [chunks, events, List.map_filterMap]
  apply List.filterMap_congr
  intro c hc
  cases hw : c.written with
  | none => simp [Returned.event, hw]
  | some bytes => simp [Returned.event, hw, (h.answered i c hc).written bytes hw]

theorem Served.events_increasing {s : Events} (h : Served s) (i : Nat) :
    (events (s.subscribers i)).Pairwise (· < ·) := by
  apply List.pairwise_filterMap.mpr
  apply (h.inOrder i).calls.imp_of_mem
  intro c c' hc hc' hle k hk k' hk'
  have := (event_eq_some.mp hk).2
  have := (event_eq_some.mp hk').2
  have := (h.answered i c hc).after
  have := (h.answered i c' hc').after
  omega

/-- A call arms after the events its stream already carries. -/
theorem Served.events_lt_armedAt {s : Events} (h : Served s) {i : Nat} {w : Waiting} {k : Nat}
    (hw : (s.subscribers i).waiting = some w) (hk : k ∈ events (s.subscribers i)) :
    k < w.armedAt := by
  obtain ⟨c, hc, he⟩ := List.mem_filterMap.mp hk
  have := (event_eq_some.mp he).2
  have := (h.answered i c hc).after
  have := (h.inOrder i).waiting w c hw hc
  omega

/-- Every number between two numbers of the list is in the list. -/
def Gapless (l : List Nat) : Prop := ∀ a ∈ l, ∀ b ∈ l, ∀ k, a < k → k < b → k ∈ l

theorem le_of_getLast {l : List Nat} (hl : l.Pairwise (· < ·)) {e a : Nat}
    (he : l.getLast? = some e) (ha : a ∈ l) : a ≤ e := by
  obtain ⟨front, rfl⟩ := List.getLast?_eq_some_iff.mp he
  cases List.mem_append.mp ha with
  | inl ha =>
    have hae := (List.pairwise_append.mp hl).2.2 a ha e (by simp)
    exact Nat.le_of_lt hae
  | inr ha => exact (List.mem_singleton.mp ha).le

theorem Gapless.concat {l : List Nat} {n : Nat} (h : Gapless l) (hn : ∀ k ∈ l, k < n)
    (hnext : ∀ e, l.getLast? = some e → n = e + 1) : Gapless (l ++ [n]) := by
  intro a ha b hb k hak hkb
  have hbn : b ≤ n := by
    cases List.mem_append.mp hb with
    | inl hb => exact Nat.le_of_lt (hn b hb)
    | inr hb => exact (List.mem_singleton.mp hb).le
  apply List.mem_append_left
  cases List.mem_append.mp ha with
  | inr ha =>
    have := List.mem_singleton.mp ha
    omega
  | inl ha =>
    obtain ⟨e, he⟩ := Option.isSome_iff_exists.mp
      (List.getLast?_isSome.mpr (List.ne_nil_of_mem ha))
    have hmem : e ∈ l := List.mem_of_getLast? he
    have := hnext e he
    have hke : k = e ∨ k < e := by omega
    cases hke with
    | inl hke => exact hke ▸ hmem
    | inr hke => exact h a ha e hmem k hak hke

theorem Gapless.of_concat {l : List Nat} {n : Nat} (h : Gapless (l ++ [n]))
    (hn : ∀ k ∈ l, k < n) : Gapless l := by
  intro a ha b hb k hak hkb
  have hk := h a (List.mem_append_left _ ha) b (List.mem_append_left _ hb) k hak hkb
  cases List.mem_append.mp hk with
  | inl hk => exact hk
  | inr hk =>
    have := hn b hb
    have := List.mem_singleton.mp hk
    omega

theorem Gapless.next {l : List Nat} {n e : Nat} (h : Gapless (l ++ [n]))
    (hl : l.Pairwise (· < ·)) (hn : ∀ k ∈ l, k < n) (he : l.getLast? = some e) : n = e + 1 := by
  have hmem : e ∈ l := List.mem_of_getLast? he
  have hen := hn e hmem
  by_contra hne
  have hk := h e (List.mem_append_left _ hmem) n (by simp) (e + 1) (by omega) (by omega)
  cases List.mem_append.mp hk with
  | inl hk =>
    have := le_of_getLast hl he hk
    omega
  | inr hk => exact hne (List.mem_singleton.mp hk).symm

theorem gapless_concat_iff {l : List Nat} {n : Nat} (hl : l.Pairwise (· < ·))
    (hn : ∀ k ∈ l, k < n) :
    Gapless (l ++ [n]) ↔ Gapless l ∧ ∀ e, l.getLast? = some e → n = e + 1 := by
  constructor
  · intro h
    exact ⟨h.of_concat hn, fun e he => h.next hl hn he⟩
  · intro h
    exact h.1.concat hn h.2

/-- No stream has a gap. -/
def NoGaps (s : Events) : Prop := ∀ i, Gapless (events (s.subscribers i))

/-- A call that is about to write to a stream that carries events armed before another one was
sent, and not more than 2^32 events ago. -/
def ArmedInTime (s : Events) : Action → Prop
  | .wake i true => ∀ w e, (s.subscribers i).waiting = some w →
      (events (s.subscribers i)).getLast? = some e →
      w.armedAt = e + 1 ∧ s.sent.length ≤ w.armedAt + 4294967296
  | _ => True

theorem events_finish (sub : Subscriber) (w : Waiting) (n : Nat) (d : Dispatcher)
    (writable : Bool) :
    events (sub.finish w n (d.deliver writable)) =
      if writable then events sub ++ [n - 1] else events sub := by
  cases writable with
  | false => simp [events, Subscriber.finish, Dispatcher.deliver, Returned.event]
  | true => simp [events, Subscriber.finish, Dispatcher.deliver, Returned.event]

/-- A call of a stream that carries events writes the next one just if it armed in time. -/
theorem Served.next_iff {s : Events} (h : Served s) {i : Nat} {w : Waiting}
    (hw : (s.subscribers i).waiting = some w) (hr : s.ed.cid_ = w.id) :
    (∀ e, (events (s.subscribers i)).getLast? = some e → s.sent.length - 1 = e + 1) ↔
      ArmedInTime s (.wake i true) := by
  obtain ⟨hlt, k, hk⟩ := h.tied.ready_dvd hw hr
  constructor
  · intro hnext w' e hw' he
    obtain rfl : w = w' := Option.some.inj (hw.symm.trans hw')
    have := hnext e he
    have := h.events_lt_armedAt hw (List.mem_of_getLast? he)
    omega
  · intro hc e he
    obtain ⟨harmed, hle⟩ := hc w e hw he
    omega

theorem Served.gapless_wake_iff {s : Events} (h : Served s) {i : Nat} {w : Waiting}
    (hw : (s.subscribers i).waiting = some w) (hr : s.ed.cid_ = w.id) :
    Gapless (events ((s.subscribers i).finish w s.sent.length (s.ed.deliver true))) ↔
      Gapless (events (s.subscribers i)) ∧ ArmedInTime s (.wake i true) := by
  have hn : ∀ k ∈ events (s.subscribers i), k < s.sent.length - 1 := by
    intro k hk
    have := h.events_lt_armedAt hw hk
    have := (h.tied.ready_dvd hw hr).1
    omega
  rw [events_finish, if_pos rfl, gapless_concat_iff (h.events_increasing i) hn, h.next_iff hw hr]

theorem noGaps_step {s t : Events} {a : Action} (hi : Served s) (h : NoGaps s)
    (hc : ArmedInTime s a) (hs : step s a = some t) : NoGaps t := by
  cases a with
  | send message =>
    simp only [step, Option.some.injEq] at hs
    subst t
    exact h
  | arm i =>
    obtain ⟨_, rfl⟩ := step_arm hs
    intro j
    exact subscribers_set (P := fun sub => Gapless (events sub)) (h i) (h j)
  | wake i writable =>
    obtain ⟨w, hw, hr, rfl⟩ := step_wake hs
    intro j
    apply subscribers_set (P := fun sub => Gapless (events sub)) _ (h j)
    cases writable with
    | false =>
      rw [events_finish, if_neg (by simp)]
      exact h i
    | true => exact (hi.gapless_wake_iff hw hr).mpr ⟨h i, hc⟩

theorem armedInTime_of_noGaps {s t : Events} {a : Action} (hi : Served s)
    (hs : step s a = some t) (ht : NoGaps t) : ArmedInTime s a := by
  cases a with
  | send message => trivial
  | arm i => trivial
  | wake i writable =>
    cases writable with
    | false => trivial
    | true =>
      obtain ⟨w, hw, hr, rfl⟩ := step_wake hs
      have hgapless := ht i
      simp only [Events.setSubscriber, Function.update_self] at hgapless
      exact ((hi.gapless_wake_iff hw hr).mp hgapless).2

/-- The streams have no gaps in exactly the runs in which every call that continues a stream
arms before another event is sent. What a stream carries are the frames of its events. -/
theorem no_gaps_iff (as : List Action) (s : Events) (hrun : run step {} as = some s) :
    (Along step NoGaps {} as ↔ Meets step ArmedInTime {} as) ∧
    (Meets step ArmedInTime {} as → NoGaps s) ∧
    (∀ i, (chunks (s.subscribers i)).map some =
      (events (s.subscribers i)).map fun k => s.sent[k]?.map frame) := by
  have hserved : ∀ s a t, Served s → step s a = some t → Served t := fun _ _ _ h hs => h.step hs
  have h0 : NoGaps {} := fun i a ha => by simp [events] at ha
  refine ⟨?_, ?_, fun i => (served_of_run hrun).chunks_eq i⟩
  · exact along_iff_meets hserved (fun _ _ _ hi h hc hs => noGaps_step hi h hc hs)
      (fun _ _ _ hi _ hs ht => armedInTime_of_noGaps hi hs ht) served_init h0 hrun
  · intro hm
    have hstep : ∀ s a t, Served s ∧ NoGaps s → ArmedInTime s a → step s a = some t →
        Served t ∧ NoGaps t :=
      fun s a t h hc hs => ⟨h.1.step hs, noGaps_step h.1 h.2 hc hs⟩
    exact (run_invariant_of_meets hstep ⟨served_init, h0⟩ hm hrun).2

theorem no_gaps_sample : ∃ s, run step {} twoStreams = some s ∧
    events (s.subscribers 0) = [0, 1] ∧ events (s.subscribers 1) = [0] ∧
    (Along step NoGaps {} twoStreams ↔ Meets step ArmedInTime {} twoStreams) :=
  ⟨_, rfl, rfl, rfl, (no_gaps_iff twoStreams _ rfl).1⟩

/- The second event is sent before the stream's thread calls `wait_event` again. -/
def lateArm : List Action :=
  [.arm 0, .send (text "a"), .wake 0 true, .send (text "b"), .arm 0, .send (text "c"),
    .wake 0 true]

theorem late_arm_leaves_gap : ∃ s, run step {} lateArm = some s ∧
    events (s.subscribers 0) = [0, 2] ∧
    chunks (s.subscribers 0) = [frame (text "a"), frame (text "c")] ∧ ¬ NoGaps s := by
  refine ⟨_, rfl, rfl, rfl, ?_⟩
  intro h
  exact absurd (h 0 0 (by decide) 2 (by decide) 1 (by omega) (by omega)) (by decide)

end OpcUaTestTool.EventStreams
