import OpcUaTestTool.CriticalSections
import OpcUaTestTool.Numerals
import OpcUaTestTool.Transition

/-! The mutexes of the job scheduler and of the event dispatcher: who holds them and who waits for
them, across the callback that `jobFinished` makes into `send_event`. -/
namespace OpcUaTestTool.LockWaiting
open FiniteMap Numerals CriticalSections Transition

/- `JobScheduler::_m` and `EventDispatcher::m_`. -/
inductive Mutex where
  | scheduler
  | dispatcher
  deriving DecidableEq

/- A thread in `create`, `jobFinished`, `send_event` (the listener of the REPL) or `wait_event`. The
names that end in Lock are those of threads at a mutex that they do not hold yet. -/
inductive Thread where
  | createLock
  | create
  | finishLock (pid : Int)
  | finish (pid : Int)
  | callbackLock (pid : Int)
  | callback (pid : Int)
  | finished
  | sendLock
  | send
  | waitLock
  | waiting (id : Int)
  | wakeLock (id : Int)
  | woken
  | writing
  | stalled
  deriving DecidableEq

def Thread.holds : Thread → List Mutex
  | .create => [.scheduler]
  | .finish _ => [.scheduler]
  | .callbackLock _ => [.scheduler]
  | .callback _ => [.scheduler, .dispatcher]
  | .finished => [.scheduler]
  | .send => [.dispatcher]
  | .woken => [.dispatcher]
  | .writing => [.dispatcher]
  | .stalled => [.dispatcher]
  | _ => []

def Thread.wants : Thread → Option Mutex
  | .createLock => some .scheduler
  | .finishLock _ => some .scheduler
  | .callbackLock _ => some .dispatcher
  | .sendLock => some .dispatcher
  | .waitLock => some .dispatcher
  | .wakeLock _ => some .dispatcher
  | _ => none

def Holds (m : Mutex) (t : Thread) : Prop := m ∈ t.holds

instance (m : Mutex) : DecidablePred (Holds m) :=
  fun t => inferInstanceAs (Decidable (m ∈ t.holds))

/- The members that the two mutexes guard, and the threads. -/
structure Service where
  activeJobs : Map Int Int := ∅
  id_ : Int := 0
  cid_ : Int := -1
  threads : Map Nat Thread := ∅

/-- The predicate of `cv_.wait`, evaluated with the mutex held. -/
def Service.await (s : Service) (id : Int) : Thread :=
  if s.cid_ = id then .woken else .waiting id

/-- `cid_ = id_++` in `send_event`. -/
def Service.sendEvent (s : Service) : Service := { s with cid_ := s.id_, id_ := int32 (s.id_ + 1) }

/- What a thread does next. `schedule` comes with the runners it has forked; `stall` and `resume`
are up to the client of a subscriber. -/
inductive Move where
  | lock
  | find
  | schedule (forked : List (Int × Int))
  | sendEvent
  | wake
  | isWritable (b : Bool)
  | written
  | stall
  | resume
  deriving DecidableEq

/-- The thread after a move, unless it has left the functions, and the members. -/
def move (s : Service) : Move → Thread → Option (Option Thread × Service)
  | .lock, .createLock => some (some .create, s)
  | .lock, .finishLock pid => some (some (.finish pid), s)
  | .lock, .callbackLock pid => some (some (.callback pid), s)
  | .lock, .sendLock => some (some .send, s)
  | .lock, .waitLock => some (some (s.await s.id_), s)
  | .lock, .wakeLock id => some (some (s.await id), s)
  | .find, .finish pid =>
    some (some (if pid ∈ s.activeJobs then .callbackLock pid else .finished), s)
  | .sendEvent, .callback pid =>
    some (some .finished, { s.sendEvent with activeJobs := s.activeJobs.erase pid })
  | .sendEvent, .send => some (none, s.sendEvent)
  | .schedule forked, .create => some (none, { s with
      activeJobs := forked.foldl (fun jobs job => jobs.insert job.1 job.2) s.activeJobs })
  | .schedule forked, .finished => some (none, { s with
      activeJobs := forked.foldl (fun jobs job => jobs.insert job.1 job.2) s.activeJobs })
  | .wake, .waiting id => some (some (.wakeLock id), s)
  | .isWritable b, .woken => some (if b then some .writing else none, s)
  | .written, .writing => some (none, s)
  | .stall, .writing => some (some .stalled, s)
  | .resume, .stalled => some (some .writing, s)
  | _, _ => none

inductive Call where
  | create
  | jobFinished (pid : Int)
  | send_event
  | wait_event

def Call.enter : Call → Thread
  | .create => .createLock
  | .jobFinished pid => .finishLock pid
  | .send_event => .sendLock
  | .wait_event => .waitLock

inductive Action where
  | call (i : Nat) (c : Call)
  | move (i : Nat) (m : Move)

/-- A mutex is locked when no thread holds it. -/
def MayLock (s : Service) (t : Thread) : Prop := ∀ x ∈ t.wants, Idle (Holds x) s.threads

instance (s : Service) (t : Thread) : Decidable (MayLock s t) :=
  inferInstanceAs (Decidable (∀ x ∈ t.wants, Idle (Holds x) s.threads))

def Service.set (s : Service) (i : Nat) : Option Thread → Service
  | none => { s with threads := s.threads.erase i }
  | some t => { s with threads := s.threads.insert i t }

def step (s : Service) : Action → Option Service
  | .call i c => if i ∈ s.threads then none else some (s.set i (some c.enter))
  | .move i m =>
    (s.threads.lookup i).bind fun t =>
      if m = .lock → MayLock s t then (move s m t).map fun r => r.2.set i r.1 else none

def init : Service := {}

/-- The callback of `jobFinished` waits for the dispatcher with the scheduler's mutex in hand. -/
def Waits (t : Thread) : Prop := Holds .scheduler t ∧ t.wants = some .dispatcher

/-- A thread that holds the mutex of the scheduler waits for that of the dispatcher, which a
subscriber holds whose write has stalled. -/
def HeldUp (s : Service) : Prop :=
  (∃ i t, s.threads.lookup i = some t ∧ Waits t) ∧
  ∃ j u, s.threads.lookup j = some u ∧ Holds .dispatcher u ∧ u = .stalled

/-- The thread that holds the mutex of the scheduler, or one that it waits for, has a move of its
own to make, whatever the clients do. -/
def Moves (s : Service) : Prop :=
  ∀ i t, s.threads.lookup i = some t → Holds .scheduler t →
    ∃ j u m, s.threads.lookup j = some u ∧ (j = i ∨ Holds .dispatcher u) ∧ m ≠ .stall ∧
      m ≠ .resume ∧ (step s (.move j m)).isSome = true

structure Free (s : Service) : Prop where
  unblocked : ¬ HeldUp s
  moves : Moves s

/-- No write stalls while the callback of `jobFinished` waits, and no job that is active is found
finished while a write is stalled. -/
def Apart (s : Service) : Action → Prop
  | .move _ .stall => Idle Waits s.threads
  | .move i .find => ∀ pid, s.threads.lookup i = some (.finish pid) → pid ∈ s.activeJobs →
      Idle (fun t => t = .stalled) s.threads
  | _ => True

theorem waits_iff (t : Thread) : Waits t ↔ ∃ pid, t = .callbackLock pid := by
  cases t <;> simp [Waits, Holds, Thread.holds, Thread.wants]

theorem holds_stalled : Holds .dispatcher .stalled := List.mem_singleton.mpr rfl

theorem heldUp_iff (s : Service) : HeldUp s ↔
    ¬ Idle Waits s.threads ∧ ¬ Idle (fun t => t = .stalled) s.threads := by
  simp only [HeldUp, Idle, not_forall, not_not, exists_prop]
  refine and_congr Iff.rfl ?_
  constructor
  · intro h
    obtain ⟨j, u, hu, _, hstalled⟩ := h
    exact ⟨j, u, hu, hstalled⟩
  · intro h
    obtain ⟨j, u, hu, rfl⟩ := h
    exact ⟨j, .stalled, hu, holds_stalled, rfl⟩

/-- What a move does: only `find` makes a thread wait for the callback's mutex, only `stall`
stalls it, and only `lock` gives it a mutex. -/
theorem move_spec {s s' : Service} {m : Move} {t v : Thread} (h : move s m t = some (some v, s')) :
    (Waits v → m = .find ∧ ∃ pid, t = .finish pid ∧ pid ∈ s.activeJobs) ∧
    (v = .stalled → m = .stall ∧ t = .writing) ∧
    ∀ x, Holds x v → Holds x t ∨ (m = .lock ∧ t.wants = some x) := by
  unfold move at h
  split at h <;> simp only [Option.some.injEq, Prod.mk.injEq, reduceCtorEq, false_and] at h
  case h_5 =>
    rw [← h.1]
    unfold Service.await
    split <;> simp [Waits, Holds, Thread.holds, Thread.wants]
  case h_6 =>
    rw [← h.1]
    unfold Service.await
    split <;> simp [Waits, Holds, Thread.holds, Thread.wants]
  case h_7 pid =>
    rw [← h.1]
    by_cases hp : pid ∈ s.activeJobs
    · simp [hp, Holds, Thread.holds]
    · simp [hp, Waits, Holds, Thread.holds, Thread.wants]
  case h_13 b =>
    obtain ⟨hv, _⟩ := h
    split at hv
    · cases hv
      simp [Waits, Holds, Thread.holds, Thread.wants]
    · cases hv
  all_goals
    rw [← h.1]
    simp [Waits, Holds, Thread.holds, Thread.wants]

theorem move_threads {s s' : Service} {m : Move} {t : Thread} {o : Option Thread}
    (h : move s m t = some (o, s')) : s'.threads = s.threads := by
  unfold move at h
  split at h <;> cases h <;> rfl

theorem set_threads {s s' : Service} (h : s'.threads = s.threads) (i : Nat) (o : Option Thread) :
    (s'.set i o).threads = (s.set i o).threads := by
  cases o <;> simp [Service.set, h]

theorem step_move {s t : Service} {i : Nat} {m : Move} (h : step s (.move i m) = some t) :
    ∃ u o s', s.threads.lookup i = some u ∧ (m = .lock → MayLock s u) ∧
      move s m u = some (o, s') ∧ t = s'.set i o := by
  simp only [step, Option.bind_eq_some_iff] at h
  obtain ⟨u, hl, h⟩ := h
  split at h
  · rename_i hlock
    obtain ⟨⟨o, s'⟩, hm, rfl⟩ := Option.map_eq_some_iff.mp h
    exact ⟨u, o, s', hl, hlock, hm, rfl⟩
  · cases h

theorem step_call {s t : Service} {i : Nat} {c : Call} (h : step s (.call i c) = some t) :
    i ∉ s.threads ∧ t = s.set i (some c.enter) := by
  simp only [step] at h
  split at h
  · cases h
  · rename_i hi
    exact ⟨hi, (Option.some.inj h).symm⟩

theorem Call.outside (c : Call) :
    ¬ Waits c.enter ∧ c.enter ≠ .stalled ∧ ∀ x, ¬ Holds x c.enter := by
  cases c <;> simp [Call.enter, Waits, Holds, Thread.holds]

theorem idle_set {P : Thread → Prop} {s : Service} (h : Idle P s.threads) (i : Nat)
    {o : Option Thread} (ho : ∀ v, o = some v → ¬ P v) : Idle P (s.set i o).threads := by
  cases o with
  | none => exact Idle.erase (h.alone i)
  | some v => exact Idle.insert (h.alone i) (ho v rfl)

theorem idle_of_set {P : Thread → Prop} {s : Service} {i : Nat} {o : Option Thread}
    (h : Idle P (s.set i o).threads) (hi : ∀ v, s.threads.lookup i = some v → ¬ P v) :
    Idle P s.threads := by
  cases o with
  | none => exact Idle.of_erase h hi
  | some v => exact Idle.of_insert h hi

/-- At most one thread holds a mutex. -/
theorem exclusive_step {s t : Service} {a : Action} (x : Mutex)
    (hs : Exclusive (Holds x) s.threads) (h : step s a = some t) :
    Exclusive (Holds x) t.threads := by
  cases a with
  | call i c =>
    obtain ⟨_, rfl⟩ := step_call h
    exact hs.insert_outside (c.outside.2.2 x)
  | move i m =>
    obtain ⟨u, o, s', hl, hlock, hm, rfl⟩ := step_move h
    rw [set_threads (move_threads hm)]
    cases o with
    | none => exact hs.erase i
    | some v =>
      have hspec := (move_spec hm).2.2 x
      by_cases hfree : m = .lock ∧ u.wants = some x
      · exact Exclusive.insert ((hlock hfree.1 x hfree.2).alone i) v
      · exact hs.replace hl fun hv => (hspec hv).resolve_right hfree

theorem mutexes_exclusive (as : List Action) (s : Service) (h : run step init as = some s)
    (x : Mutex) : Exclusive (Holds x) s.threads :=
  run_invariant (fun _ _ _ hs ht => exclusive_step x hs ht) idle_empty.exclusive h

theorem step_isSome {s : Service} {i : Nat} {m : Move} {t : Thread}
    (hl : s.threads.lookup i = some t) (hlock : m = .lock → MayLock s t)
    (hm : (move s m t).isSome = true) : (step s (.move i m)).isSome = true := by
  simp [step, hl, if_pos hlock, hm]

/-- A thread in `send_event` or before its write can leave, which frees the dispatcher. -/
theorem holder_moves {s : Service} {j : Nat} {u : Thread} (hl : s.threads.lookup j = some u)
    (hu : Holds .dispatcher u) (hns : u ≠ .stalled) :
    ∃ m, m ≠ .stall ∧ m ≠ .resume ∧ (step s (.move j m)).isSome = true := by
  cases u with
  | callback pid => exact ⟨.sendEvent, by simp, by simp, step_isSome hl (by simp) rfl⟩
  | send => exact ⟨.sendEvent, by simp, by simp, step_isSome hl (by simp) rfl⟩
  | woken => exact ⟨.isWritable false, by simp, by simp, step_isSome hl (by simp) rfl⟩
  | writing => exact ⟨.written, by simp, by simp, step_isSome hl (by simp) rfl⟩
  | stalled => exact absurd rfl hns
  | _ => simp [Holds, Thread.holds] at hu

/-- The holder of the scheduler's mutex can go on, unless it waits for the dispatcher. -/
theorem moves_of_unblocked {s : Service} (h : ¬ HeldUp s) : Moves s := by
  intro i t hl ht
  cases t with
  | create =>
    exact ⟨i, _, .schedule [], hl, Or.inl rfl, by simp, by simp, step_isSome hl (by simp) rfl⟩
  | finish pid =>
    exact ⟨i, _, .find, hl, Or.inl rfl, by simp, by simp, step_isSome hl (by simp) rfl⟩
  | callbackLock pid =>
    by_cases hidle : Idle (Holds .dispatcher) s.threads
    · have hlock : MayLock s (.callbackLock pid) := by
        intro x hx
        cases hx
        exact hidle
      exact ⟨i, _, .lock, hl, Or.inl rfl, by simp, by simp, step_isSome hl (fun _ => hlock) rfl⟩
    · simp only [Idle, not_forall, not_not] at hidle
      obtain ⟨j, u, hj, hu⟩ := hidle
      have hns : u ≠ .stalled := fun heq =>
        h ⟨⟨i, _, hl, (waits_iff _).mpr ⟨pid, rfl⟩⟩, j, u, hj, hu, heq⟩
      obtain ⟨m, hm⟩ := holder_moves hj hu hns
      exact ⟨j, u, m, hj, Or.inr hu, hm⟩
  | callback pid =>
    exact ⟨i, _, .sendEvent, hl, Or.inl rfl, by simp, by simp, step_isSome hl (by simp) rfl⟩
  | finished =>
    exact ⟨i, _, .schedule [], hl, Or.inl rfl, by simp, by simp, step_isSome hl (by simp) rfl⟩
  | _ => simp [Holds, Thread.holds] at ht

theorem not_heldUp_set {s s' : Service} {i : Nat} {o : Option Thread} (hs : ¬ HeldUp s)
    (hthreads : s'.threads = s.threads) (ho : ∀ v, o = some v → ¬ Waits v ∧ v ≠ .stalled) :
    ¬ HeldUp (s'.set i o) := by
  rw [heldUp_iff] at hs ⊢
  rw [set_threads hthreads]
  intro h
  refine hs ⟨?_, ?_⟩
  · exact fun hidle => h.1 (idle_set hidle i fun v hv => (ho v hv).1)
  · exact fun hidle => h.2 (idle_set hidle i fun v hv => (ho v hv).2)

theorem move_find {s s' : Service} {u : Thread} {o : Option Thread}
    (h : move s .find u = some (o, s')) : ∃ pid, u = .finish pid ∧
      o = some (if pid ∈ s.activeJobs then .callbackLock pid else .finished) := by
  cases u with
  | finish pid =>
    simp only [move, Option.some.injEq, Prod.mk.injEq] at h
    exact ⟨pid, rfl, h.1.symm⟩
  | _ => cases h

theorem move_stall {s s' : Service} {u : Thread} {o : Option Thread}
    (h : move s .stall u = some (o, s')) : u = .writing ∧ o = some .stalled := by
  cases u with
  | writing =>
    simp only [move, Option.some.injEq, Prod.mk.injEq] at h
    exact ⟨rfl, h.1.symm⟩
  | _ => cases h

/-- The callback makes a thread wait: that is harmless if no write is stalled. -/
theorem heldUp_find {s s' : Service} {i : Nat} {u : Thread} {o : Option Thread}
    (hs : ¬ HeldUp s) (hl : s.threads.lookup i = some u) (hm : move s .find u = some (o, s')) :
    ¬ HeldUp (s'.set i o) ↔ Apart s (.move i .find) := by
  obtain ⟨pid, rfl, rfl⟩ := move_find hm
  by_cases hp : pid ∈ s.activeJobs
  · have hwaits : ¬ Idle Waits (s.set i (some (.callbackLock pid))).threads :=
      fun h => h i _ (AList.lookup_insert _) ((waits_iff _).mpr ⟨pid, rfl⟩)
    rw [if_pos hp, heldUp_iff, set_threads (move_threads hm), not_and, not_not]
    constructor
    · intro h pid' _ _
      refine idle_of_set (h hwaits) ?_
      intro v hv
      rw [hl, Option.some.injEq] at hv
      simp [← hv]
    · intro h _
      exact idle_set (h pid hl hp) i (by simp)
  · refine iff_of_true (not_heldUp_set hs (move_threads hm) ?_) ?_
    · simp [hp, Waits, Holds, Thread.wants]
    · intro pid' hl' hp'
      rw [hl, Option.some.injEq] at hl'
      cases hl'
      exact absurd hp' hp

/-- A write stalls: that is harmless if no callback waits. -/
theorem heldUp_stall {s s' : Service} {i : Nat} {u : Thread} {o : Option Thread}
    (hl : s.threads.lookup i = some u) (hm : move s .stall u = some (o, s')) :
    ¬ HeldUp (s'.set i o) ↔ Apart s (.move i .stall) := by
  obtain ⟨rfl, rfl⟩ := move_stall hm
  have hstalled : ¬ Idle (fun t => t = .stalled) (s.set i (some .stalled)).threads :=
    fun h => h i _ (AList.lookup_insert _) rfl
  rw [heldUp_iff, set_threads (move_threads hm), not_and', not_not]
  constructor
  · intro h
    refine idle_of_set (h hstalled) ?_
    intro v hv
    rw [hl, Option.some.injEq] at hv
    simp [← hv, Waits, Thread.wants]
  · intro h _
    exact idle_set h i (by simp [Waits, Thread.wants])

theorem heldUp_step {s t : Service} {a : Action} (hs : ¬ HeldUp s) (h : step s a = some t) :
    ¬ HeldUp t ↔ Apart s a := by
  cases a with
  | call i c =>
    obtain ⟨_, rfl⟩ := step_call h
    refine iff_of_true (not_heldUp_set hs rfl ?_) trivial
    intro v hv
    cases hv
    exact ⟨c.outside.1, c.outside.2.1⟩
  | move i m =>
    obtain ⟨u, o, s', hl, _, hm, rfl⟩ := step_move h
    by_cases hfind : m = .find
    · subst hfind
      exact heldUp_find hs hl hm
    · by_cases hstall : m = .stall
      · subst hstall
        exact heldUp_stall hl hm
      · refine iff_of_true (not_heldUp_set hs (move_threads hm) ?_) ?_
        · intro v hv
          subst hv
          exact ⟨fun hw => hfind ((move_spec hm).1 hw).1,
            fun hw => hstall ((move_spec hm).2.1 hw).1⟩
        · cases m with
          | find => exact absurd rfl hfind
          | stall => exact absurd rfl hstall
          | _ => trivial

theorem free_iff (s : Service) : Free s ↔ ¬ HeldUp s :=
  ⟨Free.unblocked, fun h => ⟨h, moves_of_unblocked h⟩⟩

/-- No thread with the scheduler's mutex waits for a stalled subscriber in exactly the runs in which
no write stalls while the callback of `jobFinished` waits, and none is stalled when an active job is
found finished. -/
theorem scheduler_free_iff (as : List Action) (s : Service) (hrun : run step init as = some s) :
    Along step Free init as ↔ Meets step Apart init as := by
  have htrue : ∀ s a t, True → step s a = some t → True := fun _ _ _ _ _ => trivial
  have h0 : Free init := by
    refine (free_iff _).mpr ?_
    intro h
    obtain ⟨⟨i, t, hl, _⟩, _⟩ := h
    cases hl
  have hkeep : ∀ s a t, True → Free s → Apart s a → step s a = some t → Free t :=
    fun _ _ t _ hs hc h => (free_iff t).mpr ((heldUp_step hs.unblocked h).mpr hc)
  have hcond : ∀ s a t, True → Free s → step s a = some t → Free t → Apart s a :=
    fun _ _ _ _ hs h ht => (heldUp_step hs.unblocked h).mp ht.unblocked
  exact along_iff_meets htrue hkeep hcond trivial h0 hrun

/- A job is created and forked as process 7; an event has a subscriber write, which stalls and
goes on again before the job finishes. -/
def sampleRun : List Action :=
  [.call 0 .create, .move 0 .lock, .move 0 (.schedule [(7, 0)]), .call 1 .wait_event,
    .move 1 .lock, .call 2 .send_event, .move 2 .lock, .move 2 .sendEvent, .move 1 .wake,
    .move 1 .lock, .move 1 (.isWritable true), .move 1 .stall, .move 1 .resume,
    .call 3 (.jobFinished 7), .move 3 .lock, .move 3 .find, .move 1 .written, .move 3 .lock,
    .move 3 .sendEvent, .move 3 (.schedule [])]

theorem scheduler_free_sample : ∃ s, run step init sampleRun = some s ∧
    s.activeJobs.keys = [] ∧ s.threads.keys = [] ∧
    (Along step Free init sampleRun ↔ Meets step Apart init sampleRun) :=
  ⟨_, rfl, rfl, rfl, scheduler_free_iff sampleRun _ rfl⟩

/- The same, but the job finishes while the write is stalled, and another one is created. -/
def stalledRun : List Action :=
  [.call 0 .create, .move 0 .lock, .move 0 (.schedule [(7, 0)]), .call 1 .wait_event,
    .move 1 .lock, .call 2 .send_event, .move 2 .lock, .move 2 .sendEvent, .move 1 .wake,
    .move 1 .lock, .move 1 (.isWritable true), .move 1 .stall, .call 3 (.jobFinished 7),
    .move 3 .lock, .move 3 .find, .call 4 .create]

/-- Neither the job that has finished nor the new one gets any further. -/
theorem completion_held_up : ∃ s, run step init stalledRun = some s ∧ HeldUp s ∧ ¬ Free s ∧
    step s (.move 3 .lock) = none ∧ step s (.move 4 .lock) = none := by
  have hup : ∀ s : Service, s.threads.lookup 3 = some (.callbackLock 7) →
      s.threads.lookup 1 = some .stalled → HeldUp s := fun s h3 h1 =>
    ⟨⟨3, _, h3, (waits_iff _).mpr ⟨7, rfl⟩⟩, 1, _, h1, holds_stalled, rfl⟩
  exact ⟨_, rfl, hup _ rfl rfl, fun hfree => hfree.unblocked (hup _ rfl rfl), rfl, rfl⟩

end OpcUaTestTool.LockWaiting
