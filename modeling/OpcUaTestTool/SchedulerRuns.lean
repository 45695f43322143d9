import OpcUaTestTool.FifoSlots
import OpcUaTestTool.JobScheduler
import OpcUaTestTool.Transition

/-! Runs of the scheduler: any sequence of `create` and `jobFinished` calls, with any pids.
Each call refines one round of a first-in first-out queue in front of four slots. -/
namespace OpcUaTestTool.SchedulerRuns
open FiniteMap Numerals Directory Store JobScheduler FifoSlots Transition

/-- A call with what its environment answers: the fate of the request file, and the value
`fork` returns should `schedule` reach it. -/
inductive Call where
  | create (json : Bytes) (w : Storing) (fork : Int)
  | jobFinished (pid : Int) (fork : Int)

/- The scheduler with everything it has done so far, oldest first. `finished` are the jobs whose
pid was active when `jobFinished` was called with it. -/
structure History where
  scheduler : Scheduler
  tree : Tree
  created : List Int := []
  started : List Int := []
  finished : List Int := []
  announced : List Event := []

def History.init (workingDir : Bytes) (db : DataBase) (tree : Tree) (callback : Bool) : History :=
  { scheduler := { m_workingDir := workingDir, db := db, m_fJobFinished := callback }
    tree := tree }

/-- `fork` succeeds in the parent, with a pid that no active job has. -/
def ForkOk (s : Scheduler) (fork : Int) : Prop := s.Forks → 0 < fork ∧ fork ∉ s.activeJobs

instance (s : Scheduler) (fork : Int) : Decidable (ForkOk s fork) :=
  inferInstanceAs (Decidable (_ → _))

def startedJobs (started : Option Runner) : List Int := (started.map Runner.jobId).toList

def step (h : History) : Call → Option History
  | .create json w fork =>
    if ForkOk (h.scheduler.enqueue h.tree json w) fork then
      match h.scheduler.create h.tree json w fork with
      | .error _ => none
      | .ok c => some
        { h with
          scheduler := c.scheduler
          tree := c.tree
          created := h.created ++ [c.newJobId]
          started := h.started ++ startedJobs c.started }
    else none
  | .jobFinished pid fork =>
    if ForkOk (h.scheduler.release pid) fork then
      match h.scheduler.jobFinished pid fork with
      | .error _ => none
      | .ok f => some
        { h with
          scheduler := f.scheduler
          started := h.started ++ startedJobs f.started
          finished := h.finished ++ (h.scheduler.activeJobs.lookup pid).toList
          announced := h.announced ++ f.announced.toList }
    else none

/-- The jobs of a scheduler as items of a queue with slots. -/
def view (s : Scheduler) (created started finished : List Int) : Slots Int :=
  { submitted := created, started := started, waiting := s.waitQueue,
    running := values s.activeJobs, finished := finished }

def History.slots (h : History) : Slots Int :=
  view h.scheduler h.created h.started h.finished

/-- `schedule` fills one slot. -/
theorem schedule_fill {s s' : Scheduler} {fork : Int} {started : Option Runner}
    (hf : ForkOk s fork) (h : s.schedule fork = .ok (s', started)) (cr st fi : List Int) :
    view s' cr (st ++ startedJobs started) fi = (view s cr st fi).fill maxConcurrentJobs := by
  cases schedule_cases h with
  | inl hcase =>
    obtain ⟨hn, he, hst⟩ := hcase
    subst s' started
    cases hq : s.waitQueue with
    | nil => simp [view, Slots.fill, hq, startedJobs]
    | cons jobId rest =>
      have hfull : ¬ size s.activeJobs < maxConcurrentJobs := fun hlt => hn ⟨by simp [hq], hlt⟩
      simp [view, Slots.fill, hq, startedJobs, length_values, hfull]
  | inr hcase =>
    obtain ⟨hforks, jobId, rest, hq, he, hst⟩ := hcase
    subst s' started
    have hnew := (hf hforks).2
    simp [view, Slots.fill, Slots.start, hq, startedJobs, length_values, hforks.2,
      values_insert _ hnew]

theorem step_create {h h' : History} {json : Bytes} {w : Storing} {fork : Int}
    (hs : step h (.create json w fork) = some h') :
    ForkOk (h.scheduler.enqueue h.tree json w) fork ∧
      ∃ c, h.scheduler.create h.tree json w fork = .ok c ∧
        h' = { h with
          scheduler := c.scheduler
          tree := c.tree
          created := h.created ++ [c.newJobId]
          started := h.started ++ startedJobs c.started } := by
  simp only [step] at hs
  by_cases hf : ForkOk (h.scheduler.enqueue h.tree json w) fork
  · simp only [if_pos hf] at hs
    cases hc : h.scheduler.create h.tree json w fork with
    | error e => simp [hc] at hs
    | ok c =>
      simp only [hc, Option.some.injEq] at hs
      exact ⟨hf, c, rfl, hs.symm⟩
  · simp [hf] at hs

theorem step_jobFinished {h h' : History} {pid fork : Int}
    (hs : step h (.jobFinished pid fork) = some h') :
    ForkOk (h.scheduler.release pid) fork ∧
      ∃ f, h.scheduler.jobFinished pid fork = .ok f ∧
        h' = { h with
          scheduler := f.scheduler
          started := h.started ++ startedJobs f.started
          finished := h.finished ++ (h.scheduler.activeJobs.lookup pid).toList
          announced := h.announced ++ f.announced.toList } := by
  simp only [step] at hs
  by_cases hf : ForkOk (h.scheduler.release pid) fork
  · simp only [if_pos hf] at hs
    cases hc : h.scheduler.jobFinished pid fork with
    | error e => simp [hc] at hs
    | ok f =>
      simp only [hc, Option.some.injEq] at hs
      exact ⟨hf, f, rfl, hs.symm⟩
  · simp [hf] at hs

/-- Every call is one round of the queue with four slots. -/
theorem step_round {h h' : History} {c : Call} (hs : step h c = some h') :
    h.slots.Round maxConcurrentJobs h'.slots := by
  cases c with
  | create json w fork =>
    obtain ⟨hf, c, hc, rfl⟩ := step_create hs
    obtain ⟨hid, _, hsch⟩ := create_spec hc
    have hfill := schedule_fill hf hsch (h.created ++ [c.newJobId]) h.started h.finished
    have hround := Slots.Round.submit (k := maxConcurrentJobs) (s := h.slots) c.newJobId
    have hq : h.slots.enqueue c.newJobId =
        view (h.scheduler.enqueue h.tree json w) (h.created ++ [c.newJobId]) h.started
          h.finished := by
      simp [History.slots, view, Slots.enqueue, Scheduler.enqueue, hid]
    rw [hq, ← hfill] at hround
    exact hround
  | jobFinished pid fork =>
    obtain ⟨hf, f, hc, rfl⟩ := step_jobFinished hs
    cases jobFinished_spec hc with
    | inl hcase =>
      obtain ⟨jobId, hl, _, hsch⟩ := hcase
      have hfill := schedule_fill hf hsch h.created h.started (h.finished ++ [jobId])
      have hround := Slots.Round.finish (k := maxConcurrentJobs) (s := h.slots) jobId
        (values (h.scheduler.activeJobs.erase pid)) (values_erase hl)
      have hr : h.slots.release jobId (values (h.scheduler.activeJobs.erase pid)) =
          view (h.scheduler.release pid) h.created h.started (h.finished ++ [jobId]) := rfl
      rw [hr, ← hfill] at hround
      simpa [History.slots, hl] using hround
    | inr hcase =>
      obtain ⟨hl, _, hsch⟩ := hcase
      rw [release_of_unknown hl] at hf
      have hfill := schedule_fill hf hsch h.created h.started h.finished
      have hround := Slots.Round.retry (k := maxConcurrentJobs) (s := h.slots)
      have hv : h.slots = view h.scheduler h.created h.started h.finished := rfl
      rw [hv, ← hfill] at hround
      simpa [History.slots, hl] using hround

/-- The `i`-th id handed out by a counter that started at `first`. -/
def nthId (first : Int) (i : Nat) : Int := if i = 0 then first else int32 (first + i)

theorem int32_nthId (first : Int) (i : Nat) :
    int32 (nthId first i + 1) = nthId first (i + 1) := by
  cases i with
  | zero => simp [nthId]
  | succ i =>
    simp only [nthId, Nat.add_eq_zero_iff, one_ne_zero, and_false, if_false, int32_add]
    congr 1
    push_cast
    omega

theorem nthId_inj {first : Int} {i j : Nat} (hij : i < j) (hj : j < 4294967296) :
    nthId first i ≠ nthId first j := by
  intro h
  have hj0 : j ≠ 0 := by omega
  cases i with
  | zero =>
    simp only [nthId, if_true, if_neg hj0] at h
    have hin : InInt first := by
      rw [h]
      exact int32_inInt _
    obtain ⟨k, hk⟩ := (int32_eq_int32_iff _ _).mp ((int32_eq_self hin).trans h)
    omega
  | succ i =>
    simp only [nthId, Nat.add_eq_zero_iff, one_ne_zero, and_false, if_false, if_neg hj0] at h
    rw [int32_eq_int32_iff] at h
    obtain ⟨k, hk⟩ := h
    push_cast at hk
    omega

/-- What holds after any run from a fresh scheduler whose counter stands at `first`. -/
structure Consistent (first : Int) (callback : Bool) (h : History) : Prop where
  ordered : h.slots.Ordered maxConcurrentJobs
  busy : h.slots.Busy maxConcurrentJobs
  ids : h.created = (List.range h.created.length).map (nthId first)
  counter : h.scheduler.db.m_jobId = nthId first h.created.length
  callbackSet : h.scheduler.m_fJobFinished = callback
  events : h.announced = if callback then h.finished.map jobFinishedEvent else []

theorem consistent_init (workingDir : Bytes) (db : DataBase) (tree : Tree) (callback : Bool) :
    Consistent db.m_jobId callback (History.init workingDir db tree callback) := by
  constructor
  · constructor <;> simp [History.init, History.slots, view]
  · exact Or.inl rfl
  · rfl
  · rfl
  · rfl
  · simp [History.init]

theorem Consistent.step {first : Int} {callback : Bool} {h h' : History} {c : Call}
    (hi : Consistent first callback h) (hs : step h c = some h') :
    Consistent first callback h' := by
  have hround := step_round hs
  have hordered := hround.ordered hi.ordered
  have hbusy := hround.busy hi.ordered hi.busy
  cases c with
  | create json w fork =>
    obtain ⟨_, c, hc, rfl⟩ := step_create hs
    obtain ⟨hid, _, hsch⟩ := create_spec hc
    obtain ⟨hdb, hcb⟩ := schedule_frame hsch
    constructor
    · exact hordered
    · exact hbusy
    · have hlast : c.newJobId = nthId first h.created.length := hid.trans hi.counter
      simp only [List.length_append, List.length_singleton, List.range_succ, List.map_append,
        List.map_cons, List.map_nil, ← hi.ids, hlast]
    · simp only [hdb, Scheduler.enqueue, DataBase.newJob_m_jobId, hi.counter, int32_nthId,
        List.length_append, List.length_singleton]
    · exact hcb.trans hi.callbackSet
    · exact hi.events
  | jobFinished pid fork =>
    obtain ⟨_, f, hc, rfl⟩ := step_jobFinished hs
    obtain ⟨hdb, hcb⟩ := jobFinished_frame hc
    have ha := jobFinished_announced hc
    rw [hi.callbackSet] at ha
    constructor
    · exact hordered
    · exact hbusy
    · exact hi.ids
    · exact (congrArg DataBase.m_jobId hdb).trans hi.counter
    · exact hcb.trans hi.callbackSet
    · cases callback with
      | false => simp [ha, hi.events]
      | true => cases hl : h.scheduler.activeJobs.lookup pid <;> simp [ha, hl, hi.events]

theorem consistent_run {workingDir : Bytes} {db : DataBase} {tree : Tree} {callback : Bool}
    {calls : List Call} {h : History}
    (hrun : run step (History.init workingDir db tree callback) calls = some h) :
    Consistent db.m_jobId callback h :=
  run_invariant (fun _ _ _ hi hs => hi.step hs) (consistent_init workingDir db tree callback) hrun

theorem Consistent.nodup {first : Int} {callback : Bool} {h : History}
    (hi : Consistent first callback h) (hlt : h.created.length < 2147483648) :
    h.created.Nodup := by
  rw [hi.ids]
  apply List.Nodup.map_on _ List.nodup_range
  intro i hi' j hj' he
  rw [List.mem_range] at hi' hj'
  rcases Nat.lt_trichotomy i j with hij | hij | hij
  · exact absurd he (nthId_inj hij (by omega))
  · exact hij
  · exact absurd he.symm (nthId_inj hij (by omega))

/-- Every id waits, is active or has finished. -/
theorem Consistent.partition {first : Int} {callback : Bool} {h : History}
    (hi : Consistent first callback h) :
    h.created.Perm
      (h.finished ++ values h.scheduler.activeJobs ++ h.scheduler.waitQueue) := by
  have hf : h.created = h.started ++ h.scheduler.waitQueue := hi.ordered.fifo
  have hp : h.started.Perm (h.finished ++ values h.scheduler.activeJobs) := hi.ordered.partition
  rw [hf]
  exact hp.append_right h.scheduler.waitQueue

theorem jobFinishedEvent_injective : Function.Injective jobFinishedEvent := by
  intro i j h
  exact decimal_injective (congrArg Event.data h)

/-- What `schedule` does keeps the entries of the active jobs. -/
theorem schedule_keeps {s s' : Scheduler} {fork : Int} {started : Option Runner}
    (hf : ForkOk s fork) (h : s.schedule fork = .ok (s', started)) {p jobId : Int}
    (hl : s.activeJobs.lookup p = some jobId) : s'.activeJobs.lookup p = some jobId := by
  cases schedule_cases h with
  | inl hcase =>
    obtain ⟨_, he, _⟩ := hcase
    rw [he]
    exact hl
  | inr hcase =>
    obtain ⟨hforks, jobId', rest, _, he, _⟩ := hcase
    rw [he]
    exact lookup_insert_fresh (hf hforks).2 hl

theorem Consistent.announced {first : Int} {h : History} (hi : Consistent first true h) :
    h.announced = h.finished.map jobFinishedEvent := by
  simpa using hi.events

/-- The places of an id in the scheduler, counted. -/
theorem Consistent.count_created {first : Int} {h : History} (hi : Consistent first true h)
    (id : Int) : h.created.count id =
      h.announced.count (jobFinishedEvent id) + (values h.scheduler.activeJobs).count id +
        h.scheduler.waitQueue.count id := by
  rw [hi.partition.count_eq, List.count_append, List.count_append, hi.announced,
    List.count_map_of_injective _ jobFinishedEvent jobFinishedEvent_injective]

theorem Consistent.announced_started {first : Int} {h : History} (hi : Consistent first true h)
    {e : Event} (he : e ∈ h.announced) :
    ∃ id ∈ h.started, id ∈ h.created ∧ e = jobFinishedEvent id := by
  rw [hi.announced, List.mem_map] at he
  obtain ⟨id, hid, rfl⟩ := he
  have hstarted : id ∈ h.started := hi.ordered.partition.mem_iff.mpr (List.mem_append_left _ hid)
  have hf : h.created = h.started ++ h.scheduler.waitQueue := hi.ordered.fifo
  refine ⟨id, hstarted, ?_, rfl⟩
  rw [hf]
  exact List.mem_append_left _ hstarted

/-- A report of a pid that is not active: nothing is announced, and no job stops being active. -/
theorem jobFinished_unknown {h h' : History} {pid fork : Int}
    (hpid : pid ∉ h.scheduler.activeJobs) (hs : step h (.jobFinished pid fork) = some h') :
    h'.announced = h.announced ∧ ∀ p id, h.scheduler.activeJobs.lookup p = some id →
      h'.scheduler.activeJobs.lookup p = some id := by
  obtain ⟨hf, f, hc, rfl⟩ := step_jobFinished hs
  have hnone := AList.lookup_eq_none.mpr hpid
  have hsch := jobFinished_schedule hc
  rw [release_of_unknown hnone] at hf hsch
  refine ⟨?_, fun p id hl => schedule_keeps hf hsch hl⟩
  simp [jobFinished_announced hc, hnone]

/-- Every id handed out is in exactly one place, nothing else is held or announced, and a
`jobFinished` call with an unknown pid removes nothing and announces nothing. -/
theorem every_id_in_one_place (workingDir : Bytes) (db : DataBase) (tree : Tree)
    (calls : List Call) (h : History)
    (hrun : run step (History.init workingDir db tree true) calls = some h)
    (hlt : h.created.length < 2147483648) :
    h.created.Nodup ∧
    (∀ id ∈ h.created, h.scheduler.waitQueue.count id +
      (values h.scheduler.activeJobs).count id +
      h.announced.count (jobFinishedEvent id) = 1) ∧
    (∀ id, id ∉ h.created → id ∉ h.scheduler.waitQueue ∧
      id ∉ values h.scheduler.activeJobs ∧ jobFinishedEvent id ∉ h.announced) ∧
    (∀ e ∈ h.announced, ∃ id ∈ h.started, id ∈ h.created ∧ e = jobFinishedEvent id) ∧
    (∀ pid fork h', pid ∉ h.scheduler.activeJobs →
      step h (.jobFinished pid fork) = some h' →
      h'.announced = h.announced ∧ ∀ p id, h.scheduler.activeJobs.lookup p = some id →
        h'.scheduler.activeJobs.lookup p = some id) := by
  have hi := consistent_run hrun
  have hnodup := hi.nodup hlt
  refine ⟨hnodup, ?_, ?_, fun e he => hi.announced_started he,
    fun pid fork h' hpid hs => jobFinished_unknown hpid hs⟩
  · intro id hid
    have hone := List.count_eq_one_of_mem hnodup hid
    have hcount := hi.count_created id
    omega
  · intro id hid
    have hzero := List.count_eq_zero_of_not_mem hid
    have hcount := hi.count_created id
    refine ⟨?_, ?_, ?_⟩ <;> apply List.count_eq_zero.mp <;> omega

/- Six jobs, of which four start; then a spurious finish, the REPL's pid, and a real one. -/
def sampleCalls : List Call :=
  [.create [] .stored 11, .create [] .stored 12, .create [] .stored 13, .create [] .stored 14,
    .create [] .stored 15, .create [] .notOpened 15, .jobFinished (-1) 15, .jobFinished 10 15,
    .jobFinished 12 12]

theorem every_id_in_one_place_sample : ∃ h,
    run step (History.init (text "/opt") emptyStore.1 emptyStore.2 true) sampleCalls = some h ∧
    h.created = [0, 1, 2, 3, 4, 5] ∧
    (∀ id ∈ h.created, h.scheduler.waitQueue.count id +
      (values h.scheduler.activeJobs).count id +
      h.announced.count (jobFinishedEvent id) = 1) :=
  ⟨_, rfl, rfl, (every_id_in_one_place (text "/opt") emptyStore.1 emptyStore.2 sampleCalls _ rfl
    (by decide)).2.1⟩

/-- With `C` ids created and `F` active pids finished, exactly the first `min C (F + 4)` ids
have been started, in the order of their creation, and no slot is idle beside a waiting job. -/
theorem jobs_start_in_order (workingDir : Bytes) (db : DataBase) (tree : Tree) (callback : Bool)
    (calls : List Call) (h : History)
    (hrun : run step (History.init workingDir db tree callback) calls = some h) :
    h.started = h.created.take (min h.created.length (h.finished.length + 4)) ∧
    h.created = h.started ++ h.scheduler.waitQueue ∧
    size h.scheduler.activeJobs ≤ maxConcurrentJobs ∧
    (h.scheduler.waitQueue ≠ [] → size h.scheduler.activeJobs = maxConcurrentJobs) := by
  have hi := consistent_run hrun
  have hsize : size h.scheduler.activeJobs = h.slots.running.length :=
    (length_values h.scheduler.activeJobs).symm
  refine ⟨Slots.started_eq_take hi.ordered hi.busy, hi.ordered.fifo, ?_, ?_⟩
  · rw [hsize]
    exact hi.ordered.bound
  · intro hq
    cases hi.busy with
    | inl hw => exact absurd hw hq
    | inr hk => rw [hsize, hk]

theorem jobs_start_in_order_sample : ∃ h,
    run step (History.init (text "/opt") emptyStore.1 emptyStore.2 false) sampleCalls = some h ∧
    h.finished = [1] ∧
    h.started = h.created.take (min h.created.length (h.finished.length + 4)) :=
  ⟨_, rfl, rfl, (jobs_start_in_order (text "/opt") emptyStore.1 emptyStore.2 false sampleCalls _
    rfl).1⟩

end OpcUaTestTool.SchedulerRuns
