import OpcUaTestTool.Store

/-! `JobScheduler`: the queue of waiting jobs, the map from the pids of running test runners to
their jobs, and the three functions that move a job between them. `fork` is an input of the step
that calls it, with the meaning of its return value in the source. -/
namespace OpcUaTestTool.JobScheduler
open FiniteMap Numerals Directory Store

structure Event where
  event : Bytes
  data : Bytes
  deriving DecidableEq

structure Scheduler where
  m_workingDir : Bytes
  activeJobs : Map Int Int := ∅
  db : DataBase
  waitQueue : List Int := []
  m_fJobFinished : Bool := false

def maxConcurrentJobs : Nat := 4

/-- A process started by `fork`: its pid and the job whose test runner it becomes. -/
structure Runner where
  pid : Int
  jobId : Int
  deriving DecidableEq

/-- How `schedule` leaves the service process without returning: `exit(EXIT_FAILURE)` after a
failed `fork`, or, in the forked child, `execv` of the test runner with its log as output. -/
inductive Exit where
  | failure
  | execv (log : Bytes) (argv : List Bytes)
  deriving DecidableEq

def Scheduler.argvList (s : Scheduler) (jobId : Int) : List Bytes :=
  [text "./testRunner", s.m_workingDir, s.db.m_jobs_finished_dir, s.db.m_jobs_requests_dir,
    decimal jobId, s.db.m_scriptDir]

/-- `JobScheduler::schedule`: at most one waiting job is started. -/
def Scheduler.schedule (s : Scheduler) (fork : Int) : Except Exit (Scheduler × Option Runner) :=
  match s.waitQueue with
  | [] => .ok (s, none)
  | jobId :: rest =>
    if maxConcurrentJobs ≤ size s.activeJobs then .ok (s, none)
    else if fork = -1 then .error .failure
    else if fork = 0 then .error (.execv (decimal jobId ++ text ".log") (s.argvList jobId))
    else .ok ({ s with waitQueue := rest, activeJobs := s.activeJobs.insert fork jobId },
      some ⟨fork, jobId⟩)

structure Created where
  newJobId : Int
  scheduler : Scheduler
  tree : Tree
  started : Option Runner

/-- `JobScheduler::create` -/
def Scheduler.create (s : Scheduler) (t : Tree) (jsonString : Bytes) (w : Storing) (fork : Int) :
    Except Exit Created :=
  let (newJobId, db, t') := s.db.newJob t jsonString w
  match Scheduler.schedule { s with db := db, waitQueue := s.waitQueue ++ [newJobId] } fork with
  | .error e => .error e
  | .ok (s', started) => .ok ⟨newJobId, s', t', started⟩

structure Finished where
  scheduler : Scheduler
  announced : Option Event
  started : Option Runner

def jobFinishedEvent (jobId : Int) : Event := ⟨text "JobFinishedEvent", decimal jobId⟩

/-- `JobScheduler::jobFinished`. An unknown pid only leads to another attempt to schedule. -/
def Scheduler.jobFinished (s : Scheduler) (id : Int) (fork : Int) : Except Exit Finished :=
  match s.activeJobs.lookup id with
  | some jobId =>
    let event := if s.m_fJobFinished then some (jobFinishedEvent jobId) else none
    match Scheduler.schedule { s with activeJobs := s.activeJobs.erase id } fork with
    | .error e => .error e
    | .ok (s', started) => .ok ⟨s', event, started⟩
  | none =>
    match s.schedule fork with
    | .error e => .error e
    | .ok (s', started) => .ok ⟨s', none, started⟩

/-- The states in which `schedule` reaches `fork`. -/
def Scheduler.Forks (s : Scheduler) : Prop :=
  s.waitQueue ≠ [] ∧ size s.activeJobs < maxConcurrentJobs

instance (s : Scheduler) : Decidable s.Forks := inferInstanceAs (Decidable (_ ∧ _))

/-- Everything a returning `schedule` can do. -/
theorem schedule_cases {s s' : Scheduler} {fork : Int} {started : Option Runner}
    (h : s.schedule fork = .ok (s', started)) :
    (¬ s.Forks ∧ s' = s ∧ started = none) ∨
    (s.Forks ∧ ∃ jobId rest, s.waitQueue = jobId :: rest ∧
      s' = { s with waitQueue := rest, activeJobs := s.activeJobs.insert fork jobId } ∧
      started = some ⟨fork, jobId⟩) := by
  unfold Scheduler.schedule at h
  cases hq : s.waitQueue with
  | nil =>
    simp only [hq, Except.ok.injEq, Prod.mk.injEq] at h
    exact Or.inl ⟨by simp [Scheduler.Forks, hq], h.1.symm, h.2.symm⟩
  | cons jobId rest =>
    simp only [hq] at h
    by_cases hfull : maxConcurrentJobs ≤ size s.activeJobs
    · simp only [if_pos hfull, Except.ok.injEq, Prod.mk.injEq] at h
      refine Or.inl ⟨?_, h.1.symm, h.2.symm⟩
      simp only [Scheduler.Forks, not_and, not_lt]
      intro _
      exact hfull
    · have hforks : s.Forks := ⟨by simp [hq], by omega⟩
      by_cases hfail : fork = -1
      · simp [if_neg hfull, hfail] at h
      · by_cases hchild : fork = 0
        · simp [if_neg hfull, hchild] at h
        · simp only [if_neg hfull, if_neg hfail, if_neg hchild, Except.ok.injEq,
            Prod.mk.injEq] at h
          exact Or.inr ⟨hforks, jobId, rest, rfl, h.1.symm, h.2.symm⟩

/-- `schedule` touches neither the store nor the callback. -/
theorem schedule_frame {s s' : Scheduler} {fork : Int} {started : Option Runner}
    (h : s.schedule fork = .ok (s', started)) :
    s'.db = s.db ∧ s'.m_fJobFinished = s.m_fJobFinished := by
  cases schedule_cases h with
  | inl hcase =>
    obtain ⟨_, he, _⟩ := hcase
    rw [he]
    exact ⟨rfl, rfl⟩
  | inr hcase =>
    obtain ⟨_, jobId, rest, _, he, _⟩ := hcase
    rw [he]
    exact ⟨rfl, rfl⟩

/-- The state in which `create` calls `schedule`. -/
def Scheduler.enqueue (s : Scheduler) (t : Tree) (json : Bytes) (w : Storing) : Scheduler :=
  { s with db := (s.db.newJob t json w).2.1, waitQueue := s.waitQueue ++ [s.db.m_jobId] }

/-- The state in which `jobFinished` calls `schedule`. -/
def Scheduler.release (s : Scheduler) (id : Int) : Scheduler :=
  { s with activeJobs := s.activeJobs.erase id }

theorem create_eq (s : Scheduler) (t : Tree) (json : Bytes) (w : Storing) (fork : Int) :
    s.create t json w fork = ((s.enqueue t json w).schedule fork).map fun r =>
      ⟨s.db.m_jobId, r.1, (s.db.newJob t json w).2.2, r.2⟩ := by
  have hc : s.create t json w fork = match (s.enqueue t json w).schedule fork with
      | .error e => .error e
      | .ok (s', started) =>
        .ok (Created.mk s.db.m_jobId s' (s.db.newJob t json w).2.2 started) := rfl
  rw [hc]
  cases (s.enqueue t json w).schedule fork with
  | error e => rfl
  | ok r => rfl

theorem create_spec {s : Scheduler} {t : Tree} {json : Bytes} {w : Storing} {fork : Int}
    {c : Created} (h : s.create t json w fork = .ok c) :
    c.newJobId = s.db.m_jobId ∧ c.tree = (s.db.newJob t json w).2.2 ∧
      (s.enqueue t json w).schedule fork = .ok (c.scheduler, c.started) := by
  rw [create_eq] at h
  cases hs : (s.enqueue t json w).schedule fork with
  | error e => simp [hs, Except.map] at h
  | ok r =>
    simp only [hs, Except.map, Except.ok.injEq] at h
    subst c
    exact ⟨rfl, rfl, rfl⟩

theorem jobFinished_spec {s : Scheduler} {id fork : Int} {f : Finished}
    (h : s.jobFinished id fork = .ok f) :
    (∃ jobId, s.activeJobs.lookup id = some jobId ∧
      f.announced = (if s.m_fJobFinished then some (jobFinishedEvent jobId) else none) ∧
      (s.release id).schedule fork = .ok (f.scheduler, f.started)) ∨
    (s.activeJobs.lookup id = none ∧ f.announced = none ∧
      s.schedule fork = .ok (f.scheduler, f.started)) := by
  unfold Scheduler.jobFinished at h
  cases hl : s.activeJobs.lookup id with
  | none =>
    simp only [hl] at h
    cases hs : s.schedule fork with
    | error e => simp [hs] at h
    | ok r =>
      simp only [hs, Except.ok.injEq] at h
      subst f
      exact Or.inr ⟨rfl, rfl, rfl⟩
  | some jobId =>
    simp only [hl] at h
    cases hs : (s.release id).schedule fork with
    | error e => simp only [Scheduler.release] at hs; simp [hs] at h
    | ok r =>
      have hs' := hs
      simp only [Scheduler.release] at hs'
      simp only [hs', Except.ok.injEq] at h
      subst f
      exact Or.inl ⟨jobId, rfl, rfl, rfl⟩

theorem release_of_unknown {s : Scheduler} {pid : Int} (h : s.activeJobs.lookup pid = none) :
    s.release pid = s := by
  have hn : pid ∉ s.activeJobs := AList.lookup_eq_none.mp h
  have he : s.activeJobs.erase pid = s.activeJobs := by
    apply AList.ext
    exact List.kerase_of_notMem_keys hn
  simp [Scheduler.release, he]

/-- Whether the pid is known or not, `schedule` is called with its slot released. -/
theorem jobFinished_schedule {s : Scheduler} {id fork : Int} {f : Finished}
    (h : s.jobFinished id fork = .ok f) :
    (s.release id).schedule fork = .ok (f.scheduler, f.started) := by
  cases jobFinished_spec h with
  | inl hcase =>
    obtain ⟨_, _, _, hsch⟩ := hcase
    exact hsch
  | inr hcase =>
    obtain ⟨hl, _, hsch⟩ := hcase
    rw [release_of_unknown hl]
    exact hsch

theorem jobFinished_frame {s : Scheduler} {id fork : Int} {f : Finished}
    (h : s.jobFinished id fork = .ok f) :
    f.scheduler.db = s.db ∧ f.scheduler.m_fJobFinished = s.m_fJobFinished := by
  have hframe := schedule_frame (jobFinished_schedule h)
  exact hframe

/-- An event is announced for a job that was active, if there is a callback. -/
theorem jobFinished_announced {s : Scheduler} {id fork : Int} {f : Finished}
    (h : s.jobFinished id fork = .ok f) : f.announced =
      if s.m_fJobFinished then (s.activeJobs.lookup id).map jobFinishedEvent else none := by
  cases jobFinished_spec h with
  | inl hcase =>
    obtain ⟨jobId, hl, ha, _⟩ := hcase
    rw [ha, hl, Option.map_some]
  | inr hcase =>
    obtain ⟨hl, ha, _⟩ := hcase
    rw [ha, hl, Option.map_none, ite_self]

end OpcUaTestTool.JobScheduler
