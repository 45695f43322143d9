import OpcUaTestTool.Requests
import OpcUaTestTool.Transition

/-! The jobs page: the list of jobs and the log of the selected one, each the answer to a request
that server events, clicks and other answers issue. -/
namespace OpcUaTestTool.JobsPage
open FiniteMap Requests Transition

structure Request where
  name : String
  script : String
  serverUri : String
  deriving DecidableEq, Repr

structure Result where
  id : Int
  statusCode : String
  totalRuntime_ms : Int
  ts_start : Int
  ts_end : Int
  deriving DecidableEq, Repr

structure FinishedJob where
  request : Request
  result : Result
  deriving DecidableEq, Repr

/- The answers are not fields of the component: they are kept for the statements below. -/
structure JobsComponent where
  jobs : List FinishedJob := []
  selectedJob : Option FinishedJob := none
  jobLog : String := ""
  eventLog : String := "empty EventLog"
  getJobs : Channel Unit := {}
  getJobLog : Channel Int := {}
  jobsAnswers : List (Nat × List FinishedJob) := []
  logAnswers : List (Int × String) := []

def JobsComponent.requestJobs (s : JobsComponent) : JobsComponent :=
  { s with getJobs := s.getJobs.issue () }

def JobsComponent.onSelect (s : JobsComponent) (job : FinishedJob) : JobsComponent :=
  { s with selectedJob := some job, getJobLog := s.getJobLog.issue job.result.id }

def JobsComponent.setJobs (s : JobsComponent) (jobs : List FinishedJob) : JobsComponent :=
  match jobs with
  | [] => { s with jobs := [] }
  | job :: rest => { s with jobs := job :: rest }.onSelect job

/- A request that fails changes no field: nothing is subscribed to errors. -/
inductive Action where
  | event (data : String)
  | select (job : FinishedJob)
  | jobsResponse (n : Nat) (jobs : List FinishedJob)
  | jobsFailed (n : Nat)
  | logResponse (n : Nat) (log : String)
  | logFailed (n : Nat)

def step (s : JobsComponent) : Action → Option JobsComponent
  | .event data => some { s with eventLog := data }.requestJobs
  | .select job => if job ∈ s.jobs then some (s.onSelect job) else none
  | .jobsResponse n jobs =>
    (s.getJobs.inFlight.lookup n).map fun _ =>
      { s with
        getJobs := s.getJobs.finish n
        jobsAnswers := s.jobsAnswers ++ [(n, jobs)] }.setJobs jobs
  | .jobsFailed n =>
    (s.getJobs.inFlight.lookup n).map fun _ => { s with getJobs := s.getJobs.finish n }
  | .logResponse n log =>
    (s.getJobLog.inFlight.lookup n).map fun id =>
      { s with
        jobLog := log
        getJobLog := s.getJobLog.finish n
        logAnswers := s.logAnswers ++ [(id, log)] }
  | .logFailed n =>
    (s.getJobLog.inFlight.lookup n).map fun _ => { s with getJobLog := s.getJobLog.finish n }

/-- `ngOnInit` -/
def init : JobsComponent := JobsComponent.requestJobs {}

/-- The list shown is the answer to the request for it issued last. -/
def JobsCurrent (s : JobsComponent) : Prop :=
  ∃ n, n + 1 = s.getJobs.issued ∧ (n, s.jobs) ∈ s.jobsAnswers

/-- The log shown is one that was returned for the selected job. -/
def LogCurrent (s : JobsComponent) : Prop :=
  ∀ job, s.selectedJob = some job → (job.result.id, s.jobLog) ∈ s.logAnswers

def Consistent (s : JobsComponent) : Prop :=
  s.getJobs.inFlight = ∅ → s.getJobLog.inFlight = ∅ → JobsCurrent s ∧ LogCurrent s

/-- Once the request issued last is answered, no list but the one shown and no log but that of the
selected job arrives, and it fails at most where its answer is not needed. -/
def InOrder (s : JobsComponent) : Action → Prop
  | .jobsResponse _ jobs => s.getJobs.Awaiting ∨ jobs = s.jobs
  | .jobsFailed n => n + 1 ≠ s.getJobs.issued
  | .logResponse n _ => s.getJobLog.Awaiting ∨
      ∀ id ∈ s.getJobLog.inFlight.lookup n, ∀ job ∈ s.selectedJob, job.result.id = id
  | .logFailed n => n + 1 ≠ s.getJobLog.issued ∨ LogCurrent s
  | _ => True

instance (s : JobsComponent) : Decidable (LogCurrent s) :=
  decidable_of_iff (∀ job ∈ s.selectedJob, (job.result.id, s.jobLog) ∈ s.logAnswers) Iff.rfl

instance (s : JobsComponent) : (a : Action) → Decidable (InOrder s a)
  | .event _ => isTrue trivial
  | .select _ => isTrue trivial
  | .jobsResponse _ jobs => inferInstanceAs (Decidable (s.getJobs.Awaiting ∨ jobs = s.jobs))
  | .jobsFailed n => inferInstanceAs (Decidable (n + 1 ≠ s.getJobs.issued))
  | .logResponse n _ => inferInstanceAs (Decidable (s.getJobLog.Awaiting ∨
      ∀ id ∈ s.getJobLog.inFlight.lookup n, ∀ job ∈ s.selectedJob, job.result.id = id))
  | .logFailed n => inferInstanceAs (Decidable (n + 1 ≠ s.getJobLog.issued ∨ LogCurrent s))

/- The log request issued last is for the selected job. -/
structure Sane (s : JobsComponent) : Prop where
  jobs : Settled s.getJobs (JobsCurrent s)
  log : Settled s.getJobLog (LogCurrent s)
  asked : ∀ n id, s.getJobLog.inFlight.lookup n = some id → n + 1 = s.getJobLog.issued →
    ∀ job, s.selectedJob = some job → job.result.id = id

theorem sane_init : Sane init := by
  refine ⟨settled_issue _ _ _, Or.inr ?_, ?_⟩
  · intro job hjob
    cases hjob
  · intro n id hl
    cases hl

theorem Sane.consistent {s : JobsComponent} (h : Sane s) : Consistent s :=
  fun hjobs hlog => ⟨h.jobs.of_quiet hjobs, h.log.of_quiet hlog⟩

/-- A selection asks for the log of the job that it selects. -/
theorem Sane.onSelect {s : JobsComponent} (hjobs : Settled s.getJobs (JobsCurrent s))
    (job : FinishedJob) : Sane (s.onSelect job) := by
  refine ⟨hjobs, settled_issue _ _ _, ?_⟩
  intro n id hl hlast job' hjob'
  obtain rfl : n = s.getJobLog.issued := Nat.succ.inj hlast
  simp only [JobsComponent.onSelect, Channel.issue, AList.lookup_insert, Option.some.injEq]
    at hl hjob'
  rw [← hjob', hl]

theorem Sane.finishLog {s : JobsComponent} (hs : Sane s) (n : Nat) :
    ∀ m id, (s.getJobLog.finish n).inFlight.lookup m = some id → m + 1 = s.getJobLog.issued →
      ∀ job, s.selectedJob = some job → job.result.id = id := by
  intro m id hl hlast
  exact hs.asked m id (lookup_erase_eq_some.mp hl).2 hlast

theorem step_select {s t : JobsComponent} {job : FinishedJob} (h : step s (.select job) = some t) :
    job ∈ s.jobs ∧ t = s.onSelect job := by
  by_cases hj : job ∈ s.jobs
  · simp only [step, if_pos hj, Option.some.injEq] at h
    exact ⟨hj, h.symm⟩
  · simp [step, hj] at h

theorem sane_jobsResponse {s t : JobsComponent} {n : Nat} {jobs : List FinishedJob} (hs : Sane s)
    (hc : InOrder s (.jobsResponse n jobs)) (h : step s (.jobsResponse n jobs) = some t) :
    Sane t := by
  simp only [step, Option.map_eq_some_iff] at h
  obtain ⟨_, _, rfl⟩ := h
  have hjobs : Settled (s.getJobs.finish n)
      (∃ m, m + 1 = s.getJobs.issued ∧ (m, jobs) ∈ s.jobsAnswers ++ [(n, jobs)]) := by
    refine hs.jobs.finish n (fun hlast => ⟨n, hlast, by simp⟩) ?_
    intro hna hcur
    obtain ⟨m, hm, hmem⟩ := hcur
    exact ⟨m, hm, List.mem_append_left _ (hc.resolve_left hna ▸ hmem)⟩
  cases jobs with
  | nil => exact ⟨hjobs, hs.log, hs.asked⟩
  | cons job rest => exact Sane.onSelect hjobs job

theorem sane_logResponse {s t : JobsComponent} {n : Nat} {log : String} (hs : Sane s)
    (hc : InOrder s (.logResponse n log)) (h : step s (.logResponse n log) = some t) :
    Sane t := by
  simp only [step, Option.map_eq_some_iff] at h
  obtain ⟨id, hl, rfl⟩ := h
  refine ⟨hs.jobs, hs.log.finish n ?_ ?_, hs.finishLog n⟩
  · intro hlast job hjob
    rw [hs.asked n id hl hlast job hjob]
    simp
  · intro hna _ job hjob
    have hid := hc.resolve_left hna id hl job hjob
    rw [hid]
    simp

theorem sane_step {s t : JobsComponent} {a : Action} (hs : Sane s) (hc : InOrder s a)
    (h : step s a = some t) : Sane t := by
  cases a with
  | event data =>
    cases h
    exact ⟨settled_issue _ _ _, hs.log, hs.asked⟩
  | select job =>
    obtain ⟨_, rfl⟩ := step_select h
    exact Sane.onSelect hs.jobs job
  | jobsResponse n jobs => exact sane_jobsResponse hs hc h
  | jobsFailed n =>
    simp only [step, Option.map_eq_some_iff] at h
    obtain ⟨_, _, rfl⟩ := h
    exact ⟨hs.jobs.finish n (fun hlast => absurd hlast hc) (fun _ hcur => hcur), hs.log, hs.asked⟩
  | logResponse n log => exact sane_logResponse hs hc h
  | logFailed n =>
    simp only [step, Option.map_eq_some_iff] at h
    obtain ⟨_, _, rfl⟩ := h
    refine ⟨hs.jobs, hs.log.finish n ?_ (fun _ hcur => hcur), hs.finishLog n⟩
    intro hlast
    exact hc.resolve_left (fun hne => hne hlast)

/-- In a run in which the answers to the requests issued last are not overwritten by those to
earlier ones, the page is consistent whenever no request is in flight. -/
theorem page_consistent (as : List Action) (hm : Meets step InOrder init as) :
    Along step Consistent init as := by
  have hkeep : ∀ s a t, Sane s → InOrder s a → step s a = some t → Sane t :=
    fun _ _ _ hs hc h => sane_step hs hc h
  exact along_of_invariant hkeep (fun _ h => h.consistent) sane_init hm

def finished (id : Int) : FinishedJob :=
  ⟨⟨"myJob", "a.lua", "opc.tcp://localhost:9888"⟩, ⟨id, "Good", 1, 0, 1⟩⟩

/- The answers to the first requests come late, but before those to the last ones. -/
def sampleRun : List Action :=
  [.event "\x7b\x7d", .jobsResponse 0 [finished 1], .jobsResponse 1 [finished 2, finished 1],
    .select (finished 1), .logResponse 1 "two", .logResponse 0 "one", .logResponse 2 "one"]

theorem page_consistent_sample : ∃ s, run step init sampleRun = some s ∧
    s.jobs = [finished 2, finished 1] ∧ s.jobLog = "one" ∧
    s.getJobs.inFlight.keys = [] ∧ s.getJobLog.inFlight.keys = [] ∧
    Along step Consistent init sampleRun := by
  refine ⟨_, rfl, rfl, rfl, rfl, rfl, page_consistent sampleRun ?_⟩
  decide

/- The first request is answered after the second. -/
def overtaken : List Action :=
  [.event "\x7b\x7d", .jobsResponse 1 [finished 2, finished 1], .logResponse 0 "two",
    .jobsResponse 0 [finished 1], .logResponse 1 "one"]

theorem older_list_shown : ∃ s, run step init overtaken = some s ∧ s.jobs = [finished 1] ∧
    s.jobsAnswers = [(1, [finished 2, finished 1]), (0, [finished 1])] ∧ ¬ Consistent s := by
  refine ⟨_, rfl, rfl, rfl, ?_⟩
  intro h
  obtain ⟨n, hn, hmem⟩ := (h rfl rfl).1
  obtain rfl : n = 1 := Nat.succ.inj hn
  revert hmem
  decide

end OpcUaTestTool.JobsPage
