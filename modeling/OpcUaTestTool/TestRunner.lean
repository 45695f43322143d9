import OpcUaTestTool.JobScheduler
import OpcUaTestTool.JsonValues

/-! The test runner: `main` builds the job from the request file, executes it, and adds the
result. `json::parse` and the output of a JSON value are the parameters `parse` (`none` where it
throws) and `dump`; how the connection, the libraries and the script behave is the `Execution`. -/
namespace OpcUaTestTool.TestRunner
open FiniteMap Numerals Directory Store JobScheduler JsonValues

inductive JobStatus where
  | init
  | pending
  | running
  | finished
  | aborted
  deriving DecidableEq

/- The times are ticks of the system clock. The runtime, a `double`, is taken as exact. -/
structure Job where
  m_status : JobStatus := .init
  m_name : Bytes
  m_serverUri : Bytes
  totalRuntime_ms : ℚ := 0
  start : Int := 0
  stop : Int := 0
  m_scriptDir : Bytes
  m_script : Bytes

/- What `Runtime::load` and `Runtime::eval` may throw. -/
inductive Exception where
  | opcException
  | standard

/- How load and eval of the script end, and what the clocks show before and after eval. -/
structure Execution where
  load : Option Exception
  eval : Option Exception
  system_start : Int
  system_stop : Int
  steady_start : Int
  steady_stop : Int

/-- `Job::execute`. Both handlers abort the job. -/
def Job.execute (job : Job) (e : Execution) : Job :=
  match e.load with
  | some _ => { job with m_status := .aborted }
  | none =>
    let job := { job with start := e.system_start, m_status := .running }
    match e.eval with
    | some _ => { job with m_status := .aborted }
    | none =>
      { job with
        stop := e.system_stop
        totalRuntime_ms := (e.steady_stop - e.steady_start : Int) / 1000000
        m_status := .finished }

def statusCode (status : JobStatus) : Bytes :=
  if status ≠ .finished then text "Error" else text "Ok"

def Job.result (job : Job) (id : Int) : Json :=
  .object (setMember (text "statusCode") (.string (statusCode job.m_status))
    (ofPairs [(text "id", .integer id),
      (text "ts_start", .integer job.start),
      (text "ts_stop", .integer job.stop),
      (text "totalRuntime_ms", .float job.totalRuntime_ms)]))

/-- The `output` of `Job::addResult`. -/
def Job.output (job : Job) (id : Int) (request : Json) : Json :=
  .object (setMember (text "request") request (setMember (text "result") (job.result id) []))

/-- Reading a whole file through `std::ifstream`: of all paths below the root directory only those
of request files are read. One that cannot be opened reads as no bytes. -/
def readFile (root : Bytes) (t : Tree) (path : Bytes) : Bytes :=
  match (root ++ text "/jobs/requests" ++ text "/").isPrefixOf? path with
  | some name => (t.requests.bind (AList.lookup name)).getD []
  | none => []

/-- Writing a whole file through `std::ofstream`: only result files are written. -/
def writeFile (root : Bytes) (t : Tree) (path content : Bytes) (w : Storing) : Tree :=
  match (root ++ text "/jobs/finished" ++ text "/").isPrefixOf? path with
  | some name =>
    match t.finished with
    | some finished => t.setFinished (store finished name content w)
    | none => t
  | none => t

variable (parse : Bytes → Option Json) (dump : Json → Bytes) (root : Bytes)

/-- `JobFactory::createFromFile` -/
def createFromFile (t : Tree) (path scriptDir : Bytes) : Option Job := do
  let j ← parse (readFile root t path)
  let name ← (← j.at (text "name")).getString
  let serverUri ← (← j.at (text "serverUri")).getString
  let scriptName ← (← j.at (text "script")).getString
  some {
    m_name := name
    m_serverUri := serverUri
    m_scriptDir := scriptDir
    m_script := scriptName }

/-- `Job::addResult` -/
def Job.addResult (job : Job) (t : Tree) (inputFile outputFile : Bytes) (id : Int) (w : Storing) :
    Option Tree := do
  let j ← parse (readFile root t inputFile)
  some (writeFile root t outputFile (dump (job.output id j)) w)

/- How the process ends: it returns from `main`, or an exception leaves `main`. -/
inductive Termination where
  | returned (code : Int)
  | terminated
  deriving DecidableEq

structure Ended where
  termination : Termination
  tree : Tree

def main (argv : List Bytes) (t : Tree) (e : Execution) (w : Storing) : Ended :=
  match argv with
  | [_, _, finishedDir, requestsDir, jobName, scriptDir] =>
    let requestFile := requestsDir ++ text "/" ++ jobName
    match createFromFile parse root t requestFile scriptDir with
    | none => ⟨.terminated, t⟩
    | some job =>
      match stoi jobName with
      | none => ⟨.terminated, t⟩
      | some id =>
        match (job.execute e).addResult parse dump root t requestFile
            (finishedDir ++ text "/" ++ jobName) id w with
        | none => ⟨.terminated, t⟩
        | some t' => ⟨.returned 0, t'⟩
  | _ => ⟨.returned 1, t⟩

/-- The text of a request file; nothing if it is missing. -/
def requestText (t : Tree) (id : Int) : Bytes :=
  (t.requests.bind (AList.lookup (decimal id))).getD []

/-- A JSON value from which a job can be built. -/
def IsJobRequest (j : Json) : Prop :=
  ∃ name serverUri script, j.at (text "name") = some (.string name) ∧
    j.at (text "serverUri") = some (.string serverUri) ∧
    j.at (text "script") = some (.string script)

/-- A result record of a job. -/
def IsResult (id : Int) (record : Json) : Prop :=
  ∃ result, record.at (text "result") = some result ∧ result.at (text "id") = some (.integer id) ∧
    (result.at (text "statusCode") = some (.string (text "Ok")) ∨
      result.at (text "statusCode") = some (.string (text "Error")))

def HasResult (t : Tree) (id : Int) : Prop :=
  ∃ record, IsResult id record ∧
    t.finished.bind (AList.lookup (decimal id)) = some (dump record)

/-- The directories the constructor derives from the root directory. -/
def Rooted (db : DataBase) (root : Bytes) : Prop :=
  db.m_jobs_requests_dir = root ++ text "/jobs/requests" ∧
    db.m_jobs_finished_dir = root ++ text "/jobs/finished"

theorem rooted_construct (root repo : Bytes) (t : Tree) (cloned : Option Repo) :
    Rooted (DataBase.construct root repo t cloned).1 root := by
  cases h : t.jobs with
  | none => simp [Rooted, DataBase.construct, h]
  | some jobs => simp [Rooted, DataBase.construct, h]

theorem getString_eq_some {j : Json} {s : Bytes} : j.getString = some s ↔ j = .string s := by
  cases j <;> simp [Json.getString]

variable {parse dump root}

theorem createFromFile_eq_some {t : Tree} {path scriptDir : Bytes} {job : Job} :
    createFromFile parse root t path scriptDir = some job ↔
      ∃ j name serverUri script, parse (readFile root t path) = some j ∧
        j.at (text "name") = some (.string name) ∧
        j.at (text "serverUri") = some (.string serverUri) ∧
        j.at (text "script") = some (.string script) ∧
        { m_name := name, m_serverUri := serverUri, m_scriptDir := scriptDir,
          m_script := script } = job := by
  simp only [createFromFile, bind, Option.bind_eq_some_iff, getString_eq_some, Option.some.injEq]
  constructor
  · rintro ⟨j, hj, _, hn, name, rfl, _, hu, uri, rfl, _, hs, script, rfl, rfl⟩
    exact ⟨j, name, uri, script, hj, hn, hu, hs, rfl⟩
  · rintro ⟨j, name, uri, script, hj, hn, hu, hs, rfl⟩
    exact ⟨j, hj, _, hn, name, rfl, _, hu, uri, rfl, _, hs, script, rfl, rfl⟩

theorem readFile_request (root : Bytes) (t : Tree) (id : Int) :
    readFile root t (root ++ text "/jobs/requests" ++ text "/" ++ decimal id) =
      requestText t id := by
  have hname : (root ++ text "/jobs/requests" ++ text "/").isPrefixOf?
      (root ++ text "/jobs/requests" ++ text "/" ++ decimal id) = some (decimal id) :=
    List.isPrefixOf?_eq_some_iff_append_eq.mpr rfl
  simp only [readFile, hname, requestText]

theorem writeFile_result {t : Tree} {finished : Dir} (h : t.finished = some finished) (id : Int)
    (content : Bytes) (w : Storing) :
    writeFile root t (root ++ text "/jobs/finished" ++ text "/" ++ decimal id) content w =
      t.setFinished (store finished (decimal id) content w) := by
  have hname : (root ++ text "/jobs/finished" ++ text "/").isPrefixOf?
      (root ++ text "/jobs/finished" ++ text "/" ++ decimal id) = some (decimal id) :=
    List.isPrefixOf?_eq_some_iff_append_eq.mpr rfl
  simp only [writeFile, hname, h]

theorem isResult_output (job : Job) (id : Int) (request : Json) :
    IsResult id (job.output id request) := by
  refine ⟨job.result id, ?_, ?_, ?_⟩
  · rw [Job.output, Json.at, lookup_setMember_ne (by decide), lookup_setMember_self]
  · rw [Job.result, Json.at, lookup_setMember_ne (by decide)]
    rfl
  · simp only [Job.result, Json.at, lookup_setMember_self, statusCode]
    by_cases h : job.m_status = .finished
    · simp [h]
    · simp [h]

/-- The request file of a job holds a request. -/
def Requested (parse : Bytes → Option Json) (t : Tree) (id : Int) : Prop :=
  ∃ j, parse (requestText t id) = some j ∧ IsJobRequest j

/-- A runner with a request writes the result of the job it executed and returns. -/
theorem main_of_requested (dump : Json → Bytes) {s : Scheduler} {t : Tree} {id : Int}
    {finished : Dir} (hdb : Rooted s.db root) (hid : InInt id)
    (hfinished : t.finished = some finished)
    (e : Execution) (w : Storing) (h : Requested parse t id) :
    ∃ job j, parse (requestText t id) = some j ∧
      main parse dump root (s.argvList id) t e w =
        ⟨.returned 0, t.setFinished
          (store finished (decimal id) (dump ((Job.execute job e).output id j)) w)⟩ := by
  obtain ⟨j, hj, name, serverUri, script, hn, hu, hs⟩ := h
  have hread := readFile_request root t id
  obtain ⟨job, hcreate⟩ : ∃ job, createFromFile parse root t
      (root ++ text "/jobs/requests" ++ text "/" ++ decimal id) s.db.m_scriptDir = some job :=
    ⟨_, createFromFile_eq_some.mpr ⟨j, name, serverUri, script, hread ▸ hj, hn, hu, hs, rfl⟩⟩
  refine ⟨job, j, hj, ?_⟩
  simp only [main, Scheduler.argvList, hdb.1, hdb.2, hcreate, stoi_decimal hid, Job.addResult,
    hread, hj, bind, Option.bind_some, writeFile_result hfinished]

/-- A runner without one is terminated before it executes anything. -/
theorem main_of_not_requested {s : Scheduler} {t : Tree} {id : Int} (hdb : Rooted s.db root)
    (e : Execution) (w : Storing) (h : ¬ Requested parse t id) :
    main parse dump root (s.argvList id) t e w = ⟨.terminated, t⟩ := by
  have hcreate : createFromFile parse root t
      (root ++ text "/jobs/requests" ++ text "/" ++ decimal id) s.db.m_scriptDir = none := by
    apply Option.eq_none_iff_forall_ne_some.mpr
    intro job hjob
    obtain ⟨j, name, serverUri, script, hj, hn, hu, hs, _⟩ := createFromFile_eq_some.mp hjob
    rw [readFile_request] at hj
    exact h ⟨j, hj, name, serverUri, script, hn, hu, hs⟩
  simp only [main, Scheduler.argvList, hdb.1, hcreate]

/-- When the runner of an acknowledged job has ended, there is a result for the job exactly if
its request, as it was stored, is a JSON value with the three strings a job is built from (or if
a result with that id had been there before). Load and eval may end in any way. -/
theorem result_recorded_iff (parse : Bytes → Option Json) (dump : Json → Bytes) (root : Bytes)
    (s : Scheduler) (t : Tree) (body : Bytes) (w : Storing) (fork : Int) (c : Created)
    (hdb : Rooted s.db root) (hid : InInt s.db.m_jobId)
    (hcreate : s.create t body w fork = .ok c)
    (t' : Tree) (hkept : requestText t' c.newJobId = requestText c.tree c.newJobId)
    (finished : Dir) (hfinished : t'.finished = some finished) (e : Execution) :
    HasResult dump
      (main parse dump root (c.scheduler.argvList c.newJobId) t' e .stored).tree c.newJobId ↔
      Requested parse c.tree c.newJobId ∨ HasResult dump t' c.newJobId := by
  obtain ⟨hnew, _, hschedule⟩ := create_spec hcreate
  have hrooted : Rooted c.scheduler.db root := by
    cases schedule_cases hschedule with
    | inl hcase =>
      obtain ⟨_, hs, _⟩ := hcase
      rw [hs]
      exact hdb
    | inr hcase =>
      obtain ⟨_, _, _, _, hs, _⟩ := hcase
      rw [hs]
      exact hdb
  have hrequested : Requested parse t' c.newJobId ↔ Requested parse c.tree c.newJobId := by
    rw [Requested, Requested, hkept]
  rw [← hrequested]
  by_cases h : Requested parse t' c.newJobId
  · obtain ⟨job, j, _, hmain⟩ := main_of_requested dump hrooted (hnew ▸ hid) hfinished e
      .stored h
    rw [hmain]
    refine iff_of_true ⟨_, isResult_output (job.execute e) c.newJobId j, ?_⟩ (Or.inl h)
    simp [hfinished, store]
  · rw [main_of_not_requested hrooted e .stored h]
    exact ⟨Or.inr, fun hr => hr.resolve_left h⟩

/- The request of the comment above `createFromFile`, and a result for it. -/
def requestBody : Bytes := text
  "\x7b\"name\":\"job1\",\"serverUri\":\"opc.tcp://localhost:4840\",\"script\":\"read.lua\"\x7d"

def requestValue : Json := .object [(text "name", .string (text "job1")),
  (text "script", .string (text "read.lua")),
  (text "serverUri", .string (text "opc.tcp://localhost:4840"))]

def sampleParse (bytes : Bytes) : Option Json :=
  if bytes = requestBody then some requestValue else none

def sampleDump (_ : Json) : Bytes :=
  text "\x7b\"request\":\x7b\"name\":\"job1\",\"script\":\"read.lua\"," ++
  text "\"serverUri\":\"opc.tcp://localhost:4840\"\x7d,\"result\":\x7b\"id\":0," ++
  text "\"statusCode\":\"Ok\",\"totalRuntime_ms\":1.5,\"ts_start\":7,\"ts_stop\":9\x7d\x7d"

def sampleExecution : Execution :=
  { load := none, eval := none, system_start := 7, system_stop := 9, steady_start := 0,
    steady_stop := 1500000 }

def sampleScheduler : Scheduler :=
  { m_workingDir := text "/opt", db := emptyStore.1, m_fJobFinished := true }

theorem result_recorded_sample : ∃ c,
    sampleScheduler.create emptyStore.2 requestBody .stored 11 = .ok c ∧
    HasResult sampleDump (main sampleParse sampleDump (text "/opt")
      (c.scheduler.argvList c.newJobId) c.tree sampleExecution .stored).tree c.newJobId := by
  refine ⟨_, rfl, (result_recorded_iff sampleParse sampleDump (text "/opt") sampleScheduler
    emptyStore.2 requestBody .stored 11 _ (rooted_construct _ _ _ _) (by decide) rfl _ rfl _ rfl
    sampleExecution).mpr (Or.inl ⟨requestValue, ?_, ?_⟩)⟩
  · rfl
  · exact ⟨_, _, _, rfl, rfl, rfl⟩

/-- An empty body is acknowledged; its runner is terminated while it reads the request, and the
job is announced as finished although it has no result. -/
theorem empty_body_leaves_no_result : ∃ c f,
    sampleScheduler.create emptyStore.2 [] .stored 11 = .ok c ∧ c.newJobId = 0 ∧
    main sampleParse sampleDump (text "/opt") (c.scheduler.argvList 0) c.tree sampleExecution
      .stored = ⟨.terminated, c.tree⟩ ∧
    c.tree.finished = some ∅ ∧ ¬ HasResult sampleDump c.tree 0 ∧
    c.scheduler.jobFinished 11 12 = .ok f ∧ f.announced = some (jobFinishedEvent 0) := by
  refine ⟨_, _, rfl, rfl, rfl, rfl, ?_, rfl, rfl⟩
  rintro ⟨record, _, hr⟩
  change none = some (sampleDump record) at hr
  simp at hr

end OpcUaTestTool.TestRunner
