import OpcUaTestTool.TestRunner
import Mathlib.Data.Rat.Lemmas
import Mathlib.Tactic.Positivity

/-! The status and the times in the record of a job, for every way in which load and eval of its
script end. -/
namespace OpcUaTestTool.JobTimes
open Numerals Directory Store JobScheduler JsonValues TestRunner

/-- The constructor of `Job`. -/
def construct (name serverUri scriptDir script : Bytes) : Job :=
  { m_name := name, m_serverUri := serverUri, m_scriptDir := scriptDir, m_script := script }

/- What a record shows of the execution of its job. -/
@[ext] structure Measured where
  statusCode : Bytes
  ts_start : Int
  ts_stop : Int
  totalRuntime_ms : ℚ

/-- The result in a record, as the importer reads it. -/
def Shows (record : Json) (m : Measured) : Prop :=
  ∃ result, record.at (text "result") = some result ∧
    result.at (text "statusCode") = some (.string m.statusCode) ∧
    result.at (text "ts_start") = some (.integer m.ts_start) ∧
    result.at (text "ts_stop") = some (.integer m.ts_stop) ∧
    result.at (text "totalRuntime_ms") = some (.float m.totalRuntime_ms)

/- The status and the times agree with the execution. -/
structure Measured.Agrees (m : Measured) (e : Execution) : Prop where
  status : m.statusCode = text "Ok" ↔ e.load = none ∧ e.eval = none
  order : m.ts_start ≤ m.ts_stop
  runtime : 0 ≤ m.totalRuntime_ms
  spent : e.load = none → e.eval ≠ none →
    m.ts_stop - m.ts_start = e.system_stop - e.system_start

/-- A record from which the execution can be measured. -/
def Accurate (e : Execution) (record : Json) : Prop := ∃ m, Shows record m ∧ m.Agrees e

/-- What `addResult` writes of a job. -/
def measured (job : Job) : Measured :=
  ⟨TestRunner.statusCode job.m_status, job.start, job.stop, job.totalRuntime_ms⟩

theorem shows_output (job : Job) (id : Int) (request : Json) :
    Shows (job.output id request) (measured job) := by
  refine ⟨job.result id, ?_, ?_, ?_, ?_, ?_⟩
  · rw [Job.output, Json.at, lookup_setMember_ne (by decide), lookup_setMember_self]
  · rw [Job.result, Json.at, lookup_setMember_self, measured]
  · rw [Job.result, Json.at, lookup_setMember_ne (by decide)]
    rfl
  · rw [Job.result, Json.at, lookup_setMember_ne (by decide)]
    rfl
  · rw [Job.result, Json.at, lookup_setMember_ne (by decide)]
    rfl

theorem Shows.unique {record : Json} {m m' : Measured} (h : Shows record m)
    (h' : Shows record m') : m = m' := by
  obtain ⟨result, hresult, hstatus, hstart, hstop, hruntime⟩ := h
  obtain ⟨result', hresult', hstatus', hstart', hstop', hruntime'⟩ := h'
  obtain rfl : result = result' := Option.some.inj (hresult.symm.trans hresult')
  have hs := Json.string.inj (Option.some.inj (hstatus.symm.trans hstatus'))
  have ha := Json.integer.inj (Option.some.inj (hstart.symm.trans hstart'))
  have hb := Json.integer.inj (Option.some.inj (hstop.symm.trans hstop'))
  have hr := Json.float.inj (Option.some.inj (hruntime.symm.trans hruntime'))
  exact Measured.ext hs ha hb hr

theorem accurate_output_iff (e : Execution) (job : Job) (id : Int) (request : Json) :
    Accurate e (job.output id request) ↔ (measured job).Agrees e := by
  constructor
  · rintro ⟨m, hm, hagrees⟩
    exact hm.unique (shows_output job id request) ▸ hagrees
  · exact fun h => ⟨_, shows_output job id request, h⟩

theorem error_ne_ok : text "Error" ≠ text "Ok" := by decide

/-- What is written of a new job: it leaves the `try` block before eval, by an exception in eval,
or at its end. -/
theorem measured_execute {job : Job} (hstart : job.start = 0) (hstop : job.stop = 0)
    (hruntime : job.totalRuntime_ms = 0) (e : Execution) :
    (e.load ≠ none ∧ measured (job.execute e) = ⟨text "Error", 0, 0, 0⟩) ∨
    (e.load = none ∧ e.eval ≠ none ∧
      measured (job.execute e) = ⟨text "Error", e.system_start, 0, 0⟩) ∨
    (e.load = none ∧ e.eval = none ∧ measured (job.execute e) =
      ⟨text "Ok", e.system_start, e.system_stop,
        (e.steady_stop - e.steady_start : Int) / 1000000⟩) := by
  cases hload : e.load with
  | some _ =>
    refine Or.inl ⟨by simp, ?_⟩
    simp [measured, Job.execute, hload, TestRunner.statusCode, hstart, hstop, hruntime]
  | none =>
    cases heval : e.eval with
    | some _ =>
      refine Or.inr (Or.inl ⟨rfl, by simp, ?_⟩)
      simp [measured, Job.execute, hload, heval, TestRunner.statusCode, hstop, hruntime]
    | none =>
      refine Or.inr (Or.inr ⟨rfl, rfl, ?_⟩)
      simp [measured, Job.execute, hload, heval, TestRunner.statusCode]

theorem agrees_not_loaded {e : Execution} (hload : e.load ≠ none) :
    Measured.Agrees ⟨text "Error", 0, 0, 0⟩ e :=
  ⟨by simp [error_ne_ok, hload], le_rfl, le_rfl, fun hnone => absurd hnone hload⟩

/-- The stop of a job with a failing script stays at the epoch. -/
theorem agrees_failed_iff {e : Execution} (hsystem : e.system_start ≤ e.system_stop)
    (hload : e.load = none) (heval : e.eval ≠ none) :
    Measured.Agrees ⟨text "Error", e.system_start, 0, 0⟩ e ↔ e.system_stop = 0 := by
  constructor
  · intro h
    have hspent : 0 - e.system_start = e.system_stop - e.system_start := h.spent hload heval
    omega
  · intro hzero
    refine ⟨by simp [error_ne_ok, heval], ?_, le_rfl, ?_⟩
    · rw [← hzero]
      exact hsystem
    · intro _ _
      rw [hzero]

theorem agrees_finished {e : Execution} (hsystem : e.system_start ≤ e.system_stop)
    (hsteady : e.steady_start ≤ e.steady_stop) (hload : e.load = none) (heval : e.eval = none) :
    Measured.Agrees ⟨text "Ok", e.system_start, e.system_stop,
      (e.steady_stop - e.steady_start : Int) / 1000000⟩ e := by
  have hspan : (0 : ℚ) ≤ (e.steady_stop - e.steady_start : Int) := Int.cast_nonneg (by omega)
  exact ⟨by simp [hload, heval], hsystem, by positivity, fun _ hne => absurd heval hne⟩

/-- A job that has not been executed before agrees with its execution exactly if load fails, or
eval does not, or the clock shows the epoch at the end. -/
theorem agrees_execute_iff {job : Job} (hstart : job.start = 0) (hstop : job.stop = 0)
    (hruntime : job.totalRuntime_ms = 0) {e : Execution} (hsystem : e.system_start ≤ e.system_stop)
    (hsteady : e.steady_start ≤ e.steady_stop) :
    (measured (job.execute e)).Agrees e ↔
      e.load ≠ none ∨ e.eval = none ∨ e.system_stop = 0 := by
  cases measured_execute hstart hstop hruntime e with
  | inl hcase =>
    obtain ⟨hload, hm⟩ := hcase
    rw [hm]
    exact iff_of_true (agrees_not_loaded hload) (Or.inl hload)
  | inr hcase =>
    cases hcase with
    | inl hcase =>
      obtain ⟨hload, heval, hm⟩ := hcase
      rw [hm, agrees_failed_iff hsystem hload heval]
      simp [hload, heval]
    | inr hcase =>
      obtain ⟨hload, heval, hm⟩ := hcase
      rw [hm]
      exact iff_of_true (agrees_finished hsystem hsteady hload heval) (Or.inr (Or.inl heval))

/-- The runner executes no other jobs than new ones. -/
theorem createFromFile_construct {parse : Bytes → Option Json} {root : Bytes} {t : Tree}
    {path scriptDir : Bytes} {job : Job}
    (h : createFromFile parse root t path scriptDir = some job) :
    ∃ name serverUri script, job = construct name serverUri scriptDir script := by
  obtain ⟨_, name, serverUri, script, _, _, _, _, rfl⟩ := createFromFile_eq_some.mp h
  exact ⟨name, serverUri, script, rfl⟩

theorem addResult_eq_some {parse : Bytes → Option Json} {dump : Json → Bytes} {root : Bytes}
    {job : Job} {t t' : Tree} {inputFile outputFile : Bytes} {id : Int} {w : Storing} :
    job.addResult parse dump root t inputFile outputFile id w = some t' ↔
      ∃ request, parse (readFile root t inputFile) = some request ∧
        writeFile root t outputFile (dump (job.output id request)) w = t' := by
  simp only [Job.addResult, bind, Option.bind_eq_some_iff, Option.some.injEq]

/-- The record that is written of a job shows its status and its times exactly if load fails, or
eval does not (or the clock shows the epoch when eval ends). -/
theorem record_accurate_iff (parse : Bytes → Option Json) (dump : Json → Bytes) (root : Bytes)
    (name serverUri scriptDir script : Bytes) (e : Execution)
    (hsystem : e.system_start ≤ e.system_stop) (hsteady : e.steady_start ≤ e.steady_stop)
    (t t' : Tree) (inputFile outputFile : Bytes) (id : Int) (w : Storing)
    (h : ((construct name serverUri scriptDir script).execute e).addResult parse dump root t
      inputFile outputFile id w = some t') :
    ∃ request record, parse (readFile root t inputFile) = some request ∧
      record = ((construct name serverUri scriptDir script).execute e).output id request ∧
      t' = writeFile root t outputFile (dump record) w ∧
      (Accurate e record ↔ e.load ≠ none ∨ e.eval = none ∨ e.system_stop = 0) := by
  obtain ⟨request, hrequest, hwrite⟩ := addResult_eq_some.mp h
  refine ⟨request, _, hrequest, rfl, hwrite.symm, ?_⟩
  rw [accurate_output_iff]
  exact agrees_execute_iff rfl rfl rfl hsystem hsteady

def sampleJob : Job := construct (text "job1") (text "opc.tcp://localhost:4840")
  (text "/opt/repo/scripts") (text "read.lua")

def sampleTree : Tree := emptyStore.2.setRequests ((∅ : Dir).insert (decimal 0) requestBody)

def sampleFile (dir : Bytes) : Bytes := text "/opt" ++ dir ++ text "/" ++ decimal 0

theorem record_accurate_sample : ∃ t',
    (sampleJob.execute sampleExecution).addResult sampleParse sampleDump (text "/opt") sampleTree
      (sampleFile (text "/jobs/requests")) (sampleFile (text "/jobs/finished")) 0 .stored =
        some t' ∧
    ∃ record, t' = writeFile (text "/opt") sampleTree (sampleFile (text "/jobs/finished"))
        (sampleDump record) .stored ∧ Accurate sampleExecution record := by
  have hrequests : sampleTree.requests = some ((∅ : Dir).insert (decimal 0) requestBody) := rfl
  have hrequest : sampleParse (readFile (text "/opt") sampleTree
      (sampleFile (text "/jobs/requests"))) = some requestValue := by
    rw [sampleFile, readFile_request, requestText, hrequests, Option.bind_some,
      AList.lookup_insert, Option.getD_some, sampleParse, if_pos rfl]
  have hwritten : (sampleJob.execute sampleExecution).addResult sampleParse sampleDump (text "/opt")
      sampleTree (sampleFile (text "/jobs/requests")) (sampleFile (text "/jobs/finished")) 0
      .stored = some (writeFile (text "/opt") sampleTree (sampleFile (text "/jobs/finished"))
        (sampleDump ((sampleJob.execute sampleExecution).output 0 requestValue)) .stored) :=
    addResult_eq_some.mpr ⟨requestValue, hrequest, rfl⟩
  obtain ⟨_, record, _, _, hwrite, haccurate⟩ := record_accurate_iff sampleParse sampleDump
    (text "/opt") (text "job1") (text "opc.tcp://localhost:4840") (text "/opt/repo/scripts")
    (text "read.lua") sampleExecution (by decide) (by decide) sampleTree _
    (sampleFile (text "/jobs/requests")) (sampleFile (text "/jobs/finished")) 0 .stored hwritten
  exact ⟨_, hwritten, record, hwrite, haccurate.mpr (Or.inr (Or.inl rfl))⟩

/- A script that fails at 9, after it was started at 7. -/
def failedExecution : Execution := { sampleExecution with eval := some .standard }

theorem failed_job_without_stop :
    Shows ((sampleJob.execute failedExecution).output 0 requestValue) ⟨text "Error", 7, 0, 0⟩ ∧
      ¬ Accurate failedExecution ((sampleJob.execute failedExecution).output 0 requestValue) := by
  refine ⟨shows_output _ _ _, ?_⟩
  intro h
  have hagrees := (accurate_output_iff _ _ _ _).mp h
  exact absurd hagrees.order (by decide)

end OpcUaTestTool.JobTimes
