import OpcUaTestTool.FinishedJobs
import OpcUaTestTool.TestRunner

/-! The records of finished jobs on their way from `Job::addResult` through `GET /api/jobs` to the
InfluxDB importer, and the schema of the API description. -/
namespace OpcUaTestTool.RecordExchange
open FiniteMap Numerals Directory JsonValues TestRunner FinishedJobs

/- A finished job: the job as it was executed, with a valid request. -/
structure Record where
  id : Int
  job : Job
  request : Json
  name : Bytes
  valid : IsJobRequest request
  named : request.at (text "name") = some (.string name)

/-- The record `Job::addResult` writes. -/
def Record.value (r : Record) : Json := r.job.output r.id r.request

variable (parse : Bytes → Option Json) (dump : Json → Bytes)

/-- The result files of a list of jobs. -/
def results (records : List Record) : Dir :=
  records.foldl (fun finished r => finished.insert (decimal r.id) (dump r.value)) ∅

/-- `jResp` of `GET /api/jobs`; `ok` is always set. -/
def envelope (response : Json) : Json :=
  .object (setMember (text "response") response (setMember (text "ok") (.boolean true) []))

/-- The body of `GET /api/jobs`; `none` where `json::parse` throws. -/
def jobsBody (entries : List Bytes) (finished : Dir) (fromId max : Int) : Option Bytes := do
  let response ← parse (getFinishedJobs entries finished fromId max).stream
  some (dump (envelope response))

/-- The values `j.items()` goes through. -/
def items : Json → List Json
  | .array elements => elements
  | .object members => members.map Prod.snd
  | .null => []
  | j => [j]

/-- `get<int>()` -/
def getInt : Json → Option Int
  | .integer n => some (int32 n)
  | .float x => some (x.num.tdiv x.den)
  | .boolean b => some (if b then 1 else 0)
  | _ => none

/-- `get<int64_t>()` -/
def getInt64 : Json → Option Int
  | .integer n => some n
  | .float x => some (x.num.tdiv x.den)
  | _ => none

/-- `get<double>()` -/
def getDouble : Json → Option ℚ
  | .integer n => some n
  | .float x => some x
  | _ => none

/- What the importer reads of a job. -/
structure Row where
  id : Int
  name : Bytes
  totalRuntime_ms : ℚ
  ts_start : Int
  ts_stop : Int

/-- The accesses of the import loop to one job. They stand outside of its `try`. -/
def row (job : Json) : Option Row := do
  let id ← getInt (← (← job.at (text "request")).at (text "id"))
  let name ← (← (← job.at (text "request")).at (text "name")).getString
  let totalRuntime_ms ← getDouble (← (← job.at (text "result")).at (text "totalRuntime_ms"))
  let ts_start ← getInt64 (← (← job.at (text "result")).at (text "ts_start"))
  let ts_stop ← getInt64 (← (← job.at (text "result")).at (text "ts_stop"))
  some ⟨id, name, totalRuntime_ms, ts_start, ts_stop⟩

/-- The importer on the body of a response; `none` where it throws. -/
def decode (body : Bytes) : Option (List Row) := do
  let j ← parse body
  (items j).mapM row

/-- What the runner wrote. -/
def Record.row (r : Record) : Row :=
  ⟨r.id, r.name, r.job.totalRuntime_ms, r.job.start, r.job.stop⟩

/- The types of the fields in the schemas. -/
inductive Kind where
  | string
  | number

def IsKind : Kind → Json → Prop
  | .string, .string _ => True
  | .number, .integer _ => True
  | .number, .float _ => True
  | _, _ => False

/-- The required fields of `JobRequest`. -/
def jobRequestFields : List (Bytes × Kind) :=
  [(text "name", .string), (text "script", .string), (text "serverUri", .string)]

/-- The required fields of `JobResult`. -/
def jobResultFields : List (Bytes × Kind) :=
  [(text "id", .number), (text "statusCode", .string), (text "totalRuntime_ms", .number),
    (text "ts_start", .number), (text "ts_end", .number)]

def HasFields (fields : List (Bytes × Kind)) (j : Json) : Prop :=
  ∀ f ∈ fields, ∃ v, j.at f.1 = some v ∧ IsKind f.2 v

/-- The schema `FinishedJob` -/
def IsFinishedJob (j : Json) : Prop :=
  ∃ request result, j.at (text "request") = some request ∧ j.at (text "result") = some result ∧
    HasFields jobRequestFields request ∧ HasFields jobResultFields result

/-- The body is served and decoded, to the rows of just the records that the service read, and
these records conform to the schema. -/
def Agrees (records : List Record) (entries : List Bytes) (fromId max : Int) : Prop :=
  ∃ body, ∃ served : List Record,
    jobsBody parse dump entries (results dump records) fromId max = some body ∧
    (∀ r ∈ served, r ∈ records) ∧
    (getFinishedJobs entries (results dump records) fromId max).jobs =
      served.map (fun r => (r.id, dump r.value)) ∧
    decode parse body = some (served.map Record.row) ∧ ∀ r ∈ served, IsFinishedJob r.value

/-- The envelope is not a list of jobs: its first member has no `request`. -/
theorem row_of_envelope (response : Json) : (items (envelope response)).mapM row = none := by
  have hitems : items (envelope response) = [.boolean true, response] := by
    have hne : text "response" ≠ text "ok" := by decide
    have hlt : ¬ text "response" < text "ok" := by decide
    simp only [envelope, setMember, if_neg hne, if_neg hlt, items, List.map_cons, List.map_nil]
  rw [hitems]
  rfl

/-- No result has the end time under the name of the schema. -/
theorem not_isFinishedJob (r : Record) : ¬ IsFinishedJob r.value := by
  intro h
  obtain ⟨request, result, _, hresult, _, hfields⟩ := h
  have hvalue : r.value.at (text "result") = some (r.job.result r.id) := by
    rw [Record.value, Job.output, Json.at, lookup_setMember_ne (by decide), lookup_setMember_self]
  rw [hvalue, Option.some.injEq] at hresult
  subst hresult
  obtain ⟨v, hv, _⟩ := hfields (text "ts_end", .number) (by simp [jobResultFields])
  have hnone : (r.job.result r.id).at (text "ts_end") = none := by
    rw [Job.result, Json.at, lookup_setMember_ne (by decide)]
    rfl
  rw [hnone] at hv
  cases hv

/-- Outside of the envelope, a record would be decoded only if the request had an id of its own. -/
theorem row_of_record (r : Record) (h : r.request.at (text "id") = none) : row r.value = none := by
  have hvalue : r.value.at (text "request") = some r.request := by
    rw [Record.value, Job.output, Json.at, lookup_setMember_self]
  rw [row, hvalue]
  change (r.request.at (text "id")).bind _ = none
  rw [h]
  rfl

/-- Whatever the finished jobs and the request are, the importer decodes no body that is served,
and no record conforms to the schema. That a served body is read back as it was built is what the
JSON library promises. -/
theorem records_never_agree (parse : Bytes → Option Json) (dump : Json → Bytes)
    (records : List Record) (entries : List Bytes) (fromId max : Int)
    (hround : ∀ response,
      parse (getFinishedJobs entries (results dump records) fromId max).stream = some response →
      parse (dump (envelope response)) = some (envelope response)) :
    (∀ body, jobsBody parse dump entries (results dump records) fromId max = some body →
      decode parse body = none) ∧
    (∀ r ∈ records, ¬ IsFinishedJob r.value) ∧
    ¬ Agrees parse dump records entries fromId max := by
  have hdecode : ∀ body, jobsBody parse dump entries (results dump records) fromId max =
      some body → decode parse body = none := by
    intro body hbody
    simp only [jobsBody, bind, Option.bind_eq_some_iff, Option.some.injEq] at hbody
    obtain ⟨response, hparse, rfl⟩ := hbody
    simp only [decode, hround response hparse, bind, Option.bind_some]
    exact row_of_envelope response
  refine ⟨hdecode, fun r _ => not_isFinishedJob r, ?_⟩
  intro h
  obtain ⟨body, served, hbody, _, _, hrows, _⟩ := h
  rw [hdecode body hbody] at hrows
  cases hrows

def sampleRecord : Record :=
  { id := 0
    job := { m_name := text "job1", m_serverUri := text "opc.tcp://localhost:4840",
             m_scriptDir := text "/opt/repo/scripts", m_script := text "read.lua",
             m_status := .finished, start := 7, stop := 9, totalRuntime_ms := 3 / 2 }
    request := requestValue
    name := text "job1"
    valid := ⟨_, _, _, rfl, rfl, rfl⟩
    named := rfl }

/- The texts of the sample record and of the response with it. -/
def envelopeText : Bytes :=
  text "\x7b\"ok\":true,\"response\":[" ++ sampleDump .null ++ text "]\x7d"

def dumpRecord (j : Json) : Bytes :=
  if (j.at (text "ok")).isSome then envelopeText else sampleDump j

def parseRecords (bytes : Bytes) : Option Json :=
  if bytes = text "[\n" ++ sampleDump .null ++ text "\n]\n" then
    some (.array [sampleRecord.value])
  else if bytes = envelopeText then some (envelope (.array [sampleRecord.value]))
  else none

set_option maxRecDepth 4000 in
theorem sample_stream :
    (getFinishedJobs [text "0"] (results dumpRecord [sampleRecord]) 0 1).stream =
      text "[\n" ++ sampleDump .null ++ text "\n]\n" := by rfl

theorem parse_sample_stream :
    parseRecords (getFinishedJobs [text "0"] (results dumpRecord [sampleRecord]) 0 1).stream =
      some (.array [sampleRecord.value]) := by
  rw [sample_stream, parseRecords, if_pos rfl]

set_option maxRecDepth 4000 in
theorem parse_envelopeText :
    parseRecords envelopeText = some (envelope (.array [sampleRecord.value])) := by
  rw [parseRecords, if_neg (by decide), if_pos rfl]

theorem sample_round (response : Json)
    (h : parseRecords
      (getFinishedJobs [text "0"] (results dumpRecord [sampleRecord]) 0 1).stream =
        some response) :
    parseRecords (dumpRecord (envelope response)) = some (envelope response) := by
  rw [parse_sample_stream, Option.some.injEq] at h
  subst h
  exact parse_envelopeText

theorem records_never_agree_sample :
    ¬ Agrees parseRecords dumpRecord [sampleRecord] [text "0"] 0 1 :=
  (records_never_agree parseRecords dumpRecord [sampleRecord] [text "0"] 0 1 sample_round).2.2

/-- The body with the record of one finished job is served, and the importer cannot decode it. -/
theorem served_record_not_decoded :
    jobsBody parseRecords dumpRecord [text "0"] (results dumpRecord [sampleRecord]) 0 1 =
      some envelopeText ∧
    decode parseRecords envelopeText = none ∧
    ¬ Agrees parseRecords dumpRecord [sampleRecord] [text "0"] 0 1 := by
  have hbody : jobsBody parseRecords dumpRecord [text "0"] (results dumpRecord [sampleRecord]) 0 1 =
      some envelopeText := by
    rw [jobsBody, parse_sample_stream]
    rfl
  have hdecode : decode parseRecords envelopeText = none := by
    rw [decode, parse_envelopeText]
    exact row_of_envelope (.array [sampleRecord.value])
  refine ⟨hbody, hdecode, ?_⟩
  intro h
  obtain ⟨body, served, hserved, _, _, hrows, _⟩ := h
  rw [hbody, Option.some.injEq] at hserved
  rw [← hserved, hdecode] at hrows
  cases hrows

end OpcUaTestTool.RecordExchange
