import OpcUaTestTool.FinishedJobs
import OpcUaTestTool.ScriptPaths

/-! The HTTP API: every route with its handler, the request and response variants between the
handlers and `TestService`, and what a request leaves in the store. -/
namespace OpcUaTestTool.Api
open FiniteMap Numerals Directory FileSystem Store JobScheduler JsonValues FinishedJobs ScriptPaths

inductive RequestVariant where
  | newJobRequest (jsonRequest : Bytes)
  | getJobRequest (id : Int)
  | getJobsRequest (fromId max : Int)
  | getScriptsRequest
  | getScriptRequest (name : Bytes)
  | updateScriptRequest (name content : Bytes)
  | getJobLogRequest (id : Int)
  | getTargetsRequest
  | newLineReplRequest (content : Bytes)
  | cloneScriptRepoRequest

inductive ResponseVariant where
  | response (ok : Bool)
  | newJobResponse (ok : Bool) (id : Int)
  | getJobResponse (ok : Bool) (data : Bytes)
  | getScriptsResponse (ok : Bool) (data : Bytes)
  | getScriptResponse (ok : Bool) (content : Bytes)
  | getJobLogResponse (ok : Bool) (data : Bytes)
  | getTargetsResponse (ok : Bool) (data : Bytes)
  | cloneScriptRepoResponse (ok : Bool)

inductive Exception where
  | bad_variant_access
  | stoi
  | parse_error
  | filesystem_error

/- How a handler ends without an answer: by an exception, or because the process ends. -/
inductive Failure where
  | thrown (e : Exception)
  | left (e : Exit)

/-- What the surroundings do in the course of a request: what becomes of the file it writes, the
result of `fork` in the service, the order of the directory iterator, and the files that
`getScripts.sh` leaves. -/
structure Env where
  storing : Storing
  fork : Int
  parent : fork ≠ 0
  entries : List Bytes
  cloned : Disk

/- The test service with the files it works on; `input` is what the REPL's terminal was given. -/
structure Service where
  scheduler : Scheduler
  disk : Disk
  input : Bytes := []

variable (parse : Bytes → Option Json) (dump : Json → Bytes) (cwd : Path)

def readOr (missing : Bytes) (fs : Disk) (path : Bytes) : Bytes :=
  match openRead fs cwd path with
  | .failed => missing
  | .directory => []
  | .regular _ content => content

/-- `DataBase::getFinishedJob` -/
def getFinishedJob (db : DataBase) (fs : Disk) (jobId : Int) : Bytes :=
  readOr cwd (text "job not found") fs (db.m_jobs_finished_dir ++ text "/" ++ decimal jobId)

/-- `DataBase::getJobLog` -/
def getJobLog (db : DataBase) (fs : Disk) (jobId : Int) : Bytes :=
  readOr cwd (text "job log not found") fs
    (db.m_rootDir ++ text "/logs/" ++ decimal jobId ++ text ".log")

/-- `DataBase::getTargets` -/
def getTargets (db : DataBase) (fs : Disk) : Bytes :=
  readOr cwd (text "job log not found") fs (db.m_targetDir ++ text "/targets.json")

def dir (fs : Disk) (path : Bytes) : Option Dir := (directory fs cwd path).bind fun p => fs.lookup p

/-- The store of the scheduler, as it lies in the file system. -/
def treeOf (db : DataBase) (fs : Disk) : Tree :=
  { jobs := (directory fs cwd (db.m_rootDir ++ text "/jobs")).map fun _ =>
      ⟨dir cwd fs db.m_jobs_requests_dir, dir cwd fs db.m_jobs_finished_dir⟩
    logs := (dir cwd fs (db.m_rootDir ++ text "/logs")).getD ∅
    repo := (directory fs cwd (db.m_rootDir ++ text "/repo")).map fun _ =>
      ⟨dir cwd fs db.m_scriptDir, dir cwd fs db.m_targetDir⟩ }

def requestPath (db : DataBase) : Bytes :=
  db.m_jobs_requests_dir ++ text "/" ++ decimal db.m_jobId

/-- `TestService::newJob`. The request file is written before `schedule` is called. -/
def Service.newJob (s : Service) (env : Env) (jsonRequest : Bytes) :
    Except Failure ResponseVariant × Service :=
  let s' := { s with
    disk := write s.disk cwd (requestPath s.scheduler.db) jsonRequest env.storing }
  match s.scheduler.create (treeOf cwd s.scheduler.db s.disk) jsonRequest env.storing env.fork with
  | .error e => (.error (.left e), s')
  | .ok c => (.ok (.newJobResponse true c.newJobId), { s' with scheduler := c.scheduler })

/-- `apiCallback`: the response variant holds what the method of the service returns. -/
def apiCallback (s : Service) (env : Env) :
    RequestVariant → Except Failure ResponseVariant × Service
  | .getJobRequest id =>
    (.ok (.getJobResponse true (getFinishedJob cwd s.scheduler.db s.disk id)), s)
  | .getJobsRequest fromId max =>
    match dir cwd s.disk s.scheduler.db.m_jobs_finished_dir with
    | none => (.error (.thrown .filesystem_error), s)
    | some finished =>
      (.ok (.getJobResponse true (getFinishedJobs env.entries finished fromId max).stream), s)
  | .newJobRequest jsonRequest => s.newJob cwd env jsonRequest
  | .getScriptsRequest =>
    match directory s.disk cwd s.scheduler.db.m_scriptDir with
    | none => (.error (.thrown .filesystem_error), s)
    | some _ => (.ok (.getScriptsResponse true (getScripts env.entries)), s)
  | .getScriptRequest name =>
    (.ok (.getScriptResponse true (getScript s.scheduler.db s.disk cwd name)), s)
  | .updateScriptRequest name content =>
    (.ok (.response true), { s with
      disk := updateScript s.scheduler.db s.disk cwd name content env.storing })
  | .getJobLogRequest id =>
    (.ok (.getJobLogResponse true (getJobLog cwd s.scheduler.db s.disk id)), s)
  | .getTargetsRequest => (.ok (.getTargetsResponse true (getTargets cwd s.scheduler.db s.disk)), s)
  | .newLineReplRequest content =>
    (.ok (.response true), { s with input := s.input ++ content ++ text "\n" })
  | .cloneScriptRepoRequest => (.ok (.cloneScriptRepoResponse true), { s with disk := env.cloned })

/- A request as the router hands it to the handler of its route: parameters, the part of the path
that the pattern matched, and the body. -/
inductive HttpRequest where
  | getJobs (fromId max : Option Bytes)
  | getScripts
  | putRepoClone
  | getScript (name : Bytes)
  | postScript (name body : Bytes)
  | postJobs (body : Bytes)
  | getJob (id : Bytes)
  | getJobLog (id : Bytes)
  | getEvents
  | getTargets
  | postRepl (body : Bytes)

structure Content where
  body : Bytes
  contentType : Bytes

def badVariantAccess {α : Type} : Except Failure α := .error (.thrown .bad_variant_access)

/- `std::get` of an alternative of the response. -/
def getResponse : ResponseVariant → Except Failure Bool
  | .response ok => .ok ok
  | _ => badVariantAccess

def getNewJobResponse : ResponseVariant → Except Failure (Bool × Int)
  | .newJobResponse ok id => .ok (ok, id)
  | _ => badVariantAccess

def getGetJobResponse : ResponseVariant → Except Failure (Bool × Bytes)
  | .getJobResponse ok data => .ok (ok, data)
  | _ => badVariantAccess

def getGetScriptsResponse : ResponseVariant → Except Failure (Bool × Bytes)
  | .getScriptsResponse ok data => .ok (ok, data)
  | _ => badVariantAccess

def getGetScriptResponse : ResponseVariant → Except Failure (Bool × Bytes)
  | .getScriptResponse ok content => .ok (ok, content)
  | _ => badVariantAccess

def getGetJobLogResponse : ResponseVariant → Except Failure (Bool × Bytes)
  | .getJobLogResponse ok data => .ok (ok, data)
  | _ => badVariantAccess

def getGetTargetsResponse : ResponseVariant → Except Failure (Bool × Bytes)
  | .getTargetsResponse ok data => .ok (ok, data)
  | _ => badVariantAccess

def getCloneScriptRepoResponse : ResponseVariant → Except Failure Bool
  | .cloneScriptRepoResponse ok => .ok ok
  | _ => badVariantAccess

/-- `stoi` of a value; `none` is a parameter that is missing. -/
def number : Option Bytes → Except Failure Int
  | none => .ok 0
  | some value =>
    match stoi value with
    | none => .error (.thrown .stoi)
    | some n => .ok n

def parsed (data : Bytes) : Except Failure Json :=
  match parse data with
  | none => .error (.thrown .parse_error)
  | some j => .ok j

def json (members : List (Bytes × Json)) : Content :=
  ⟨dump (.object members), text "application/json"⟩

def plain (body : Bytes) : Content := ⟨body, text "text/plain"⟩

/-- A handler goes on with what the callback stored in the response variant. -/
def answer (r : Except Failure ResponseVariant × Service)
    (content : ResponseVariant → Except Failure Content) : Except Failure Content × Service :=
  (r.1.bind content, r.2)

/-- The handlers of the routes. An update of a script asks the response variant for the
alternative that a listing of the scripts stores. -/
def handle (s : Service) (env : Env) : HttpRequest → Except Failure Content × Service
  | .getJobs fromValue maxValue =>
    match number fromValue, number maxValue with
    | .error e, _ => (.error e, s)
    | .ok _, .error e => (.error e, s)
    | .ok fromId, .ok max =>
      answer (apiCallback cwd s env (.getJobsRequest fromId max)) fun resp => do
        let (ok, data) ← getGetJobResponse resp
        let response ← parsed parse data
        .ok (json dump (setMember (text "response") response
          (setMember (text "ok") (.boolean ok) [])))
  | .getScripts =>
    answer (apiCallback cwd s env .getScriptsRequest) fun resp => do
      let (ok, data) ← getGetScriptsResponse resp
      let response ← parsed parse data
      .ok (json dump (setMember (text "response") response
        (setMember (text "ok") (.boolean ok) [])))
  | .putRepoClone =>
    answer (apiCallback cwd s env .cloneScriptRepoRequest) fun resp => do
      let ok ← getCloneScriptRepoResponse resp
      .ok (json dump (setMember (text "ok") (.boolean ok) []))
  | .getScript name =>
    answer (apiCallback cwd s env (.getScriptRequest name)) fun resp => do
      let (_, content) ← getGetScriptResponse resp
      .ok (plain content)
  | .postScript name body =>
    answer (apiCallback cwd s env (.updateScriptRequest name body)) fun resp => do
      let (ok, _) ← getGetScriptsResponse resp
      .ok (json dump (setMember (text "ok") (.boolean ok) []))
  | .postJobs body =>
    answer (apiCallback cwd s env (.newJobRequest body)) fun resp => do
      let (ok, id) ← getNewJobResponse resp
      .ok (json dump (setMember (text "id") (.integer id) (setMember (text "ok") (.boolean ok) [])))
  | .getJob idValue =>
    match number (some idValue) with
    | .error e => (.error e, s)
    | .ok id =>
      answer (apiCallback cwd s env (.getJobRequest id)) fun resp => do
        let (ok, data) ← getGetJobResponse resp
        let response ← parsed parse data
        .ok (json dump (setMember (text "response") response
          (setMember (text "statusCode") (.boolean ok) [])))
  | .getJobLog idValue =>
    match number (some idValue) with
    | .error e => (.error e, s)
    | .ok id =>
      answer (apiCallback cwd s env (.getJobLogRequest id)) fun resp => do
        let (_, data) ← getGetJobLogResponse resp
        .ok (plain data)
  | .getEvents => (.ok ⟨[], text "text/event-stream"⟩, s)
  | .getTargets =>
    answer (apiCallback cwd s env .getTargetsRequest) fun resp => do
      let (_, data) ← getGetTargetsResponse resp
      .ok ⟨data, text "application/json"⟩
  | .postRepl body =>
    answer (apiCallback cwd s env (.newLineReplRequest body)) fun resp => do
      let ok ← getResponse resp
      .ok (json dump (setMember (text "ok") (.boolean ok) []))

/-- The success body of a script update, and of a job creation. -/
def successContent (s : Service) : HttpRequest → Option Content
  | .postScript _ _ => some (json dump (setMember (text "ok") (.boolean true) []))
  | .postJobs _ => some (json dump (setMember (text "id") (.integer s.scheduler.db.m_jobId)
      (setMember (text "ok") (.boolean true) [])))
  | _ => none

/- A request that ends in an error has changed no file; an update or a creation that has changed
one is answered with its success body. -/
structure Atomic (s : Service) (env : Env) (req : HttpRequest) : Prop where
  error : ∀ e, (handle parse dump cwd s env req).1 = .error e →
    SameFiles s.disk (handle parse dump cwd s env req).2.disk
  success : ∀ content, successContent dump s req = some content →
    ¬ SameFiles s.disk (handle parse dump cwd s env req).2.disk →
    (handle parse dump cwd s env req).1 = .ok content

/-- Writing under a path leaves all files as they are: nothing can be opened there, or it holds
afterwards what it held before. -/
def Unwritten (fs : Disk) (path content : Bytes) (w : Storing) : Prop :=
  ∀ q, place fs cwd path = some q → left content (file fs q) w = file fs q

/-- An update changes no file; a creation does not meet a failing `fork` with its request stored. -/
def EffectAnswered (s : Service) (env : Env) : HttpRequest → Prop
  | .postScript name body =>
    Unwritten cwd s.disk (scriptPath s.scheduler.db.m_scriptDir name) body env.storing
  | .postJobs body => size s.scheduler.activeJobs < maxConcurrentJobs → env.fork = -1 →
      Unwritten cwd s.disk (requestPath s.scheduler.db) body env.storing
  | _ => True

variable {parse dump cwd}

theorem schedule_error_iff {s : Scheduler} {fork : Int} (hparent : fork ≠ 0) (e : Exit) :
    s.schedule fork = .error e ↔ s.Forks ∧ fork = -1 ∧ e = .failure := by
  unfold Scheduler.schedule Scheduler.Forks
  cases hq : s.waitQueue with
  | nil => simp
  | cons jobId rest =>
    by_cases hfull : maxConcurrentJobs ≤ size s.activeJobs
    · simp [hfull]
    · have hlt : size s.activeJobs < maxConcurrentJobs := by omega
      by_cases hfail : fork = -1
      · simp [hfull, hlt, hfail, eq_comm]
      · simp [hfull, hfail, hparent]

theorem create_error_iff (s : Scheduler) (t : Tree) (body : Bytes) (w : Storing) {fork : Int}
    (hparent : fork ≠ 0) (e : Exit) :
    s.create t body w fork = .error e ↔
      size s.activeJobs < maxConcurrentJobs ∧ fork = -1 ∧ e = .failure := by
  have hcreate : s.create t body w fork = .error e ↔
      (s.enqueue t body w).schedule fork = .error e := by
    rw [create_eq]
    cases (s.enqueue t body w).schedule fork with
    | error e' => simp [Except.map]
    | ok r => simp [Except.map]
  rw [hcreate, schedule_error_iff hparent]
  simp [Scheduler.Forks, Scheduler.enqueue]

theorem sameFiles_refl (fs : Disk) : SameFiles fs fs := fun _ => rfl

/-- A request that does not touch the files. -/
theorem atomic_of_disk_eq {s : Service} {env : Env} {req : HttpRequest}
    (h : (handle parse dump cwd s env req).2.disk = s.disk)
    (hnone : successContent dump s req = none) : Atomic parse dump cwd s env req := by
  refine ⟨?_, ?_⟩
  · intro e _
    rw [h]
    exact sameFiles_refl s.disk
  · intro content hcontent
    rw [hnone] at hcontent
    cases hcontent

/-- The listings read the files only. -/
theorem disk_reading {s : Service} {env : Env} {req : HttpRequest}
    (h : ∀ name body, req ≠ .postScript name body) (hjobs : ∀ body, req ≠ .postJobs body)
    (hclone : req ≠ .putRepoClone) : (handle parse dump cwd s env req).2.disk = s.disk := by
  cases req with
  | getJobs fromValue maxValue =>
    cases hf : number fromValue with
    | error e => simp [handle, hf]
    | ok fromId =>
      cases hm : number maxValue with
      | error e => simp [handle, hf, hm]
      | ok max =>
        cases hd : dir cwd s.disk s.scheduler.db.m_jobs_finished_dir with
        | none => simp [handle, hf, hm, answer, apiCallback, hd]
        | some finished => simp [handle, hf, hm, answer, apiCallback, hd]
  | getScripts =>
    cases hd : directory s.disk cwd s.scheduler.db.m_scriptDir with
    | none => simp [handle, answer, apiCallback, hd]
    | some p => simp [handle, answer, apiCallback, hd]
  | getJob idValue =>
    cases hn : number (some idValue) with
    | error e => simp [handle, hn]
    | ok id => simp [handle, hn, answer, apiCallback]
  | getJobLog idValue =>
    cases hn : number (some idValue) with
    | error e => simp [handle, hn]
    | ok id => simp [handle, hn, answer, apiCallback]
  | putRepoClone => exact absurd rfl hclone
  | postScript name body => exact absurd rfl (h name body)
  | postJobs body => exact absurd rfl (hjobs body)
  | getScript name => rfl
  | getEvents => rfl
  | getTargets => rfl
  | postRepl body => rfl

/-- An update always ends in an error, after the file is written. -/
theorem handle_postScript (s : Service) (env : Env) (name body : Bytes) :
    handle parse dump cwd s env (.postScript name body) =
      (.error (.thrown .bad_variant_access), { s with
        disk := write s.disk cwd (scriptPath s.scheduler.db.m_scriptDir name) body
          env.storing }) := rfl

theorem atomic_postScript_iff {s : Service} {env : Env} {name body : Bytes} :
    Atomic parse dump cwd s env (.postScript name body) ↔
      EffectAnswered cwd s env (.postScript name body) := by
  have hsame := sameFiles_write_iff s.disk cwd (scriptPath s.scheduler.db.m_scriptDir name) body
    env.storing
  constructor
  · intro h
    exact hsame.mp (h.error (.thrown .bad_variant_access) (by rw [handle_postScript]))
  · intro h
    refine ⟨?_, ?_⟩
    · intro e _
      exact hsame.mpr h
    · intro content _ hchanged
      exact absurd (hsame.mpr h) hchanged

/-- A creation is answered unless `fork` fails; its request file is written in either case. -/
theorem handle_postJobs (parse : Bytes → Option Json) (dump : Json → Bytes) (cwd : Path)
    (s : Service) (env : Env) (body : Bytes) :
    (handle parse dump cwd s env (.postJobs body)).2.disk =
      write s.disk cwd (requestPath s.scheduler.db) body env.storing ∧
    ((size s.scheduler.activeJobs < maxConcurrentJobs ∧ env.fork = -1) ∧
        (handle parse dump cwd s env (.postJobs body)).1 = .error (.left .failure) ∨
      ¬ (size s.scheduler.activeJobs < maxConcurrentJobs ∧ env.fork = -1) ∧
        ∀ content, successContent dump s (.postJobs body) = some content →
          (handle parse dump cwd s env (.postJobs body)).1 = .ok content) := by
  cases hc : s.scheduler.create (treeOf cwd s.scheduler.db s.disk) body env.storing env.fork with
  | error e =>
    obtain ⟨hfree, hfork, rfl⟩ := (create_error_iff _ _ _ _ env.parent e).mp hc
    refine ⟨?_, Or.inl ⟨⟨hfree, hfork⟩, ?_⟩⟩
    · simp [handle, answer, apiCallback, Service.newJob, hc]
    · simp only [handle, answer, apiCallback, Service.newJob, hc]
      rfl
  | ok c =>
    have hid : c.newJobId = s.scheduler.db.m_jobId := (create_spec hc).1
    have hnot : ¬ (size s.scheduler.activeJobs < maxConcurrentJobs ∧ env.fork = -1) := by
      intro h
      have herror := (create_error_iff s.scheduler (treeOf cwd s.scheduler.db s.disk) body
        env.storing env.parent .failure).mpr ⟨h.1, h.2, rfl⟩
      rw [hc] at herror
      cases herror
    refine ⟨?_, Or.inr ⟨hnot, ?_⟩⟩
    · simp [handle, answer, apiCallback, Service.newJob, hc]
    · intro content hcontent
      simp only [successContent, Option.some.injEq] at hcontent
      subst hcontent
      simp only [handle, answer, apiCallback, Service.newJob, hc, hid]
      rfl

theorem atomic_postJobs_iff {s : Service} {env : Env} {body : Bytes} :
    Atomic parse dump cwd s env (.postJobs body) ↔
      EffectAnswered cwd s env (.postJobs body) := by
  obtain ⟨hdisk, hend⟩ := handle_postJobs parse dump cwd s env body
  have hsame := sameFiles_write_iff s.disk cwd (requestPath s.scheduler.db) body env.storing
  rw [← hdisk] at hsame
  cases hend with
  | inl hfailed =>
    obtain ⟨⟨hfree, hfork⟩, herror⟩ := hfailed
    constructor
    · intro h _ _
      exact hsame.mp (h.error _ herror)
    · intro h
      refine ⟨?_, ?_⟩
      · intro e _
        exact hsame.mpr (h hfree hfork)
      · intro content _ hchanged
        exact absurd (hsame.mpr (h hfree hfork)) hchanged
  | inr hok =>
    obtain ⟨hnot, hsuccess⟩ := hok
    refine iff_of_true ⟨?_, ?_⟩ ?_
    · intro e he
      rw [hsuccess _ rfl] at he
      cases he
    · intro content hcontent _
      exact hsuccess content hcontent
    · intro hfree hfork
      exact absurd ⟨hfree, hfork⟩ hnot

/-- On every route and in every state, a request is atomic just if it is not an update that
changes a file, and not a creation that meets a failing `fork` with its request stored. -/
theorem api_atomic_iff (parse : Bytes → Option Json) (dump : Json → Bytes) (cwd : Path)
    (s : Service) (env : Env) (req : HttpRequest) :
    Atomic parse dump cwd s env req ↔ EffectAnswered cwd s env req := by
  cases req with
  | postScript name body => exact atomic_postScript_iff
  | postJobs body => exact atomic_postJobs_iff
  | putRepoClone =>
    refine iff_of_true ⟨?_, ?_⟩ trivial
    · intro e he
      cases he
    · intro content hcontent
      cases hcontent
  | _ =>
    exact iff_of_true (atomic_of_disk_eq (disk_reading (by simp) (by simp) (by simp)) rfl) trivial

def sampleService : Service := { scheduler := TestRunner.sampleScheduler, disk := sampleDisk }

def sampleEnv : Env :=
  { storing := .stored
    fork := 11
    parent := by decide
    entries := []
    cloned := ∅ }

/-- The update of a script is stored, and its request ends in an error. -/
theorem stored_update_ends_in_error :
    handle TestRunner.sampleParse TestRunner.sampleDump [] sampleService sampleEnv
      (.postScript (text "a.lua") (text "y")) = (.error (.thrown .bad_variant_access),
        { sampleService with
          disk := updateScript emptyStore.1 sampleDisk [] (text "a.lua") (text "y") .stored }) ∧
    file (updateScript emptyStore.1 sampleDisk [] (text "a.lua") (text "y") .stored)
      ⟨[text "opt", text "repo", text "scripts"], text "a.lua"⟩ = some (text "y") ∧
    ¬ Atomic TestRunner.sampleParse TestRunner.sampleDump [] sampleService sampleEnv
      (.postScript (text "a.lua") (text "y")) := by
  refine ⟨rfl, by decide, ?_⟩
  intro h
  have hsame := h.error (.thrown .bad_variant_access) rfl
    ⟨[text "opt", text "repo", text "scripts"], text "a.lua"⟩
  revert hsame
  decide

/-! ### The store of the scheduler in the file system -/

theorem decimal_plain (n : Int) :
    0 ∉ decimal n ∧ names (decimal n) = [decimal n] ∧
      ∀ p, enter p (decimal n) = p ++ [decimal n] := by
  have hbytes : ∀ b ∈ decimal n, isDigit b = true ∨ b = 45 := by
    intro b hb
    cases n with
    | ofNat n => exact Or.inl (isDigit_of_mem_decimalNat hb)
    | negSucc n =>
      cases List.mem_cons.mp hb with
      | inl h => exact Or.inr h
      | inr h => exact Or.inl (isDigit_of_mem_decimalNat h)
  have hnot : ∀ c : UInt8, isDigit c = false → c ≠ 45 → c ∉ decimal n := by
    intro c hc h45 hmem
    cases hbytes c hmem with
    | inl h => rw [hc] at h; cases h
    | inr h => exact h45 h
  have hne : decimal n ≠ [] := by
    cases n with
    | ofNat n => exact decimalNat_ne_nil n
    | negSucc n => exact List.cons_ne_nil _ _
  refine ⟨hnot 0 (by decide) (by decide), ?_, ?_⟩
  · exact List.splitOn_eq_singleton (hnot 47 (by decide) (by decide))
  · intro p
    apply enter_of_plain
    have hdot := hnot 46 (by decide) (by decide)
    refine ⟨hne, ?_, ?_⟩
    · intro h
      rw [h] at hdot
      exact hdot (by decide)
    · intro h
      rw [h] at hdot
      exact hdot (by decide)

/-- Where the request file of the next job goes. -/
theorem place_requestPath {db : DataBase} {root : Bytes} (hl : Layout db root) (hroot : 0 ∉ root)
    {fs : Disk} {p : Path} (hp : directory fs cwd db.m_jobs_requests_dir = some p)
    (hfree : p ++ [decimal db.m_jobId] ∉ fs) :
    place fs cwd (requestPath db) = some ⟨p, decimal db.m_jobId⟩ := by
  obtain ⟨hzero, hnames, henter⟩ := decimal_plain db.m_jobId
  have hbelow : 0 ∉ db.m_jobs_requests_dir ∧ db.m_jobs_requests_dir ≠ [] := by
    rw [hl.rooted.1]
    exact below_root hroot (by decide) (by decide)
  have hpath : requestPath db = db.m_jobs_requests_dir ++ 47 :: decimal db.m_jobId := by
    rw [requestPath, List.append_assoc]
    rfl
  have hmem : p ∈ fs := (walk_eq_some hp).2
  rw [hpath, place_append hbelow.2 hbelow.1, hp, Option.bind_some, cString_eq_self hzero,
    placeFrom, hnames, placeAt]
  simp [walk, hmem, henter, hfree]

/-- Directories that are given by different names below the root directory are different. -/
theorem directory_ne {root : Bytes} (hroot : 0 ∉ root) {fs : Disk} {a b : Bytes} {p q : Path}
    (ha : 0 ∉ a) (hb : 0 ∉ b)
    (hplain : ∀ part ∈ names a ++ names b, part ≠ [] ∧ part ≠ text "." ∧ part ≠ text "..")
    (hne : names a ≠ names b) (hp : directory fs cwd (root ++ 47 :: a) = some p)
    (hq : directory fs cwd (root ++ 47 :: b) = some q) : p ≠ q := by
  have hpa := directory_below_root hroot ha hp
  have hqb := directory_below_root hroot hb hq
  rw [lexical_of_plain _ fun part h => hplain part (List.mem_append_left _ h)] at hpa
  rw [lexical_of_plain _ fun part h => hplain part (List.mem_append_right _ h)] at hqb
  rw [hpa, hqb]
  intro h
  exact hne (List.append_cancel_left h)

/-- No other directory of the store is the one that a request is written to. -/
theorem dir_write_other {db : DataBase} {root : Bytes} (hl : Layout db root) (hroot : 0 ∉ root)
    {fs : Disk} {p : Path} (hp : directory fs cwd db.m_jobs_requests_dir = some p)
    (hfree : p ++ [decimal db.m_jobId] ∉ fs) (json : Bytes) (w : Storing) (b : Bytes) (hb : 0 ∉ b)
    (hplain : ∀ part ∈ names b ++ names (text "jobs/requests"),
      part ≠ [] ∧ part ≠ text "." ∧ part ≠ text "..")
    (hne : names b ≠ names (text "jobs/requests")) :
    dir cwd (write fs cwd (requestPath db) json w) (root ++ 47 :: b) =
      dir cwd fs (root ++ 47 :: b) := by
  have hplace := place_requestPath hl hroot hp hfree
  rw [hl.rooted.1] at hp
  rw [dir, dir, directory_write]
  cases hq : directory fs cwd (root ++ 47 :: b) with
  | none => rfl
  | some q =>
    have hqp : q ≠ p := directory_ne hroot hb (by decide) hplain hne hq hp
    exact lookup_write_ne hplace hqp json w

/-- Above the directory of the requests is that of the jobs. -/
theorem directory_jobs {db : DataBase} {root : Bytes} (hl : Layout db root) (hroot : 0 ∉ root)
    {fs : Disk} {p : Path} (hp : directory fs cwd db.m_jobs_requests_dir = some p) :
    ∃ j, directory fs cwd (root ++ text "/jobs") = some j := by
  have hbelow : 0 ∉ root ++ text "/jobs" ∧ root ++ text "/jobs" ≠ [] :=
    below_root hroot (by decide) (by decide)
  have hpath : directory fs cwd (root ++ text "/jobs" ++ 47 :: text "requests") = some p := by
    rw [List.append_assoc]
    rw [hl.rooted.1] at hp
    exact hp
  exact directory_append hbelow.2 hbelow.1 hpath

/-- Storing the request of a job in the file system does to the store of the scheduler what
`DataBase::newJob` does to it. -/
theorem treeOf_newJob {db : DataBase} {root : Bytes} (hl : Layout db root) (hroot : 0 ∉ root)
    {fs : Disk} {p : Path} (hp : directory fs cwd db.m_jobs_requests_dir = some p)
    (hfree : p ++ [decimal db.m_jobId] ∉ fs) (json : Bytes) (w : Storing) :
    treeOf cwd db (write fs cwd (requestPath db) json w) =
      (db.newJob (treeOf cwd db fs) json w).2.2 := by
  have hplace := place_requestPath hl hroot hp hfree
  have hmem : p ∈ fs := (walk_eq_some hp).2
  obtain ⟨d, hd⟩ := Option.isSome_iff_exists.mp (AList.lookup_isSome.mpr hmem)
  have hrequests : dir cwd (write fs cwd (requestPath db) json w) db.m_jobs_requests_dir =
      some (store d (decimal db.m_jobId) json w) := by
    rw [dir, directory_write, hp, Option.bind_some, lookup_write hplace hd]
  have hother := dir_write_other hl hroot hp hfree json w
  have hfinished := hother (text "jobs/finished") (by decide) (by decide) (by decide)
  have hlogs := hother (text "logs") (by decide) (by decide) (by decide)
  have hscripts := hother (text "repo/scripts") (by decide) (by decide) (by decide)
  have htargets := hother (text "repo/targets") (by decide) (by decide) (by decide)
  obtain ⟨j, hj⟩ := directory_jobs hl hroot hp
  have hold : dir cwd fs db.m_jobs_requests_dir = some d := by
    rw [dir, hp, Option.bind_some, hd]
  have hnew : (treeOf cwd db fs).requests = some d := by
    simp [treeOf, Tree.requests, hl.rootDir, hj, hold]
  simp only [DataBase.newJob, hnew]
  simp only [treeOf, hrequests, hold, Tree.setRequests, directory_write, hl.rootDir, hl.rooted.2,
    hl.scripts, hl.targets, hj, Option.map_some]
  rw [show root ++ text "/jobs/finished" = root ++ 47 :: text "jobs/finished" from rfl, hfinished,
    show root ++ text "/logs" = root ++ 47 :: text "logs" from rfl, hlogs,
    show root ++ text "/repo/scripts" = root ++ 47 :: text "repo/scripts" from rfl, hscripts,
    show root ++ text "/repo/targets" = root ++ 47 :: text "repo/targets" from rfl, htargets]

end OpcUaTestTool.Api
