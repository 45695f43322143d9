import OpcUaTestTool.FinishedBounds
import OpcUaTestTool.ServedBodies
import OpcUaTestTool.TornResults

/-! The service with its test runners on one file system: requests of all routes in any order, and
runners of accepted jobs that end at any time and store their results as far as they get. -/
namespace OpcUaTestTool.ServiceRuns
open FiniteMap Numerals Directory FileSystem Store JobScheduler JsonValues JsonDump JsonSound
open JsonLibrary TestRunner ScriptPaths FinishedJobs Api ServedBodies TornResults
open Transition
open FinishedBounds (BoundIsInt Reads)

/- The bodies of the jobs that were acknowledged are kept for the statements below, under the ids
that the clients were told. -/
structure World where
  service : Service
  accepted : Map Int Bytes := ∅

inductive Action where
  | request (env : Env) (req : HttpRequest)
  | runner (jobId : Int) (e : Execution) (w : Storing)
  | jobFinished (pid fork : Int)

variable (L : Library) (cwd : Path)

/-- The result files, as a runner leaves them. -/
def putFinished (db : DataBase) (fs : Disk) (t : Tree) : Disk :=
  match directory fs cwd db.m_jobs_finished_dir, t.finished with
  | some p, some finished => fs.insert p finished
  | _, _ => fs

/-- The test runner of a job on the files of the service. -/
def testRunner (s : Service) (jobId : Int) (e : Execution) (w : Storing) : Service :=
  { s with
    disk := putFinished cwd s.scheduler.db s.disk
      (main L.parse L.dump s.scheduler.db.m_rootDir (s.scheduler.argvList jobId)
        (treeOf cwd s.scheduler.db s.disk) e w).tree }

/-- The id that a client reads in an answer. -/
def answeredId (content : Content) : Option Int :=
  match (L.parse content.body).bind fun j => j.at (text "id") with
  | some (.integer id) => some id
  | _ => none

def accept (w : World) (content : Content) : HttpRequest → Map Int Bytes
  | .postJobs body =>
    match answeredId L content with
    | some id => w.accepted.insert id body
    | none => w.accepted
  | _ => w.accepted

/- A handler that throws leaves the service running; the others end the process. While a result
file is being written, it is as if the runner had stored it up to some byte; the runner taken again
has stored more. -/
def step (w : World) : Action → Option World
  | .request env req =>
    match handle L.parse L.dump cwd w.service env req with
    | (.ok content, service) => some { service := service, accepted := accept L w content req }
    | (.error (.thrown _), service) => some { w with service := service }
    | (.error (.left _), _) => none
  | .runner jobId e storing =>
    if jobId ∈ w.accepted then
      some { w with service := testRunner L cwd w.service jobId e storing }
    else none
  | .jobFinished pid fork =>
    match w.service.scheduler.jobFinished pid fork with
    | .error _ => none
    | .ok f => some { w with service := { w.service with scheduler := f.scheduler } }

def requestOf (w : World) (id : Int) : Option Bytes :=
  (dir cwd w.service.disk w.service.scheduler.db.m_jobs_requests_dir).bind
    (AList.lookup (decimal id))

def finishedOf (w : World) (id : Int) : Option Bytes :=
  (dir cwd w.service.disk w.service.scheduler.db.m_jobs_finished_dir).bind
    (AList.lookup (decimal id))

/-- The runtime of an execution that does not end early. -/
def runtime (e : Execution) : ℚ := (e.steady_stop - e.steady_start : Int) / 1000000

/-- What the clocks give are values of their types. -/
structure Clocked (e : Execution) : Prop where
  start : L.Value (.integer e.system_start)
  stop : L.Value (.integer e.system_stop)
  runtime : L.Value (.float (runtime e))

/-- The directories of the jobs hold what they held. -/
def SameJobs (db : DataBase) (fs fs' : Disk) : Prop :=
  ∀ d ∈ jobDirs db, directory fs' cwd d = directory fs cwd d ∧ dir cwd fs' d = dir cwd fs d

/-- Bodies of jobs are stored, under ids that `int` has, and no directory is in their way. Names of
scripts that are updated, and clones, stay away from the jobs. -/
def Careful (w : World) : Action → Prop
  | .request env (.postJobs _) => env.storing = .stored ∧
      w.service.scheduler.db.m_jobId < 2147483647 ∧
      (∀ p, directory w.service.disk cwd w.service.scheduler.db.m_jobs_requests_dir = some p →
        p ++ [decimal w.service.scheduler.db.m_jobId] ∉ w.service.disk)
  | .request _ (.postScript name _) =>
      Harmless w.service.scheduler.db w.service.disk cwd name
  | .request env .putRepoClone =>
      SameJobs cwd w.service.scheduler.db w.service.disk env.cloned
  | .runner _ e _ => Clocked L e
  | _ => True

/-- A job as `createFromFile` makes it of a request. -/
def IsJobOf (request : Json) (scriptDir : Bytes) (job : Job) : Prop :=
  ∃ name serverUri script, request.at (text "name") = some (.string name) ∧
    request.at (text "serverUri") = some (.string serverUri) ∧
    request.at (text "script") = some (.string script) ∧
    job = { m_name := name, m_serverUri := serverUri, m_scriptDir := scriptDir, m_script := script }

/-- A record of a job that was posted with a body. -/
def IsRecordOf (scriptDir body : Bytes) (id : Int) (record : Json) : Prop :=
  ∃ request job e, L.parse body = some request ∧ IsJobOf request scriptDir job ∧
    record = (Job.execute job e).output id request

/- Every accepted job has its request, and every result file holds a piece of a record of
its job. -/
structure Sane (root : Bytes) (w : World) : Prop where
  layout : Layout w.service.scheduler.db root
  requestsDir : ∃ p,
    directory w.service.disk cwd w.service.scheduler.db.m_jobs_requests_dir = some p
  finishedDir : ∃ p,
    directory w.service.disk cwd w.service.scheduler.db.m_jobs_finished_dir = some p
  counter : 0 ≤ w.service.scheduler.db.m_jobId ∧ InInt w.service.scheduler.db.m_jobId
  accepted : ∀ id body, w.accepted.lookup id = some body →
    0 ≤ id ∧ id < w.service.scheduler.db.m_jobId ∧ requestOf cwd w id = some body
  finished : ∀ id content, finishedOf cwd w id = some content → ∃ body record,
    w.accepted.lookup id = some body ∧
      IsRecordOf L w.service.scheduler.db.m_scriptDir body id record ∧
      L.Value record ∧ content <+: L.dump record

/-- A service on a store without results. -/
structure Fresh (root : Bytes) (w : World) : Prop where
  layout : Layout w.service.scheduler.db root
  requestsDir : ∃ p,
    directory w.service.disk cwd w.service.scheduler.db.m_jobs_requests_dir = some p
  finishedDir : ∃ p,
    directory w.service.disk cwd w.service.scheduler.db.m_jobs_finished_dir = some p
  counter : w.service.scheduler.db.m_jobId = 0
  accepted : w.accepted = ∅
  finished : ∀ id, finishedOf cwd w id = none

variable {L cwd} {root : Bytes}

theorem Fresh.sane {w : World} (h : Fresh cwd root w) : Sane L cwd root w := by
  refine ⟨h.layout, h.requestsDir, h.finishedDir, ?_, ?_, ?_⟩
  · rw [h.counter]
    decide
  · intro id body hl
    rw [h.accepted] at hl
    cases hl
  · intro id content hl
    rw [h.finished id] at hl
    cases hl

/-- The ids of the jobs are values of `int`. -/
theorem Sane.inInt {w : World} (h : Sane L cwd root w) {id : Int} {body : Bytes}
    (haccepted : w.accepted.lookup id = some body) : InInt id := by
  obtain ⟨hpos, hlt, _⟩ := h.accepted id body haccepted
  have := h.counter.2.2
  exact ⟨by omega, by omega⟩

/-- What happens away from the requests and the results does not matter. -/
theorem Sane.of_sameDirs {w : World} (h : Sane L cwd root w) {s : Service}
    (hdb : s.scheduler.db = w.service.scheduler.db)
    (hs : ∀ d ∈ [w.service.scheduler.db.m_jobs_requests_dir,
        w.service.scheduler.db.m_jobs_finished_dir],
      directory s.disk cwd d = directory w.service.disk cwd d ∧
        dir cwd s.disk d = dir cwd w.service.disk d) :
    Sane L cwd root { w with service := s } := by
  have hrequests := hs w.service.scheduler.db.m_jobs_requests_dir (by simp)
  have hfinished := hs w.service.scheduler.db.m_jobs_finished_dir (by simp)
  refine ⟨?_, ?_, ?_, ?_, ?_, ?_⟩
  · dsimp only
    rw [hdb]
    exact h.layout
  · dsimp only
    rw [hdb, hrequests.1]
    exact h.requestsDir
  · dsimp only
    rw [hdb, hfinished.1]
    exact h.finishedDir
  · dsimp only
    rw [hdb]
    exact h.counter
  · dsimp only [requestOf]
    rw [hdb, hrequests.2]
    exact h.accepted
  · dsimp only [finishedOf]
    rw [hdb, hfinished.2]
    exact h.finished

theorem Sane.of_sameJobs {w : World} (h : Sane L cwd root w) {s : Service}
    (hdb : s.scheduler.db = w.service.scheduler.db)
    (hs : SameJobs cwd w.service.scheduler.db w.service.disk s.disk) :
    Sane L cwd root { w with service := s } := by
  refine h.of_sameDirs hdb fun d hd => hs d ?_
  simp only [List.mem_cons, List.not_mem_nil, or_false] at hd
  simp only [jobDirs, List.mem_cons]
  tauto

/-! ### Test runners -/

theorem isJobOf_of_createFromFile {t : Tree} {path scriptDir : Bytes} {job : Job}
    (h : createFromFile L.parse root t path scriptDir = some job) :
    ∃ request, L.parse (readFile root t path) = some request ∧ IsJobOf request scriptDir job := by
  obtain ⟨request, name, serverUri, script, hj, hn, hu, hs, rfl⟩ := createFromFile_eq_some.mp h
  exact ⟨request, hj, name, serverUri, script, hn, hu, hs, rfl⟩

variable (L) in
/-- A test runner leaves the results as they are, or it writes the record of its job. -/
theorem main_finished {s : Scheduler} {t : Tree} {id : Int} {finished : Dir}
    (hdb : Rooted s.db root) (hid : InInt id) (hfinished : t.finished = some finished)
    (e : Execution) (w : Storing) :
    ∃ finished', (main L.parse L.dump root (s.argvList id) t e w).tree.finished =
        some finished' ∧
      (finished' = finished ∧ ¬ Requested L.parse t id ∨
        ∃ request job, L.parse (requestText t id) = some request ∧
        IsJobOf request s.db.m_scriptDir job ∧
        finished' = store finished (decimal id)
          (L.dump ((Job.execute job e).output id request)) w) := by
  have hread := readFile_request root t id
  cases hcreate : createFromFile L.parse root t
      (root ++ text "/jobs/requests" ++ text "/" ++ decimal id) s.db.m_scriptDir with
  | none =>
    refine ⟨finished, by simp only [main, Scheduler.argvList, hdb.1, hcreate, hfinished],
      Or.inl ⟨rfl, ?_⟩⟩
    rintro ⟨request, hj, name, serverUri, script, hn, hu, hs⟩
    rw [createFromFile_eq_some.mpr ⟨request, name, serverUri, script, hread ▸ hj, hn, hu, hs, rfl⟩]
      at hcreate
    cases hcreate
  | some job =>
    obtain ⟨request, hj, hjob⟩ := isJobOf_of_createFromFile hcreate
    rw [hread] at hj
    refine ⟨_, ?_, Or.inr ⟨request, job, hj, hjob, rfl⟩⟩
    simp only [main, Scheduler.argvList, hdb.1, hdb.2, hcreate, stoi_decimal hid, Job.addResult,
      hread, hj, bind, Option.bind_some, writeFile_result hfinished, Tree.finished_setFinished,
      hfinished, Option.map_some]

/-- The record of a job that was executed is a value. -/
theorem value_record {body : Bytes} {request : Json} (hrequest : L.parse body = some request)
    {scriptDir : Bytes} {job : Job} (hjob : IsJobOf request scriptDir job) {e : Execution}
    (he : Clocked L e) {id : Int} (hid : InInt id) :
    L.Value ((Job.execute job e).output id request) := by
  have hzero : L.Value (.integer 0) := L.value_int (by decide)
  refine value_output ?_ hid (L.parse_sound hrequest)
  obtain ⟨name, serverUri, script, _, _, _, rfl⟩ := hjob
  unfold Job.execute
  cases e.load with
  | some _ => exact ⟨hzero, hzero, .float L.double_zero⟩
  | none =>
    cases e.eval with
    | some _ => exact ⟨he.start, hzero, .float L.double_zero⟩
    | none => exact ⟨he.start, he.stop, he.runtime⟩

theorem prefix_of_store {d : Dir} {name content left : Bytes} {w : Storing}
    (h : (store d name content w).lookup name = some left) :
    left <+: content ∨ d.lookup name = some left := by
  cases w with
  | stored =>
    simp only [store, AList.lookup_insert, Option.some.injEq] at h
    exact Or.inl (h ▸ List.prefix_rfl)
  | notOpened => exact Or.inr h
  | cut n =>
    simp only [store, AList.lookup_insert, Option.some.injEq] at h
    exact Or.inl (h ▸ List.take_prefix n content)

/-- Storing into a directory that exists creates and removes no directory. -/
theorem directory_insert {fs : Disk} {p : Path} (hp : p ∈ fs) (d : Dir) (path : Bytes) :
    directory (fs.insert p d) cwd path = directory fs cwd path := by
  refine walk_congr (fun q => ?_) _ _
  rw [AList.mem_insert]
  exact ⟨fun h => h.elim (fun he => he ▸ hp) id, Or.inr⟩

/-! ### Steps -/

theorem sameJobs_refl (db : DataBase) (fs : Disk) : SameJobs cwd db fs fs :=
  fun _ _ => ⟨rfl, rfl⟩

theorem sameJobs_updateScript {db : DataBase} (hl : Layout db root) (hroot : 0 ∉ root) {fs : Disk}
    {name : Bytes} (h : Harmless db fs cwd name) (content : Bytes) (w : Storing) :
    SameJobs cwd db fs (updateScript db fs cwd name content w) := by
  intro d hd
  refine ⟨directory_write _ _ _ _ _ _, ?_⟩
  rw [dir, dir, updateScript, directory_write]
  cases hp : directory fs cwd d with
  | none => rfl
  | some p =>
    cases hq : place fs cwd (scriptPath db.m_scriptDir name) with
    | none => rw [write_of_place_eq_none hq]
    | some q =>
      have hpq : p ≠ q.dir := by
        rintro rfl
        obtain ⟨s, hs, hin⟩ := h.inScripts hl hroot hq
        exact jobDirs_apart hl hroot hd hp hs hin
      exact lookup_write_ne hq hpq content w

/-- Only a new job changes the scheduler. -/
theorem scheduler_handle {parse : Bytes → Option Json} {dump : Json → Bytes} {s : Service}
    {env : Env} {req : HttpRequest}
    (h : ∀ body, req ≠ .postJobs body) :
    (handle parse dump cwd s env req).2.scheduler = s.scheduler := by
  cases req with
  | getJobs fromValue maxValue =>
    cases hf : number fromValue with
    | error e => simp [handle, hf]
    | ok fromId =>
      cases hm : number maxValue with
      | error e => simp [handle, hf, hm]
      | ok max =>
        cases hd : dir cwd s.disk s.scheduler.db.m_jobs_finished_dir with
        | none => simp [handle, hf, hm, answer, apiCallback, hd]
        | some finished => simp [handle, hf, hm, answer, apiCallback, hd]
  | getScripts =>
    cases hd : directory s.disk cwd s.scheduler.db.m_scriptDir with
    | none => simp [handle, answer, apiCallback, hd]
    | some p => simp [handle, answer, apiCallback, hd]
  | getJob idValue =>
    cases hn : number (some idValue) with
    | error e => simp [handle, hn]
    | ok id => simp [handle, hn, answer, apiCallback]
  | getJobLog idValue =>
    cases hn : number (some idValue) with
    | error e => simp [handle, hn]
    | ok id => simp [handle, hn, answer, apiCallback]
  | postJobs body => exact absurd rfl (h body)
  | _ => rfl

theorem sameJobs_handle {w : World} (hl : Layout w.service.scheduler.db root) (hroot : 0 ∉ root)
    {env : Env} {req : HttpRequest} (hcareful : Careful L cwd w (.request env req))
    (h : ∀ body, req ≠ .postJobs body) :
    SameJobs cwd w.service.scheduler.db w.service.disk
      (handle L.parse L.dump cwd w.service env req).2.disk := by
  cases req with
  | postJobs body => exact absurd rfl (h body)
  | postScript name body => exact sameJobs_updateScript hl hroot hcareful body env.storing
  | putRepoClone => exact hcareful
  | _ =>
    rw [disk_reading (by simp) (by simp) (by simp)]
    exact sameJobs_refl _ _

variable (L) in
theorem answeredId_json {id : Int} (hid : InInt id) :
    answeredId L (json L.dump [(text "id", .integer id), (text "ok", .boolean true)]) =
      some id := by
  have hparse : L.parse (json L.dump
      [(text "id", .integer id), (text "ok", .boolean true)]).body =
      some (.object [(text "id", .integer id), (text "ok", .boolean true)]) :=
    L.parse_dump (sound_pair id_lt_ok rfl rfl (L.value_int hid) (.boolean true))
  simp only [answeredId, hparse]
  rfl

/-- The state after a job was accepted. -/
theorem step_postJobs {w w' : World} (hid : InInt w.service.scheduler.db.m_jobId) {env : Env}
    {body : Bytes}
    (h : step L cwd w (.request env (.postJobs body)) = some w') :
    ∃ c, w.service.scheduler.create (treeOf cwd w.service.scheduler.db w.service.disk) body
        env.storing env.fork = .ok c ∧
      c.scheduler.db = { w.service.scheduler.db with
        m_jobId := int32 (w.service.scheduler.db.m_jobId + 1) } ∧
      w' = { service := { w.service with
              scheduler := c.scheduler
              disk := write w.service.disk cwd (requestPath w.service.scheduler.db) body
                env.storing }
             accepted := w.accepted.insert w.service.scheduler.db.m_jobId body } := by
  cases hc : w.service.scheduler.create (treeOf cwd w.service.scheduler.db w.service.disk) body
      env.storing env.fork with
  | error e =>
    simp only [step, handle, answer, apiCallback, Service.newJob, hc] at h
    cases h
  | ok c =>
    have hanswered := answeredId_json L ((create_spec hc).1 ▸ hid)
    simp only [step, handle, answer, apiCallback, Service.newJob, hc] at h
    refine ⟨c, rfl, (schedule_frame (create_spec hc).2.2).1, ?_⟩
    rw [← (create_spec hc).1]
    have haccept : accept L w (json L.dump
        [(text "id", .integer c.newJobId), (text "ok", .boolean true)]) (.postJobs body) =
        w.accepted.insert c.newJobId body := by
      simp only [accept, hanswered]
    rw [← haccept]
    exact (Option.some.inj h).symm

theorem dir_of_directory {fs : Disk} {path : Bytes} {p : Path}
    (h : directory fs cwd path = some p) :
    ∃ d, fs.lookup p = some d ∧ dir cwd fs path = some d := by
  have hmem : p ∈ fs := (walk_eq_some h).2
  obtain ⟨d, hd⟩ := Option.isSome_iff_exists.mp (AList.lookup_isSome.mpr hmem)
  exact ⟨d, hd, by rw [dir, h, Option.bind_some, hd]⟩

/-- Storing a request leaves the results alone. -/
theorem Sane.finishedOf_postJobs {w w' : World} (h : Sane L cwd root w) (hroot : 0 ∉ root)
    {env : Env} {body : Bytes}
    (hcareful : Careful L cwd w (.request env (.postJobs body)))
    (hs : step L cwd w (.request env (.postJobs body)) = some w') (id : Int) :
    finishedOf cwd w' id = finishedOf cwd w id := by
  obtain ⟨c, _, hdb, rfl⟩ := step_postJobs h.counter.2 hs
  obtain ⟨p, hp⟩ := h.requestsDir
  have hfinished := dir_write_other h.layout hroot hp (hcareful.2.2 p hp) body env.storing
    (text "jobs/finished") (by decide) (by decide) (by decide)
  rw [show root ++ 47 :: text "jobs/finished" = root ++ text "/jobs/finished" from rfl,
    ← h.layout.rooted.2] at hfinished
  dsimp only [finishedOf]
  rw [hdb, hfinished]

theorem Sane.postJobs {w w' : World} (h : Sane L cwd root w) (hroot : 0 ∉ root) {env : Env}
    {body : Bytes} (hcareful : Careful L cwd w (.request env (.postJobs body)))
    (hs : step L cwd w (.request env (.postJobs body)) = some w') :
    Sane L cwd root w' := by
  have hfinished := h.finishedOf_postJobs hroot hcareful hs
  obtain ⟨c, _, hdb, rfl⟩ := step_postJobs h.counter.2 hs
  obtain ⟨hstoring, hmax, hfree⟩ := hcareful
  obtain ⟨p, hp⟩ := h.requestsDir
  obtain ⟨d, hd, hdir⟩ := dir_of_directory hp
  have hcounter : int32 (w.service.scheduler.db.m_jobId + 1) =
      w.service.scheduler.db.m_jobId + 1 := by
    have := h.counter
    exact int32_eq_self ⟨by omega, by omega⟩
  rw [hcounter] at hdb
  have hplace := place_requestPath h.layout hroot hp (hfree p hp)
  have hrequests (id : Int) : requestOf cwd
      { service := { w.service with
          scheduler := c.scheduler
          disk := write w.service.disk cwd (requestPath w.service.scheduler.db) body env.storing }
        accepted := w.accepted.insert w.service.scheduler.db.m_jobId body } id =
      (d.insert (decimal w.service.scheduler.db.m_jobId) body).lookup (decimal id) := by
    dsimp only [requestOf]
    rw [hdb, dir, directory_write, hp, Option.bind_some, lookup_write hplace hd, hstoring,
      Option.bind_some, store]
  refine ⟨?_, ?_, ?_, ?_, ?_, ?_⟩
  · dsimp only
    rw [hdb]
    exact ⟨h.layout.rooted, h.layout.rootDir, h.layout.scripts, h.layout.targets⟩
  · dsimp only
    rw [hdb, directory_write]
    exact ⟨p, hp⟩
  · dsimp only
    rw [hdb, directory_write]
    exact h.finishedDir
  · dsimp only
    rw [hdb]
    have := h.counter
    exact ⟨by dsimp only; omega, by dsimp only; omega, by dsimp only; omega⟩
  · intro id content hl
    rw [hrequests id]
    dsimp only
    rw [hdb]
    cases lookup_insert_eq_some.mp hl with
    | inl hnew =>
      obtain ⟨rfl, rfl⟩ := hnew
      have := h.counter
      exact ⟨by omega, by dsimp only; omega, AList.lookup_insert _⟩
    | inr hold =>
      obtain ⟨hpos, hlt, hrequest⟩ := h.accepted id content hold.2
      have hne : decimal id ≠ decimal w.service.scheduler.db.m_jobId := fun heq =>
        hold.1 (decimal_injective heq)
      refine ⟨hpos, by dsimp only; omega, ?_⟩
      rw [lookup_insert_ne hne]
      rw [requestOf, hdir, Option.bind_some] at hrequest
      exact hrequest
  · intro id content hl
    rw [hfinished id] at hl
    obtain ⟨body', record, haccepted, hrecord⟩ := h.finished id content hl
    have hlt := (h.accepted id body' haccepted).2.1
    refine ⟨body', record, ?_, ?_⟩
    swap
    · dsimp only
      rw [hdb]
      exact hrecord
    rw [lookup_insert_ne (by omega), haccepted]

/-- The store of the scheduler, as a test runner finds it. -/
theorem Sane.treeOf {w : World} (h : Sane L cwd root w) (hroot : 0 ∉ root) {p : Path}
    {d : Dir}
    (hp : directory w.service.disk cwd w.service.scheduler.db.m_jobs_finished_dir = some p)
    (hd : w.service.disk.lookup p = some d) :
    (treeOf cwd w.service.scheduler.db w.service.disk).finished = some d ∧
      ∀ id, requestText (treeOf cwd w.service.scheduler.db w.service.disk) id =
        (requestOf cwd w id).getD [] := by
  obtain ⟨r, hr⟩ := h.requestsDir
  obtain ⟨j, hj⟩ := directory_jobs h.layout hroot hr
  refine ⟨?_, fun id => ?_⟩
  · simp [Api.treeOf, Tree.finished, h.layout.rootDir, hj, dir, hp, hd]
  · simp [Api.treeOf, requestText, Tree.requests, h.layout.rootDir, hj, requestOf]

/-- What a test runner does to the files: nothing, or the result file of its job is written. -/
theorem Sane.disk_testRunner {w : World} (h : Sane L cwd root w) (hroot : 0 ∉ root)
    {jobId : Int} {body : Bytes} (haccepted : w.accepted.lookup jobId = some body) (e : Execution)
    (storing : Storing) :
    ∃ p d finished',
      directory w.service.disk cwd w.service.scheduler.db.m_jobs_finished_dir = some p ∧
      dir cwd w.service.disk w.service.scheduler.db.m_jobs_finished_dir = some d ∧
      (testRunner L cwd w.service jobId e storing).disk =
        w.service.disk.insert p finished' ∧
      (finished' = d ∧ (¬ ∃ request, L.parse body = some request ∧ IsJobRequest request) ∨
        ∃ request job, L.parse body = some request ∧
          IsJobOf request w.service.scheduler.db.m_scriptDir job ∧
          finished' = store d (decimal jobId)
            (L.dump ((Job.execute job e).output jobId request)) storing) := by
  obtain ⟨_, _, hrequest⟩ := h.accepted jobId body haccepted
  obtain ⟨p, hp⟩ := h.finishedDir
  obtain ⟨d, hd, hdir⟩ := dir_of_directory hp
  obtain ⟨htree, htext⟩ := h.treeOf hroot hp hd
  have hid := h.inInt haccepted
  obtain ⟨finished', hfinished', hcases⟩ := main_finished L
    h.layout.rooted hid htree e storing
  rw [Requested, htext, hrequest, Option.getD_some] at hcases
  refine ⟨p, d, finished', hp, hdir, ?_, hcases⟩
  simp only [testRunner, putFinished, hp, h.layout.rootDir, hfinished']

theorem finishedOf_testRunner {w : World} {p : Path} {finished' : Dir} {jobId : Int}
    {e : Execution} {storing : Storing}
    (hp : directory w.service.disk cwd w.service.scheduler.db.m_jobs_finished_dir = some p)
    (hdisk : (testRunner L cwd w.service jobId e storing).disk =
      w.service.disk.insert p finished') (id : Int) :
    finishedOf cwd { w with service := testRunner L cwd w.service jobId e storing } id =
      finished'.lookup (decimal id) := by
  have hmem : p ∈ w.service.disk := (walk_eq_some hp).2
  dsimp only [finishedOf]
  rw [hdisk, dir]
  dsimp only [testRunner]
  rw [directory_insert hmem, hp, Option.bind_some, AList.lookup_insert, Option.bind_some]

theorem Sane.runner {w : World} (h : Sane L cwd root w) (hroot : 0 ∉ root)
    {jobId : Int} {e : Execution} (he : Clocked L e)
    (storing : Storing) (hjob : jobId ∈ w.accepted) :
    Sane L cwd root
      { w with service := testRunner L cwd w.service jobId e storing } := by
  obtain ⟨body, haccepted⟩ := Option.isSome_iff_exists.mp (AList.lookup_isSome.mpr hjob)
  have hid := h.inInt haccepted
  obtain ⟨r, hr⟩ := h.requestsDir
  obtain ⟨p, d, finished', hp, hdir, hdisk, hcases⟩ :=
    h.disk_testRunner hroot haccepted e storing
  have hmem : p ∈ w.service.disk := (walk_eq_some hp).2
  have hrequests (id : Int) : requestOf cwd
      { w with service := testRunner L cwd w.service jobId e storing } id =
      requestOf cwd w id := by
    have hne : r ≠ p := by
      rw [h.layout.rooted.1] at hr
      rw [h.layout.rooted.2] at hp
      exact directory_ne (a := text "jobs/requests") (b := text "jobs/finished") hroot (by decide)
        (by decide) (by decide) (by decide) hr hp
    dsimp only [requestOf]
    rw [hdisk, dir, dir]
    dsimp only [testRunner]
    rw [directory_insert hmem, hr, Option.bind_some, Option.bind_some, lookup_insert_ne hne]
  refine ⟨h.layout, ?_, ?_, h.counter, ?_, ?_⟩
  · dsimp only
    rw [hdisk]
    exact ⟨r, (directory_insert hmem _ _).trans hr⟩
  · dsimp only
    rw [hdisk]
    exact ⟨p, (directory_insert hmem _ _).trans hp⟩
  · intro id content hl
    rw [hrequests id]
    exact h.accepted id content hl
  · intro id content hl
    rw [finishedOf_testRunner hp hdisk id] at hl
    have hold (hl : d.lookup (decimal id) = some content) := h.finished id content (by
      rw [finishedOf, hdir, Option.bind_some, hl])
    cases hcases with
    | inl hsame => exact hold (hsame.1 ▸ hl)
    | inr hwritten =>
      obtain ⟨request, job, hparse, hjobOf, rfl⟩ := hwritten
      by_cases hname : decimal id = decimal jobId
      · obtain rfl := decimal_injective hname
        cases prefix_of_store hl with
        | inr hl => exact hold hl
        | inl hprefix =>
          exact ⟨body, _, haccepted, ⟨request, job, e, hparse, hjobOf, rfl⟩,
            value_record hparse hjobOf he hid, hprefix⟩
      · rw [lookup_store_ne _ _ hname] at hl
        exact hold hl

theorem step_runner {w w' : World} {jobId : Int} {e : Execution} {storing : Storing}
    (hs : step L cwd w (.runner jobId e storing) = some w') : jobId ∈ w.accepted ∧
      w' = { w with service := testRunner L cwd w.service jobId e storing } := by
  by_cases hjob : jobId ∈ w.accepted
  · simp only [step, if_pos hjob, Option.some.injEq] at hs
    exact ⟨hjob, hs.symm⟩
  · simp [step, hjob] at hs

/-- What a request that posts no job does is to change the service. -/
theorem step_request {w w' : World} {env : Env} {req : HttpRequest}
    (hreq : ∀ body, req ≠ .postJobs body)
    (hs : step L cwd w (.request env req) = some w') :
    w' = { w with service := (handle L.parse L.dump cwd w.service env req).2 } := by
  have haccept (content : Content) : accept L w content req = w.accepted := by
    cases req with
    | postJobs body => exact absurd rfl (hreq body)
    | _ => rfl
  unfold step at hs
  cases hr : (handle L.parse L.dump cwd w.service env req) with
  | mk result service =>
    cases result with
    | ok content =>
      simp only [hr, Option.some.injEq, haccept] at hs
      exact hs.symm
    | error e =>
      cases e with
      | thrown e =>
        simp only [hr, Option.some.injEq] at hs
        exact hs.symm
      | left e => simp [hr] at hs

theorem Sane.step {w w' : World} {a : Action} (h : Sane L cwd root w) (hroot : 0 ∉ root)
    (hcareful : Careful L cwd w a)
    (hs : step L cwd w a = some w') : Sane L cwd root w' := by
  cases a with
  | runner jobId e storing =>
    obtain ⟨hjob, rfl⟩ := step_runner hs
    exact h.runner hroot hcareful storing hjob
  | jobFinished pid fork =>
    cases hf : w.service.scheduler.jobFinished pid fork with
    | error e => simp [ServiceRuns.step, hf] at hs
    | ok f =>
      simp only [ServiceRuns.step, hf, Option.some.injEq] at hs
      exact hs ▸ h.of_sameJobs (jobFinished_frame hf).1 (sameJobs_refl _ _)
  | request env req =>
    by_cases hjobs : ∃ body, req = .postJobs body
    · obtain ⟨body, rfl⟩ := hjobs
      exact h.postJobs hroot hcareful hs
    · have hreq : ∀ body, req ≠ .postJobs body := fun body heq => hjobs ⟨body, heq⟩
      rw [step_request hreq hs]
      exact h.of_sameJobs (congrArg Scheduler.db (scheduler_handle hreq))
        (sameJobs_handle h.layout hroot hcareful hreq)

/-- Jobs stay accepted. -/
theorem Sane.accepted_kept {w w' : World} (h : Sane L cwd root w) {a : Action}
    (hs : ServiceRuns.step L cwd w a = some w') {id : Int} {body : Bytes}
    (hl : w.accepted.lookup id = some body) : w'.accepted.lookup id = some body := by
  cases a with
  | runner jobId e storing =>
    obtain ⟨_, rfl⟩ := step_runner hs
    exact hl
  | jobFinished pid fork =>
    cases hf : w.service.scheduler.jobFinished pid fork with
    | error e => simp [ServiceRuns.step, hf] at hs
    | ok f =>
      simp only [ServiceRuns.step, hf, Option.some.injEq] at hs
      exact hs ▸ hl
  | request env req =>
    by_cases hjobs : ∃ body, req = .postJobs body
    · obtain ⟨body', rfl⟩ := hjobs
      have hlt := (h.accepted id body hl).2.1
      obtain ⟨_, _, _, rfl⟩ := step_postJobs h.counter.2 hs
      dsimp only
      rw [lookup_insert_ne (by omega), hl]
    · rw [step_request (fun body heq => hjobs ⟨body, heq⟩) hs]
      exact hl

/-- Only its own test runner changes the result of a job. -/
theorem Sane.finishedOf_kept {w w' : World} (h : Sane L cwd root w) (hroot : 0 ∉ root)
    {a : Action} (hcareful : Careful L cwd w a)
    (hs : ServiceRuns.step L cwd w a = some w') {id : Int}
    (hother : ∀ e storing, a ≠ .runner id e storing) :
    finishedOf cwd w' id = finishedOf cwd w id := by
  cases a with
  | runner jobId e storing =>
    have hne : id ≠ jobId := fun heq => hother e storing (heq ▸ rfl)
    obtain ⟨hjob, rfl⟩ := step_runner hs
    obtain ⟨body, haccepted⟩ := Option.isSome_iff_exists.mp (AList.lookup_isSome.mpr hjob)
    obtain ⟨p, d, finished', hp, hdir, hdisk, hcases⟩ :=
      h.disk_testRunner hroot haccepted e storing
    rw [finishedOf_testRunner hp hdisk id, finishedOf, hdir, Option.bind_some]
    cases hcases with
    | inl hsame => rw [hsame.1]
    | inr hwritten =>
      obtain ⟨_, _, _, _, rfl⟩ := hwritten
      exact lookup_store_ne _ _ fun heq => hne (decimal_injective heq)
  | jobFinished pid fork =>
    cases hf : w.service.scheduler.jobFinished pid fork with
    | error e => simp [ServiceRuns.step, hf] at hs
    | ok f =>
      simp only [ServiceRuns.step, hf, Option.some.injEq] at hs
      rw [← hs, finishedOf, finishedOf]
      dsimp only
      rw [(jobFinished_frame hf).1]
  | request env req =>
    by_cases hjobs : ∃ body, req = .postJobs body
    · obtain ⟨body, rfl⟩ := hjobs
      exact h.finishedOf_postJobs hroot hcareful hs id
    · have hreq : ∀ body, req ≠ .postJobs body := fun body heq => hjobs ⟨body, heq⟩
      have hdb : (handle L.parse L.dump cwd w.service env req).2.scheduler.db =
          w.service.scheduler.db := congrArg Scheduler.db (scheduler_handle hreq)
      have hsame := (sameJobs_handle h.layout hroot hcareful hreq
        w.service.scheduler.db.m_jobs_finished_dir (by simp [jobDirs])).2
      rw [step_request hreq hs, finishedOf, finishedOf]
      dsimp only
      rw [hdb, hsame]

/-- Along careful runs from a store without results. -/
theorem Fresh.run {w w' : World} (h : Fresh cwd root w) (hroot : 0 ∉ root)
    {as : List Action}
    (hcareful : Meets (step L cwd) (Careful L cwd) w as)
    (hrun : run (step L cwd) w as = some w') : Sane L cwd root w' :=
  run_invariant_of_meets (fun _ _ _ h hc hs => Sane.step h hroot hc hs) h.sane hcareful hrun

/-! ### A run -/

/- A job is posted to a service without any, and its test runner takes 1.5 ms. -/
def freshDisk : Disk :=
  ([([], ∅), ([text "opt"], ∅), ([text "opt", text "jobs"], ∅),
    ([text "opt", text "jobs", text "requests"], ∅),
    ([text "opt", text "jobs", text "finished"], ∅)] :
      List (Path × Directory.Dir)).foldl (fun fs d => fs.insert d.1 d.2) ∅

def freshWorld : World := { service := { scheduler := sampleScheduler, disk := freshDisk } }

def posted : List Action := [.request sampleEnv (.postJobs sampleRequestText)]

def finishedRun : List Action :=
  posted ++ [.runner 0 sampleExecution .stored, .jobFinished 11 12]

theorem fresh_sample : Fresh [] (text "/opt") freshWorld :=
  ⟨layout_construct _ _ _ _, ⟨_, rfl⟩, ⟨_, rfl⟩, rfl, rfl, fun _ => rfl⟩

theorem clocked_sample : Clocked sampleLibrary sampleExecution := by
  have hruntime : runtime sampleExecution = 3 / 2 := by norm_num [runtime, sampleExecution]
  refine ⟨sampleLibrary.value_int (by decide), sampleLibrary.value_int (by decide), ?_⟩
  exact .float (Or.inr hruntime)

theorem careful_posted :
    Meets (step sampleLibrary []) (Careful sampleLibrary []) freshWorld posted := by
  refine ⟨⟨rfl, by decide, ?_⟩, fun _ _ => trivial⟩
  intro p hp
  obtain rfl : [text "opt", text "jobs", text "requests"] = p := Option.some.inj hp
  decide

theorem careful_finishedRun :
    Meets (step sampleLibrary []) (Careful sampleLibrary []) freshWorld finishedRun := by
  refine ⟨careful_posted.1, fun t ht => ⟨clocked_sample, fun t ht => ⟨trivial, fun _ _ => trivial⟩⟩⟩

theorem exists_of_isOk {r : Except Failure Content} (h : r.isOk = true) :
    ∃ content, r = .ok content := by
  cases r with
  | error e => cases h
  | ok content => exact ⟨content, rfl⟩

/-! ### Answers -/

theorem IsRecordOf.whole {scriptDir body : Bytes} {id : Int} {record : Json}
    (h : IsRecordOf L scriptDir body id record) (hvalue : L.Value record) :
    Whole L (L.dump record) := by
  obtain ⟨request, job, e, _, _, rfl⟩ := h
  exact whole_dump L hvalue

/-- A file of results that is read as a JSON value is the record of its job. -/
theorem Sane.read {w : World} (h : Sane L cwd root w) {id : Int} {content : Bytes} {j : Json}
    (hl : finishedOf cwd w id = some content) (hj : L.parse content = some j) :
    content = L.dump j ∧ ∃ body, w.accepted.lookup id = some body ∧
      IsRecordOf L w.service.scheduler.db.m_scriptDir body id j := by
  obtain ⟨body, record, haccepted, hrecord, hvalue, hprefix⟩ := h.finished id content hl
  have hcontent : content = L.dump record := by
    by_contra hcut
    rw [(hrecord.whole hvalue).torn hprefix hcut] at hj
    cases hj
  rw [hcontent, L.parse_dump hvalue, Option.some.injEq] at hj
  subst hj
  exact ⟨hcontent, body, haccepted, hrecord⟩

/-- What is served of a result file. -/
theorem Sane.getFinishedJob_eq {w : World} (h : Sane L cwd root w) (hroot : 0 ∉ root)
    {p : Path}
    (hp : directory w.service.disk cwd w.service.scheduler.db.m_jobs_finished_dir = some p)
    (id : Int) :
    getFinishedJob cwd w.service.scheduler.db w.service.disk id =
      if p ++ [decimal id] ∈ w.service.disk then []
      else (finishedOf cwd w id).getD (text "job not found") := by
  have hbelow : 0 ∉ w.service.scheduler.db.m_jobs_finished_dir ∧
      w.service.scheduler.db.m_jobs_finished_dir ≠ [] := by
    rw [h.layout.rooted.2]
    exact below_root hroot (by decide) (by decide)
  have hpath : w.service.scheduler.db.m_jobs_finished_dir ++ text "/" ++ decimal id =
      w.service.scheduler.db.m_jobs_finished_dir ++ 47 :: decimal id := by
    rw [List.append_assoc]
    rfl
  obtain ⟨hzero, hnames, henter⟩ := decimal_plain id
  rw [getFinishedJob, readOr, hpath, openRead_name ⟨hzero, hnames, henter⟩ hbelow.2 hbelow.1 hp,
    finishedOf, dir, hp, Option.bind_some]
  by_cases hdir : p ++ [decimal id] ∈ w.service.disk
  · simp only [if_pos hdir]
  · simp only [if_neg hdir, file]
    cases (w.service.disk.lookup p).bind (AList.lookup (decimal id)) with
    | none => rfl
    | some content => rfl

/-- A result that is served as a JSON value was read from the result file of the job. -/
theorem Sane.finishedOf_getFinishedJob {w : World} (h : Sane L cwd root w)
    (hroot : 0 ∉ root) {id : Int} {j : Json}
    (hj : L.parse (getFinishedJob cwd w.service.scheduler.db w.service.disk id) = some j) :
    finishedOf cwd w id = some (getFinishedJob cwd w.service.scheduler.db w.service.disk id) := by
  obtain ⟨p, hp⟩ := h.finishedDir
  have hmissing : L.parse (text "job not found") = none :=
    L.parse_none ⟨by decide, by decide⟩ (by rfl)
  have hnil : L.parse [] = none := L.parse_none plain_nil (by rfl)
  rw [h.getFinishedJob_eq hroot hp id] at hj ⊢
  by_cases hdir : p ++ [decimal id] ∈ w.service.disk
  · rw [if_pos hdir, hnil] at hj
    cases hj
  · rw [if_neg hdir] at hj ⊢
    cases hf : finishedOf cwd w id with
    | none =>
      rw [hf, Option.getD_none, hmissing] at hj
      cases hj
    | some content => rfl

/-- An answer of `GET /api/jobs/{id}` is made of the record of its job. -/
theorem Sane.of_getJob {w : World} (h : Sane L cwd root w) (hroot : 0 ∉ root) {env : Env}
    {value : Bytes} {content : Content}
    (hanswer : (handle L.parse L.dump cwd w.service env (.getJob value)).1 = .ok content) :
    ∃ id body record, stoi value = some id ∧ w.accepted.lookup id = some body ∧
      IsRecordOf L w.service.scheduler.db.m_scriptDir body id record ∧
      L.parse content.body =
        some (.object [(text "response", record), (text "statusCode", .boolean true)]) := by
  obtain ⟨id, record, hid, hparse, hd⟩ := handle_getJob_ok hanswer
  have hfile := h.finishedOf_getFinishedJob hroot hparse
  obtain ⟨_, body, haccepted, hrecord⟩ := h.read hfile hparse
  refine ⟨id, body, record, hid, haccepted, hrecord, ?_⟩
  rw [hd, Except.ok.injEq] at hanswer
  rw [← hanswer]
  exact L.parse_dump
    (sound_pair response_lt_statusCode rfl rfl (L.parse_sound hparse) (.boolean true))

theorem IsJobOf.unique {request : Json} {scriptDir : Bytes} {job job' : Job}
    (h : IsJobOf request scriptDir job) (h' : IsJobOf request scriptDir job') : job = job' := by
  obtain ⟨name, serverUri, script, hn, hu, hs, rfl⟩ := h
  obtain ⟨name', serverUri', script', hn', hu', hs', rfl⟩ := h'
  rw [hn, Option.some.injEq, Json.string.injEq] at hn'
  rw [hu, Option.some.injEq, Json.string.injEq] at hu'
  rw [hs, Option.some.injEq, Json.string.injEq] at hs'
  rw [hn', hu', hs']

/-- A test runner that gets to its end has stored the record of its job. -/
theorem Sane.finishedOf_stored {w : World} (h : Sane L cwd root w) (hroot : 0 ∉ root)
    {jobId : Int} {body : Bytes} (haccepted : w.accepted.lookup jobId = some body) {request : Json}
    (hparse : L.parse body = some request) {job : Job}
    (hjob : IsJobOf request w.service.scheduler.db.m_scriptDir job) (e : Execution) :
    finishedOf cwd { w with service := testRunner L cwd w.service jobId e .stored } jobId =
      some (L.dump ((Job.execute job e).output jobId request)) := by
  obtain ⟨p, d, finished', hp, _, hdisk, hcases⟩ := h.disk_testRunner hroot haccepted e .stored
  rw [finishedOf_testRunner hp hdisk jobId]
  cases hcases with
  | inl hnone =>
    obtain ⟨name, serverUri, script, hn, hu, hs, _⟩ := hjob
    exact absurd ⟨request, hparse, name, serverUri, script, hn, hu, hs⟩ hnone.2
  | inr hwritten =>
    obtain ⟨request', job', hparse', hjob', rfl⟩ := hwritten
    obtain rfl : request = request' := Option.some.inj (hparse.symm.trans hparse')
    obtain rfl := hjob.unique hjob'
    rw [store, AList.lookup_insert]

/-- A record that a result file holds is answered. -/
theorem Sane.of_record {w : World} (h : Sane L cwd root w) (hroot : 0 ∉ root)
    {jobId : Int} {body : Bytes}
    (haccepted : w.accepted.lookup jobId = some body) {request : Json}
    (hparse : L.parse body = some request) {job : Job}
    (hjob : IsJobOf request w.service.scheduler.db.m_scriptDir job) {e : Execution}
    (he : Clocked L e)
    (hfile : finishedOf cwd w jobId =
      some (L.dump ((Job.execute job e).output jobId request)))
    (hfree : ∀ p, directory w.service.disk cwd w.service.scheduler.db.m_jobs_finished_dir = some p →
      p ++ [decimal jobId] ∉ w.service.disk) (env : Env) :
    ∃ content,
      (handle L.parse L.dump cwd w.service env (.getJob (decimal jobId))).1 = .ok content ∧
      L.parse content.body =
        some (.object [(text "response", (Job.execute job e).output jobId request),
          (text "statusCode", .boolean true)]) := by
  obtain ⟨p, hp⟩ := h.finishedDir
  have hid := h.inInt haccepted
  have hserved := h.getFinishedJob_eq hroot hp jobId
  rw [if_neg (hfree p hp), hfile, Option.getD_some] at hserved
  have hvalue := value_record hparse hjob he hid
  have hread : L.parse (getFinishedJob cwd w.service.scheduler.db w.service.disk jobId) =
      some ((Job.execute job e).output jobId request) := by
    rw [hserved]
    exact L.parse_dump hvalue
  refine ⟨_, handle_getJob (stoi_decimal hid) hread _, ?_⟩
  exact L.parse_dump (sound_pair response_lt_statusCode rfl rfl hvalue (.boolean true))

theorem Sane.served {w : World} (h : Sane L cwd root w) (hroot : 0 ∉ root)
    {jobId : Int} {body : Bytes}
    (haccepted : w.accepted.lookup jobId = some body) {request : Json}
    (hparse : L.parse body = some request) (hjob : IsJobRequest request) {e : Execution}
    (he : Clocked L e)
    (hfree : ∀ p, directory w.service.disk cwd w.service.scheduler.db.m_jobs_finished_dir = some p →
      p ++ [decimal jobId] ∉ w.service.disk) (env : Env) :
    ∃ job content, IsJobOf request w.service.scheduler.db.m_scriptDir job ∧
      (handle L.parse L.dump cwd (testRunner L cwd w.service jobId e .stored) env
        (.getJob (decimal jobId))).1 = .ok content ∧
      L.parse content.body =
        some (.object [(text "response", (Job.execute job e).output jobId request),
          (text "statusCode", .boolean true)]) := by
  obtain ⟨name, serverUri, script, hn, hu, hs⟩ := hjob
  have hjobOf : IsJobOf request w.service.scheduler.db.m_scriptDir _ :=
    ⟨name, serverUri, script, hn, hu, hs, rfl⟩
  have hsane := h.runner hroot he .stored (AList.lookup_isSome.mp (by rw [haccepted]; rfl))
  have hfile := h.finishedOf_stored hroot haccepted hparse hjobOf e
  obtain ⟨p, _, finished', hp, _, hdisk, _⟩ := h.disk_testRunner hroot haccepted e .stored
  have hmem : p ∈ w.service.disk := (walk_eq_some hp).2
  have hfree' : ∀ q, directory (testRunner L cwd w.service jobId e .stored).disk cwd
      w.service.scheduler.db.m_jobs_finished_dir = some q →
      q ++ [decimal jobId] ∉ (testRunner L cwd w.service jobId e .stored).disk := by
    intro q hq
    rw [hdisk, directory_insert hmem, hp, Option.some.injEq] at hq
    rw [← hq, hdisk, AList.mem_insert, not_or]
    exact ⟨by simp, hfree p hp⟩
  obtain ⟨content, hanswer, hread⟩ :=
    hsane.of_record hroot haccepted hparse hjobOf he hfile hfree' env
  exact ⟨_, content, hjobOf, hanswer, hread⟩

theorem mem_readable {finished : Directory.Dir} {ids : List Int} {p : Int × Bytes}
    (h : p ∈ readable finished ids) : p.1 ∈ ids ∧ finished.lookup (decimal p.1) = some p.2 := by
  induction ids with
  | nil => simp [readable] at h
  | cons id ids ih =>
    cases hl : finished.lookup (decimal id) with
    | none => simp [readable, hl] at h
    | some content =>
      simp only [readable, hl, List.mem_cons] at h
      cases h with
      | inl h => exact h ▸ ⟨List.mem_cons_self, hl⟩
      | inr h => exact ⟨List.mem_cons_of_mem id (ih h).1, (ih h).2⟩

/-- What the scan of the directory comes to. -/
def scanned (entries : List Bytes) (fromId : Int) : ResultFiles.Scan :=
  if (FinishedJobs.scan fromId entries (-1)).2 then .fromFound
  else .highestId (FinishedJobs.scan fromId entries (-1)).1

/-- The ids of a listing: those the loop tries, up to the first without a file. -/
def listedIds (entries : List Bytes) (finished : Directory.Dir) (fromId max : Int) : List Int :=
  (ResultFiles.finishedIds fromId max (scanned entries fromId)).takeWhile
    fun id => decide (decimal id ∈ finished)

theorem jobs_getFinishedJobs (entries : List Bytes) (finished : Directory.Dir) (fromId max : Int) :
    (getFinishedJobs entries finished fromId max).jobs =
      readable finished (ResultFiles.finishedIds fromId max (scanned entries fromId)) := by
  cases hf : (FinishedJobs.scan fromId entries (-1)).2 with
  | false =>
    simp only [scanned, getFinishedJobs, hf, Bool.false_eq_true, if_false, jobs_reverse,
      List.nil_append]
  | true =>
    simp only [scanned, getFinishedJobs, hf, if_true, jobs_forward, List.nil_append]

theorem ids_getFinishedJobs (entries : List Bytes) (finished : Directory.Dir) (fromId max : Int) :
    (getFinishedJobs entries finished fromId max).jobs.map Prod.fst =
      listedIds entries finished fromId max := by
  rw [jobs_getFinishedJobs, readable_eq, listedIds]

/-- The files of a listing hold pieces of records. -/
theorem Sane.pieces {w : World} (h : Sane L cwd root w) {finished : Directory.Dir}
    (hd : dir cwd w.service.disk w.service.scheduler.db.m_jobs_finished_dir = some finished)
    {jobs : List (Int × Bytes)} (hjobs : ∀ p ∈ jobs, finished.lookup (decimal p.1) = some p.2) :
    Pieces L jobs := by
  intro p hp
  have hfile : finishedOf cwd w p.1 = some p.2 := by
    rw [finishedOf, hd, Option.bind_some, hjobs p hp]
  obtain ⟨_, record, _, hrecord, hvalue, hprefix⟩ := h.finished p.1 p.2 hfile
  exact ⟨_, hrecord.whole hvalue, hprefix⟩

/-- The file of a job holds a record of it. -/
def HoldsRecord (L : Library) (w : World) (finished : Directory.Dir) (id : Int) (record : Json) :
    Prop :=
  finished.lookup (decimal id) = some (L.dump record) ∧ ∃ body, w.accepted.lookup id = some body ∧
    IsRecordOf L w.service.scheduler.db.m_scriptDir body id record

/-- Files that are read as values are the records of their jobs, one for each. -/
theorem Sane.records {w : World} (h : Sane L cwd root w) {finished : Directory.Dir}
    (hd : dir cwd w.service.disk w.service.scheduler.db.m_jobs_finished_dir = some finished)
    {jobs : List (Int × Bytes)} (hjobs : ∀ p ∈ jobs, finished.lookup (decimal p.1) = some p.2)
    {vs : List Json} (hvs : jobs.map (fun p => L.parse p.2) = vs.map some) :
    List.Forall₂ (HoldsRecord L w finished) (jobs.map Prod.fst) vs := by
  induction jobs generalizing vs with
  | nil =>
    obtain rfl : vs = [] := List.map_eq_nil_iff.mp hvs.symm
    exact .nil
  | cons p jobs ih =>
    cases vs with
    | nil => cases hvs
    | cons v vs =>
      rw [List.map_cons, List.map_cons, List.cons_eq_cons] at hvs
      have hl := hjobs p List.mem_cons_self
      have hfile : finishedOf cwd w p.1 = some p.2 := by
        rw [finishedOf, hd, Option.bind_some, hl]
      obtain ⟨hcontent, hrecord⟩ := h.read hfile hvs.1
      exact .cons ⟨hcontent ▸ hl, hrecord⟩
        (ih (fun q hq => hjobs q (List.mem_cons_of_mem p hq)) hvs.2)

/-- An answer of `GET /api/jobs` is made of the records of its jobs. -/
theorem Sane.of_getJobs {w : World} (h : Sane L cwd root w) {env : Env}
    {fromValue maxValue : Option Bytes} {content : Content}
    (hanswer : (handle L.parse L.dump cwd w.service env
      (.getJobs fromValue maxValue)).1 = .ok content) :
    ∃ fromId max finished records, Api.number fromValue = .ok fromId ∧
      Api.number maxValue = .ok max ∧
      dir cwd w.service.disk w.service.scheduler.db.m_jobs_finished_dir = some finished ∧
      (List.Forall₂ (HoldsRecord L w finished) (listedIds env.entries finished fromId max) records ∨
        (∃ id, listedIds env.entries finished fromId max = [id] ∧
          finished.lookup (decimal id) = some []) ∧ records = []) ∧
      L.parse content.body =
        some (.object [(text "ok", .boolean true), (text "response", .array records)]) := by
  obtain ⟨fromId, max, finished, v, hfrom, hmax, hd, hparse, hjson⟩ := handle_getJobs_ok hanswer
  have hfiles : ∀ p ∈ (getFinishedJobs env.entries finished fromId max).jobs,
      finished.lookup (decimal p.1) = some p.2 := by
    intro p hp
    rw [jobs_getFinishedJobs] at hp
    exact (mem_readable hp).2
  have hids := ids_getFinishedJobs env.entries finished fromId max
  have hread (hv : L.parse content.body =
      some (.object [(text "ok", .boolean true), (text "response", v)])) : ∃ records,
      (List.Forall₂ (HoldsRecord L w finished) (listedIds env.entries finished fromId max) records ∨
        (∃ id, listedIds env.entries finished fromId max = [id] ∧
          finished.lookup (decimal id) = some []) ∧ records = []) ∧
      L.parse content.body =
        some (.object [(text "ok", .boolean true), (text "response", .array records)]) := by
    cases parse_pieces (h.pieces hd hfiles)
        (isListing_getFinishedJobs env.entries finished fromId max) hparse with
    | inl hrecords =>
      obtain ⟨vs, hvs, rfl⟩ := hrecords
      exact ⟨vs, Or.inl (hids ▸ h.records hd hfiles hvs), hv⟩
    | inr hempty =>
      -- one result file that was just created
      obtain ⟨⟨id, hjobs⟩, rfl⟩ := hempty
      refine ⟨[], Or.inr ⟨⟨id, ?_, ?_⟩, rfl⟩, hv⟩
      · rw [← hids, hjobs]
        rfl
      · exact hfiles (id, []) (hjobs ▸ List.mem_cons_self)
  rw [hjson, Except.ok.injEq] at hanswer
  obtain ⟨records, hrecords, hbody⟩ := hread (hanswer ▸ L.parse_dump
    (sound_pair ok_lt_response rfl rfl (.boolean true) (L.parse_sound hparse)))
  exact ⟨fromId, max, finished, records, hfrom, hmax, hd, hrecords, hbody⟩

/- The directory iterator yields the result of job 0. -/
def listingEnv : Env := { sampleEnv with entries := [text "0"] }

end OpcUaTestTool.ServiceRuns
