import OpcUaTestTool.AnnouncedResults
import OpcUaTestTool.ReplPipe

/-! The logs of the test runners: each of them is opened by the child of `schedule` before it
becomes the test runner, and holds what this one prints. -/
namespace OpcUaTestTool.JobLogs
open FiniteMap Numerals Directory FileSystem Store JobScheduler JsonLibrary
open ServiceProcesses (Child Program ForkFree addRunner)
open FileDescriptors
open ReplPipe (Handle runnerChild file_runnerChild)
open ScriptPaths Api ServiceRuns Transition
open AnnouncedResults (startedBy enqueued)

/- A child of `schedule`, with a copy of the descriptors of the service or, from `execv` on, with
those that are left to it. -/
structure Forked where
  jobId : Int
  fds : Fds Handle
  opened : Bool := false

/- What the test runners have printed is kept by their jobs, and the jobs whose runner has no
standard output. -/
structure System where
  sys : AnnouncedResults.System
  service : Fds Handle
  runners : Map Int Forked := ∅
  output : Map Int Bytes := ∅
  unlogged : List Int := []

inductive Action where
  | system (a : AnnouncedResults.Action)
  /-- The service opens and closes other files. -/
  | openFile (n : Nat)
  | close (fd : Nat)
  /-- The child opens the log of its job and becomes the test runner. -/
  | openLog (pid : Int)
  | runnerFile (pid : Int) (n : Nat)
  | print (pid : Int) (bytes : Bytes)

variable (L : Library) (cwd : Path)

def logName (jobId : Int) : Bytes := decimal jobId ++ text ".log"

def logPath (s : Scheduler) (jobId : Int) : Bytes :=
  s.m_workingDir ++ text "/logs/" ++ decimal jobId ++ text ".log"

def System.setDisk (s : System) (disk : Disk) : System :=
  { s with sys := { s.sys with
      world := { s.sys.world with service := { s.sys.world.service with disk := disk } } } }

/-- What is written behind the end of a file that exists. -/
def append (fs : Disk) (path bytes : Bytes) : Disk :=
  match place fs cwd path with
  | none => fs
  | some q => write fs cwd path ((file fs q).getD [] ++ bytes) .stored

/-- The child that an action of the service starts. -/
def started (s : AnnouncedResults.System) : AnnouncedResults.Action → Option Runner
  | .request env req => startedBy cwd s.world.service env req
  | .jobFinished fork =>
    match s.held with
    | none => none
    | some pid =>
      match s.world.service.scheduler.jobFinished pid fork with
      | .ok f => f.started
      | .error _ => none
  | _ => none

def fork (runners : Map Int Forked) (fds : Fds Handle) : Option Runner → Map Int Forked
  | none => runners
  | some r => runners.insert r.pid ⟨r.jobId, fds, false⟩

def ended (runners : Map Int Forked) : AnnouncedResults.Action → Map Int Forked
  | .exit pid _ => runners.erase pid
  | .fail pid => runners.erase pid
  | _ => runners

def Executed (s : System) (pid : Int) : Prop :=
  ((s.runners.lookup pid).map Forked.opened) = some true

instance (s : System) (pid : Int) : Decidable (Executed s pid) :=
  inferInstanceAs (Decidable (_ = _))

/-- Only what has become a test runner stores a result and ends as one. -/
def Enabled (s : System) : AnnouncedResults.Action → Prop
  | .write pid _ _ => Executed s pid
  | .exit pid _ => Executed s pid
  | _ => True

instance (s : System) : (a : AnnouncedResults.Action) → Decidable (Enabled s a)
  | .write pid _ _ => inferInstanceAs (Decidable (Executed s pid))
  | .exit pid _ => inferInstanceAs (Decidable (Executed s pid))
  | .request _ _ => isTrue trivial
  | .fail _ => isTrue trivial
  | .wait _ => isTrue trivial
  | .jobFinished _ => isTrue trivial

/-- A child of the service that has no standard output. -/
def Mute (fds : Fds Handle) : Prop := fds.file 0 ≠ none ∧ fds.file 1 = none

instance (fds : Fds Handle) : Decidable (Mute fds) := inferInstanceAs (Decidable (_ ∧ _))

def step (s : System) : Action → Option System
  | .system a =>
    if Enabled s a then
      (AnnouncedResults.step L cwd s.sys a).map fun sys =>
        { s with
          sys := sys
          runners := fork (ended s.runners a) s.service (started cwd s.sys a) }
    else none
  | .openFile n => some { s with service := s.service.openFile (.other n) }
  | .close fd =>
    match s.service.file fd with
    | some (.other _) => some { s with service := s.service.close fd }
    | _ => none
  | .openLog pid =>
    match s.runners.lookup pid with
    | some ⟨jobId, fds, false⟩ =>
      -- without a file, `fileno` ends the child
      if place s.sys.world.service.disk cwd
          (logPath s.sys.world.service.scheduler jobId) = none then
        none
      else some
        { s.setDisk (write s.sys.world.service.disk cwd
            (logPath s.sys.world.service.scheduler jobId) [] .stored) with
          runners := s.runners.insert pid ⟨jobId, runnerChild fds jobId, true⟩
          output := s.output.insert jobId []
          unlogged := if Mute fds then jobId :: s.unlogged else s.unlogged }
    | _ => none
  | .runnerFile pid n =>
    match s.runners.lookup pid with
    | some ⟨jobId, fds, true⟩ => some
      { s with runners := s.runners.insert pid ⟨jobId, fds.openFile (.other n), true⟩ }
    | _ => none
  | .print pid bytes =>
    match s.runners.lookup pid with
    | some ⟨jobId, fds, true⟩ =>
      let s' := { s with
        output := s.output.insert jobId ((s.output.lookup jobId).getD [] ++ bytes) }
      match fds.file 1 with
      | some (.log id) => some (s'.setDisk (append cwd s.sys.world.service.disk
          (logPath s.sys.world.service.scheduler id) bytes))
      | _ => some s'
    | _ => none

def logsDir (db : DataBase) : Bytes := db.m_rootDir ++ text "/logs"

def logOf (w : World) (id : Int) : Option Bytes :=
  (dir cwd w.service.disk (logsDir w.service.scheduler.db)).bind (AList.lookup (logName id))

/-- There are files only where logs go. -/
def FilesOnly (db : DataBase) (fs : Disk) : Prop :=
  ∀ p, directory fs cwd (logsDir db) = some p → ∀ id, p ++ [logName id] ∉ fs

/-- Careful for the files and the pids, and a clone makes no directories under the names of logs. -/
def Careful (s : System) : Action → Prop
  | .system a => AnnouncedResults.Careful L cwd s.sys a ∧
      ∀ env, a = .request env .putRepoClone →
        FilesOnly cwd s.sys.world.service.scheduler.db env.cloned
  | _ => True

/-- A service without jobs that was just started, on a store without results and logs. -/
structure Fresh (root : Bytes) (s : System) : Prop where
  sys : AnnouncedResults.Fresh cwd root s.sys
  workingDir : s.sys.world.service.scheduler.m_workingDir = root
  service : ∀ id, some (.log id) ∉ s.service
  logsDir : ∃ p, directory s.sys.world.service.disk cwd
    (logsDir s.sys.world.service.scheduler.db) = some p
  files : FilesOnly cwd s.sys.world.service.scheduler.db s.sys.world.service.disk
  logs : ∀ id, logOf cwd s.sys.world id = none
  runners : s.runners = ∅
  output : s.output = ∅
  unlogged : s.unlogged = []

/- Each log holds what was printed, and only the runner of its job has it open. -/
structure Sane (root : Bytes) (s : System) : Prop where
  sys : AnnouncedResults.Sane L cwd root s.sys
  workingDir : s.sys.world.service.scheduler.m_workingDir = root
  service : ∀ id, some (.log id) ∉ s.service
  logsDir : ∃ p, directory s.sys.world.service.disk cwd
    (logsDir s.sys.world.service.scheduler.db) = some p
  files : FilesOnly cwd s.sys.world.service.scheduler.db s.sys.world.service.disk
  logs : ∀ id, logOf cwd s.sys.world id =
    (s.output.lookup id).map fun out => if id ∈ s.unlogged then [] else out
  output : ∀ id, id ∈ s.output → id < s.sys.world.service.scheduler.db.m_jobId ∧
    id ∉ s.sys.world.service.scheduler.waitQueue
  unlogged : ∀ id ∈ s.unlogged, id ∈ s.output
  runners : ∀ pid r, s.runners.lookup pid = some r →
    s.sys.children.lookup pid = some ⟨.testRunner r.jobId, false⟩
  forked : ∀ pid r, s.runners.lookup pid = some r → r.opened = false →
    r.jobId ∉ s.output ∧ ∀ id, some (.log id) ∉ r.fds
  opened : ∀ pid r, s.runners.lookup pid = some r → r.opened = true →
    r.jobId ∈ s.output ∧ (r.jobId ∈ s.unlogged → ∀ id, some (.log id) ∉ r.fds) ∧
      (r.jobId ∉ s.unlogged → r.fds.file 1 = some (.log r.jobId))

variable {L cwd} {root : Bytes}

/-! ### Log files -/

theorem oneName_logName (id : Int) : OneName (logName id) := by
  obtain ⟨hzero, hnames, _⟩ := decimal_plain id
  have hslash : 47 ∉ decimal id := by
    intro hmem
    obtain ⟨a, b, heq⟩ := List.append_of_mem hmem
    rw [heq, names_append] at hnames
    have hlength := congrArg List.length hnames
    have ha := List.length_pos_iff.mpr (names_ne_nil a)
    have hb := List.length_pos_iff.mpr (names_ne_nil b)
    simp only [List.length_append, List.length_singleton] at hlength
    omega
  have hname (c : UInt8) (hc : c ∉ text ".log") (hid : c ∉ decimal id) : c ∉ logName id := by
    rw [logName, List.mem_append, not_or]
    exact ⟨hid, hc⟩
  refine ⟨hname 0 (by decide) hzero, ?_, fun p => ?_⟩
  · exact List.splitOn_eq_singleton (hname 47 (by decide) hslash)
  · have hlength : 4 ≤ (logName id).length := by
      rw [logName, List.length_append]
      exact Nat.le_add_left 4 _
    apply ScriptPaths.enter_of_plain
    refine ⟨?_, ?_, ?_⟩
    all_goals
      intro heq
      rw [heq] at hlength
      revert hlength
      decide

theorem logName_injective : Function.Injective logName := fun _ _ h =>
  decimal_injective (List.append_cancel_right h)

theorem logsDir_eq {db : DataBase} (hl : Layout db root) :
    logsDir db = root ++ 47 :: text "logs" := by
  rw [logsDir, hl.rootDir]
  rfl

theorem logsDir_below {db : DataBase} (hl : Layout db root) (hroot : 0 ∉ root) :
    0 ∉ logsDir db ∧ logsDir db ≠ [] := by
  rw [logsDir, hl.rootDir]
  exact below_root hroot (by decide) (by decide)

theorem logPath_eq {s : Scheduler} (hl : Layout s.db root) (hdir : s.m_workingDir = root)
    (id : Int) : logPath s id = logsDir s.db ++ 47 :: logName id := by
  rw [logPath, logsDir, hl.rootDir, hdir, logName]
  simp only [List.append_assoc]
  rfl

/-- The directories of the requests and of the results are not that of the logs. -/
theorem logs_apart {db : DataBase} (hl : Layout db root) (hroot : 0 ∉ root) {fs : Disk} {d : Bytes}
    (hd : d ∈ [db.m_jobs_requests_dir, db.m_jobs_finished_dir]) {p q : Path}
    (hp : directory fs cwd (logsDir db) = some p) (hq : directory fs cwd d = some q) : q ≠ p := by
  rw [logsDir_eq hl] at hp
  simp only [hl.rooted.1, hl.rooted.2, List.mem_cons, List.not_mem_nil, or_false] at hd
  cases hd with
  | inl heq =>
    subst heq
    exact directory_ne hroot (a := text "jobs/requests") (by decide) (by decide) (by decide)
      (by decide) hq hp
  | inr heq =>
    subst heq
    exact directory_ne hroot (a := text "jobs/finished") (by decide) (by decide) (by decide)
      (by decide) hq hp

section
variable {w : World} {p : Path}

theorem place_logPath (hl : Layout w.service.scheduler.db root)
    (hdir : w.service.scheduler.m_workingDir = root) (hroot : 0 ∉ root)
    (hp : directory w.service.disk cwd (logsDir w.service.scheduler.db) = some p)
    (hfiles : FilesOnly cwd w.service.scheduler.db w.service.disk) (id : Int) :
    place w.service.disk cwd (logPath w.service.scheduler id) = some ⟨p, logName id⟩ := by
  obtain ⟨hzero, hne⟩ := logsDir_below hl hroot
  rw [logPath_eq hl hdir, place_name (oneName_logName id) hne hzero hp, if_neg (hfiles p hp id)]

theorem file_logPath (hp : directory w.service.disk cwd (logsDir w.service.scheduler.db) = some p)
    (id : Int) : file w.service.disk ⟨p, logName id⟩ = logOf cwd w id := by
  rw [file, logOf, dir, hp, Option.bind_some]

/-- What `GET /api/jobs/{id}/log` reads. -/
theorem getJobLog_eq (hl : Layout w.service.scheduler.db root) (hroot : 0 ∉ root)
    (hp : directory w.service.disk cwd (logsDir w.service.scheduler.db) = some p)
    (hfiles : FilesOnly cwd w.service.scheduler.db w.service.disk) (id : Int) :
    getJobLog cwd w.service.scheduler.db w.service.disk id =
      (logOf cwd w id).getD (text "job log not found") := by
  obtain ⟨hzero, hne⟩ := logsDir_below hl hroot
  have hpath : w.service.scheduler.db.m_rootDir ++ text "/logs/" ++ decimal id ++ text ".log" =
      logsDir w.service.scheduler.db ++ 47 :: logName id := by
    rw [logsDir, logName]
    simp only [List.append_assoc]
    rfl
  rw [getJobLog, readOr, hpath, openRead_name (oneName_logName id) hne hzero hp,
    if_neg (hfiles p hp id), file_logPath hp]
  cases logOf cwd w id with
  | none => rfl
  | some content => rfl

end

variable (cwd) in
/-- The logs are as they were. -/
structure SameLogs (w w' : World) : Prop where
  directory : FileSystem.directory w'.service.disk cwd (logsDir w'.service.scheduler.db) =
    FileSystem.directory w.service.disk cwd (logsDir w.service.scheduler.db)
  dir : Api.dir cwd w'.service.disk (logsDir w'.service.scheduler.db) =
    Api.dir cwd w.service.disk (logsDir w.service.scheduler.db)
  files : FilesOnly cwd w.service.scheduler.db w.service.disk →
    FilesOnly cwd w'.service.scheduler.db w'.service.disk

theorem SameLogs.logOf {w w' : World} (h : SameLogs cwd w w') (id : Int) :
    logOf cwd w' id = JobLogs.logOf cwd w id := by
  rw [JobLogs.logOf, JobLogs.logOf, h.dir]

theorem sameLogs_of_dirs {w w' : World}
    (hdb : logsDir w'.service.scheduler.db = logsDir w.service.scheduler.db)
    (hdirectory : directory w'.service.disk cwd (logsDir w.service.scheduler.db) =
      directory w.service.disk cwd (logsDir w.service.scheduler.db))
    (hdir : dir cwd w'.service.disk (logsDir w.service.scheduler.db) =
      dir cwd w.service.disk (logsDir w.service.scheduler.db))
    (hfiles : FilesOnly cwd w.service.scheduler.db w.service.disk →
      FilesOnly cwd w.service.scheduler.db w'.service.disk) : SameLogs cwd w w' := by
  refine ⟨?_, ?_, fun h p hp id => ?_⟩
  · rw [hdb, hdirectory]
  · rw [hdb, hdir]
  · rw [hdb] at hp
    exact hfiles h p hp id

/-- Nothing that is written makes a directory. -/
theorem filesOnly_of_mem {db : DataBase} {fs fs' : Disk} (h : ∀ p, p ∈ fs' ↔ p ∈ fs)
    (hfiles : FilesOnly cwd db fs) : FilesOnly cwd db fs' := by
  intro p hp id hmem
  have hsame : directory fs' cwd (logsDir db) = directory fs cwd (logsDir db) := walk_congr h _ _
  exact hfiles p (hsame ▸ hp) id ((h _).mp hmem)

/-- The service and the results of the test runners leave the logs alone. -/
theorem sameLogs_step {w w' : World} (h : ServiceRuns.Sane L cwd root w) (hroot : 0 ∉ root)
    {a : ServiceRuns.Action}
    (hcareful : ServiceRuns.Careful L cwd w a)
    (hclone : ∀ env, a = .request env .putRepoClone →
      FilesOnly cwd w.service.scheduler.db env.cloned)
    (hs : ServiceRuns.step L cwd w a = some w') : SameLogs cwd w w' := by
  have hdb : logsDir w'.service.scheduler.db = logsDir w.service.scheduler.db := by
    rw [logsDir_eq (h.step hroot hcareful hs).layout, logsDir_eq h.layout]
  cases a with
  | runner jobId e storing =>
    obtain ⟨hjob, rfl⟩ := step_runner hs
    obtain ⟨body, haccepted⟩ := Option.isSome_iff_exists.mp (AList.lookup_isSome.mpr hjob)
    obtain ⟨q, d, finished', hq, _, hdisk, _⟩ := h.disk_testRunner hroot haccepted e storing
    have hmem : q ∈ w.service.disk := (walk_eq_some hq).2
    refine sameLogs_of_dirs rfl ?_ ?_ (filesOnly_of_mem fun p => ?_)
    · dsimp only
      rw [hdisk, directory_insert hmem]
    · dsimp only
      rw [hdisk, dir, dir, directory_insert hmem]
      cases hp : directory w.service.disk cwd (logsDir w.service.scheduler.db) with
      | none => rfl
      | some p =>
        have hne := logs_apart h.layout hroot (d := w.service.scheduler.db.m_jobs_finished_dir)
          (by simp) hp hq
        exact lookup_insert_ne (Ne.symm hne)
    · dsimp only
      rw [hdisk, AList.mem_insert]
      exact ⟨fun hp => hp.elim (fun heq => heq ▸ hmem) id, Or.inr⟩
  | jobFinished pid fork =>
    cases hf : w.service.scheduler.jobFinished pid fork with
    | error e => simp [ServiceRuns.step, hf] at hs
    | ok f =>
      simp only [ServiceRuns.step, hf, Option.some.injEq] at hs
      subst hs
      exact sameLogs_of_dirs hdb rfl rfl id
  | request env req =>
    by_cases hjobs : ∃ body, req = .postJobs body
    · obtain ⟨body, rfl⟩ := hjobs
      obtain ⟨c, _, _, rfl⟩ := step_postJobs h.counter.2 hs
      obtain ⟨q, hq⟩ := h.requestsDir
      refine sameLogs_of_dirs hdb (directory_write _ _ _ _ _ _) ?_
        (filesOnly_of_mem fun p => mem_write)
      rw [logsDir_eq h.layout]
      exact dir_write_other h.layout hroot hq (hcareful.2.2 q hq) body env.storing (text "logs")
        (by decide) (by decide) (by decide)
    · have hreq : ∀ body, req ≠ .postJobs body := fun body heq => hjobs ⟨body, heq⟩
      have hsame := sameJobs_handle h.layout hroot hcareful hreq
        (logsDir w.service.scheduler.db) (by simp [jobDirs, logsDir])
      rw [step_request hreq hs] at hdb ⊢
      refine sameLogs_of_dirs hdb hsame.1 hsame.2 fun hfiles => ?_
      cases req with
      | postJobs body => exact absurd rfl (hreq body)
      | postScript name body => exact filesOnly_of_mem (fun p => mem_write) hfiles
      | putRepoClone => exact hclone env rfl
      | _ =>
        dsimp only
        rw [disk_reading (by simp) (by simp) (by simp)]
        exact hfiles

theorem sameLogs_refl (w : World) : SameLogs cwd w w := ⟨rfl, rfl, id⟩

theorem sameLogs_stepped {s s' : AnnouncedResults.System} {a : AnnouncedResults.Action}
    (h : AnnouncedResults.Sane L cwd root s) (hroot : 0 ∉ root)
    (hcareful : AnnouncedResults.Careful L cwd s a)
    (hclone : ∀ env, a = .request env .putRepoClone →
      FilesOnly cwd s.world.service.scheduler.db env.cloned)
    (hs : AnnouncedResults.Stepped L cwd s a s') : SameLogs cwd s.world s'.world := by
  cases hs with
  | @request env req world _ hstep =>
    refine sameLogs_step h.world hroot hcareful.1 (fun env' heq => ?_) hstep
    injection heq with henv hreq
    exact hclone env' (by rw [henv, hreq])
  | @write _ jobId e w _ _ hstep =>
    have hreads : ServiceRuns.Careful L cwd s.world (.runner jobId e w) := hcareful
    exact sameLogs_step h.world hroot hreads (by simp) hstep
  | @exit _ jobId e _ _ hstep =>
    have hreads : ServiceRuns.Careful L cwd s.world (.runner jobId e .stored) := hcareful
    exact sameLogs_step h.world hroot hreads (by simp) hstep
  | fail _ => exact sameLogs_refl _
  | wait _ _ => exact sameLogs_refl _
  | @jobFinished pid fork _ _ _ _ _ hstep =>
    have hfree : ServiceRuns.Careful L cwd s.world (.jobFinished pid fork) := trivial
    exact sameLogs_step h.world hroot hfree (by simp) hstep

/-! ### Jobs that are started -/

/-- What waits after a step waited before, or is the job that was created. -/
structure Queued (s s' : Scheduler) (started : Option Runner) : Prop where
  workingDir : s'.m_workingDir = s.m_workingDir
  counter : s.db.m_jobId ≤ s'.db.m_jobId
  queue : ∀ id ∈ s'.waitQueue, id ∈ s.waitQueue ∨ id = s.db.m_jobId
  started : ∀ r ∈ started, r.jobId ∈ s.waitQueue ∨ r.jobId = s.db.m_jobId

theorem queued_schedule {s s' : Scheduler} {fork : Int} {started : Option Runner}
    (hs : s.schedule fork = .ok (s', started)) : s'.m_workingDir = s.m_workingDir ∧
      (∀ id ∈ s'.waitQueue, id ∈ s.waitQueue) ∧ ∀ r ∈ started, r.jobId ∈ s.waitQueue := by
  cases schedule_cases hs with
  | inl hcase =>
    obtain ⟨_, rfl, rfl⟩ := hcase
    exact ⟨rfl, fun _ h => h, fun r hr => by cases hr⟩
  | inr hcase =>
    obtain ⟨_, jobId, rest, hqueue, rfl, rfl⟩ := hcase
    rw [hqueue]
    refine ⟨rfl, fun _ h => List.mem_cons_of_mem jobId h, fun r hr => ?_⟩
    obtain rfl := Option.some.inj hr
    exact List.mem_cons_self

theorem queued_refl (s : Scheduler) : Queued s s none :=
  ⟨rfl, le_refl _, fun _ => Or.inl, fun r hr => by cases hr⟩

theorem queued_step {s s' : AnnouncedResults.System} {a : AnnouncedResults.Action}
    (h : ServiceRuns.Sane L cwd root s.world)
    (hcareful : AnnouncedResults.Careful L cwd s a)
    (hs : AnnouncedResults.Stepped L cwd s a s') :
    Queued s.world.service.scheduler s'.world.service.scheduler (started cwd s a) := by
  cases hs with
  | write _ hstep =>
    obtain ⟨_, rfl⟩ := step_runner hstep
    exact queued_refl _
  | exit _ hstep =>
    obtain ⟨_, rfl⟩ := step_runner hstep
    exact queued_refl _
  | fail _ => exact queued_refl _
  | wait _ _ => exact queued_refl _
  | jobFinished hheld _ hf hstep =>
    obtain ⟨hdir, hqueue, hstarted⟩ := queued_schedule (jobFinished_schedule hf)
    simp only [ServiceRuns.step, hf, Option.some.injEq] at hstep
    subst hstep
    simp only [started, hheld, hf]
    exact ⟨hdir, by rw [(jobFinished_frame hf).1], fun id hid => Or.inl (hqueue id hid),
      fun r hr => Or.inl (hstarted r hr)⟩
  | @request env req world _ hstep =>
    by_cases hjobs : ∃ body, req = .postJobs body
    · obtain ⟨body, rfl⟩ := hjobs
      obtain ⟨c, hc, hdb, rfl⟩ := step_postJobs h.counter.2 hstep
      obtain ⟨hdir, hqueue, hstarted⟩ := queued_schedule (create_spec hc).2.2
      have hmem {id : Int} (hid : id ∈ s.world.service.scheduler.waitQueue ++
          [s.world.service.scheduler.db.m_jobId]) :
          id ∈ s.world.service.scheduler.waitQueue ∨
            id = s.world.service.scheduler.db.m_jobId := by
        rwa [List.mem_append, List.mem_singleton] at hid
      simp only [started, startedBy, hc]
      refine ⟨hdir, ?_, fun id hid => hmem (hqueue id hid), fun r hr => hmem (hstarted r hr)⟩
      have hcounter := h.counter
      have hmax := hcareful.1.2.1
      rw [hdb]
      dsimp only
      rw [int32_eq_self ⟨by omega, by omega⟩]
      omega
    · have hreq : ∀ body, req ≠ .postJobs body := fun body heq => hjobs ⟨body, heq⟩
      have hnone : startedBy cwd s.world.service env req = none := by
        cases req with
        | postJobs body => exact absurd rfl (hreq body)
        | _ => rfl
      rw [step_request hreq hstep]
      dsimp only [started]
      rw [scheduler_handle hreq, hnone]
      exact queued_refl _

/-- What was just started is a child that was none before. -/
theorem lookup_schedule {s s' : Scheduler} {children : Map Int Child} {fork : Int}
    {started : Option Runner} (hfork : ForkFree children s fork)
    (hs : s.schedule fork = .ok (s', started)) :
    (∀ pid c, children.lookup pid = some c →
      (addRunner children started).lookup pid = some c) ∧
    ∀ r ∈ started, (addRunner children started).lookup r.pid =
      some ⟨.testRunner r.jobId, false⟩ := by
  cases schedule_cases hs with
  | inl hcase =>
    obtain ⟨_, _, rfl⟩ := hcase
    exact ⟨fun _ _ h => h, fun r hr => by cases hr⟩
  | inr hcase =>
    obtain ⟨hforks, jobId, rest, _, _, rfl⟩ := hcase
    refine ⟨fun pid c hl => lookup_insert_fresh (hfork hforks).2 hl, fun r hr => ?_⟩
    obtain rfl := Option.some.inj hr
    exact AList.lookup_insert _

theorem children_step {s s' : AnnouncedResults.System} {a : AnnouncedResults.Action}
    (hid : InInt s.world.service.scheduler.db.m_jobId)
    (hs : AnnouncedResults.Stepped L cwd s a s') :
    (∀ pid jobId, s.children.lookup pid = some ⟨.testRunner jobId, false⟩ →
      (∀ e, a ≠ .exit pid e) → a ≠ .fail pid →
      s'.children.lookup pid = some ⟨.testRunner jobId, false⟩) ∧
    ∀ r ∈ started cwd s a, s'.children.lookup r.pid = some ⟨.testRunner r.jobId, false⟩ := by
  cases hs with
  | write _ _ => exact ⟨fun _ _ hl _ _ => hl, fun r hr => by cases hr⟩
  | @exit pid' _ e _ _ _ =>
    refine ⟨fun pid jobId hl hexit _ => ?_, fun r hr => by cases hr⟩
    have hne : pid ≠ pid' := fun heq => hexit e (by rw [heq])
    exact (lookup_insert_ne hne).trans hl
  | @fail pid' _ _ =>
    refine ⟨fun pid jobId hl _ hfail => ?_, fun r hr => by cases hr⟩
    have hne : pid ≠ pid' := fun heq => hfail (by rw [heq])
    exact (lookup_insert_ne hne).trans hl
  | wait _ hnone =>
    refine ⟨fun pid jobId hl _ _ => ?_, fun r hr => by cases hr⟩
    refine lookup_erase_eq_some.mpr ⟨?_, hl⟩
    rintro rfl
    exact hnone _ hl
  | jobFinished hheld hfork hf _ =>
    obtain ⟨hold, hnew⟩ := lookup_schedule hfork (jobFinished_schedule hf)
    simp only [started, hheld, hf]
    exact ⟨fun pid jobId hl _ _ => hold pid _ hl, hnew⟩
  | @request env req world hfork hstep =>
    by_cases hjobs : ∃ body, req = .postJobs body
    · obtain ⟨body, rfl⟩ := hjobs
      obtain ⟨c, hc, _, _⟩ := step_postJobs hid hstep
      obtain ⟨hold, hnew⟩ := lookup_schedule (s := enqueued cwd s.world.service env body) hfork
        (create_spec hc).2.2
      simp only [started, startedBy, hc]
      exact ⟨fun pid jobId hl _ _ => hold pid _ hl, hnew⟩
    · have hnone : startedBy cwd s.world.service env req = none := by
        cases req with
        | postJobs body => exact absurd ⟨body, rfl⟩ hjobs
        | _ => rfl
      simp only [started, hnone]
      exact ⟨fun _ _ hl _ _ => hl, fun r hr => by cases hr⟩

/-! ### Steps -/

theorem lookup_ended {runners : Map Int Forked} {a : AnnouncedResults.Action} {pid : Int}
    {r : Forked} (hl : (ended runners a).lookup pid = some r) :
    runners.lookup pid = some r ∧ (∀ e, a ≠ .exit pid e) ∧ a ≠ .fail pid := by
  cases a with
  | exit pid' e =>
    obtain ⟨hne, hl⟩ := lookup_erase_eq_some.mp hl
    refine ⟨hl, fun e' heq => hne ?_, by simp⟩
    injection heq with heq
    exact heq.symm
  | fail pid' =>
    obtain ⟨hne, hl⟩ := lookup_erase_eq_some.mp hl
    refine ⟨hl, by simp, fun heq => hne ?_⟩
    injection heq with heq
    exact heq.symm
  | _ => exact ⟨hl, by simp, by simp⟩

theorem lookup_fork {runners : Map Int Forked} {fds : Fds Handle} {started : Option Runner}
    {pid : Int} {r : Forked} (hl : (fork runners fds started).lookup pid = some r) :
    runners.lookup pid = some r ∨ ∃ q ∈ started, pid = q.pid ∧ r = ⟨q.jobId, fds, false⟩ := by
  cases started with
  | none => exact Or.inl hl
  | some q =>
    cases lookup_insert_eq_some.mp hl with
    | inl heq => exact Or.inr ⟨q, rfl, heq.1, heq.2.symm⟩
    | inr hold => exact Or.inl hold.2

theorem Fresh.sane {s : System} (h : Fresh cwd root s) : Sane L cwd root s := by
  have houtput (id : Int) : id ∉ s.output := h.output ▸ AList.notMem_empty id
  have hrunners (pid : Int) (r : Forked) : s.runners.lookup pid ≠ some r := by
    rw [h.runners]
    simp
  refine ⟨h.sys.sane, h.workingDir, h.service, h.logsDir, h.files, fun id => ?_, ?_, ?_, ?_, ?_, ?_⟩
  · rw [h.logs id, h.output]
    rfl
  · intro id hid
    exact absurd hid (houtput id)
  · intro id hid
    rw [h.unlogged] at hid
    cases hid
  · intro pid r hl
    exact absurd hl (hrunners pid r)
  · intro pid r hl
    exact absurd hl (hrunners pid r)
  · intro pid r hl
    exact absurd hl (hrunners pid r)

/-- What the service does. -/
theorem Sane.system {s : System} (h : Sane L cwd root s) (hroot : 0 ∉ root)
    {a : AnnouncedResults.Action}
    (hcareful : Careful L cwd s (.system a)) {sys : AnnouncedResults.System}
    (hs : AnnouncedResults.step L cwd s.sys a = some sys) :
    Sane L cwd root { s with
      sys := sys
      runners := fork (ended s.runners a) s.service (started cwd s.sys a) } := by
  have hsys := h.sys.step hroot hcareful.1 hs
  have hstepped := AnnouncedResults.step_stepped hs
  have hqueued := queued_step h.sys.world hcareful.1 hstepped
  obtain ⟨hkept, hnew⟩ := children_step h.sys.world.counter.2 hstepped
  have hlogs := sameLogs_stepped h.sys hroot hcareful.1 hcareful.2 hstepped
  have hstarted : ∀ r ∈ started cwd s.sys a, r.jobId ∉ s.output := by
    intro r hr hout
    obtain ⟨hlt, hfree⟩ := h.output r.jobId hout
    cases hqueued.started r hr with
    | inl hwaits => exact hfree hwaits
    | inr hlast => omega
  refine ⟨hsys, hqueued.workingDir.trans h.workingDir, h.service, ?_, hlogs.files h.files,
    fun id => ?_, fun id hid => ?_, h.unlogged, fun pid r hl => ?_, fun pid r hl hopened => ?_,
    fun pid r hl hopened => ?_⟩
  · obtain ⟨p, hp⟩ := h.logsDir
    exact ⟨p, hlogs.directory.trans hp⟩
  · exact (hlogs.logOf id).trans (h.logs id)
  · obtain ⟨hlt, hfree⟩ := h.output id hid
    have hcounter := hqueued.counter
    refine ⟨by dsimp only; omega, fun hwaits => ?_⟩
    cases hqueued.queue id hwaits with
    | inl hold => exact hfree hold
    | inr hlast => omega
  · cases lookup_fork hl with
    | inl hold =>
      obtain ⟨hl, hexit, hfail⟩ := lookup_ended hold
      exact hkept pid r.jobId (h.runners pid r hl) hexit hfail
    | inr hfork =>
      obtain ⟨q, hq, rfl, rfl⟩ := hfork
      exact hnew q hq
  · cases lookup_fork hl with
    | inl hold => exact h.forked pid r (lookup_ended hold).1 hopened
    | inr hfork =>
      obtain ⟨q, hq, rfl, rfl⟩ := hfork
      exact ⟨hstarted q hq, h.service⟩
  · cases lookup_fork hl with
    | inl hold => exact h.opened pid r (lookup_ended hold).1 hopened
    | inr hfork =>
      obtain ⟨q, hq, rfl, rfl⟩ := hfork
      cases hopened

/-- A log is written. -/
theorem Sane.writeLog {s : System} (h : Sane L cwd root s) (hroot : 0 ∉ root) (id : Int)
    (content : Bytes) {disk : Disk}
    (hdisk : disk = write s.sys.world.service.disk cwd
      (logPath s.sys.world.service.scheduler id) content .stored) :
    AnnouncedResults.Sane L cwd root (s.setDisk disk).sys ∧
    (∃ p, directory disk cwd (JobLogs.logsDir s.sys.world.service.scheduler.db) = some p) ∧
    FilesOnly cwd s.sys.world.service.scheduler.db disk ∧
    ∀ id', logOf cwd (s.setDisk disk).sys.world id' =
      if id' = id then some content else logOf cwd s.sys.world id' := by
  subst hdisk
  obtain ⟨p, hp⟩ := h.logsDir
  have hl := h.sys.world.layout
  have hplace := place_logPath hl h.workingDir hroot hp h.files id
  obtain ⟨d, hd, _⟩ := dir_of_directory hp
  refine ⟨h.sys.of_sameDirs fun dirPath hmem => ⟨directory_write _ _ _ _ _ _, ?_⟩, ⟨p, ?_⟩,
    filesOnly_of_mem (fun _ => mem_write) h.files, fun id' => ?_⟩
  · rw [dir, dir, directory_write]
    cases hq : directory s.sys.world.service.disk cwd dirPath with
    | none => rfl
    | some q => exact lookup_write_ne hplace (logs_apart hl hroot hmem hp hq) content .stored
  · rw [directory_write, hp]
  · rw [logOf]
    dsimp only [System.setDisk]
    rw [dir, directory_write, hp, Option.bind_some, lookup_write hplace hd, Option.bind_some, store]
    by_cases hid : id' = id
    · rw [hid, AList.lookup_insert, if_pos rfl]
    · rw [lookup_insert_ne fun heq => hid (logName_injective heq), if_neg hid, logOf, dir, hp,
        Option.bind_some, hd, Option.bind_some]

theorem Sane.active {s : System} (h : Sane L cwd root s) {pid : Int} {r : Forked}
    (hl : s.runners.lookup pid = some r) :
    s.sys.world.service.scheduler.activeJobs.lookup pid = some r.jobId :=
  h.sys.placed.runners pid r.jobId false (h.runners pid r hl)

/-- Two children are not those of one job. -/
theorem Sane.runner_unique {s : System} (h : Sane L cwd root s) {pid pid' : Int}
    {r r' : Forked} (hl : s.runners.lookup pid = some r) (hl' : s.runners.lookup pid' = some r')
    (hid : r.jobId = r'.jobId) : pid = pid' :=
  h.sys.placed.once pid pid' r.jobId (h.active hl) (hid ▸ h.active hl')

theorem stdout_runnerChild (fds : Fds Handle) (jobId : Int) :
    (runnerChild fds jobId).file 1 = if Mute fds then none else some (.log jobId) := by
  rw [file_runnerChild, if_pos rfl]
  rfl

theorem log_notMem_runnerChild {fds : Fds Handle} (hfds : ∀ id, some (.log id) ∉ fds)
    (hmute : Mute fds) (jobId id : Int) : some (.log id) ∉ runnerChild fds jobId := by
  intro hmem
  obtain ⟨fd, hfd⟩ := mem_iff_file.mp hmem
  by_cases h1 : fd = 1
  · rw [h1, stdout_runnerChild, if_pos hmute] at hfd
    cases hfd
  · rw [file_runnerChild, if_neg h1] at hfd
    by_cases hclosed : 5 ≤ fd ∧ fd < 256
    · rw [if_pos hclosed] at hfd
      cases hfd
    · rw [if_neg hclosed] at hfd
      exact hfds id (mem_iff_file.mpr ⟨fd, hfd⟩)

/-- The child of a job opens its log, which is empty then. -/
theorem Sane.openLog {s : System} (h : Sane L cwd root s) (hroot : 0 ∉ root)
    {pid jobId : Int} {fds fds' : Fds Handle}
    (hl : s.runners.lookup pid = some ⟨jobId, fds, false⟩)
    (hmuted : Mute fds → ∀ id, some (.log id) ∉ fds')
    (hlogged : ¬ Mute fds → fds'.file 1 = some (.log jobId)) :
    Sane L cwd root { s.setDisk (write s.sys.world.service.disk cwd
        (logPath s.sys.world.service.scheduler jobId) [] .stored) with
      runners := s.runners.insert pid ⟨jobId, fds', true⟩
      output := s.output.insert jobId []
      unlogged := if Mute fds then jobId :: s.unlogged else s.unlogged } := by
  have hnew : jobId ∉ s.output := (h.forked pid _ hl rfl).1
  obtain ⟨hsys, hdir, hfiles, hlogs⟩ := h.writeLog hroot jobId [] rfl
  have hfresh : jobId ∉ s.unlogged := fun hmem => hnew (h.unlogged jobId hmem)
  have hother {id : Int} (hid : id ≠ jobId) :
      id ∈ (if Mute fds then jobId :: s.unlogged else s.unlogged) ↔ id ∈ s.unlogged := by
    by_cases hmute : Mute fds
    · rw [if_pos hmute, List.mem_cons, or_iff_right hid]
    · rw [if_neg hmute]
  have hmute : jobId ∈ (if Mute fds then jobId :: s.unlogged else s.unlogged) ↔ Mute fds := by
    by_cases hmute : Mute fds
    · rw [if_pos hmute]
      exact iff_of_true List.mem_cons_self hmute
    · rw [if_neg hmute]
      exact iff_of_false hfresh hmute
  refine ⟨hsys, h.workingDir, h.service, hdir, hfiles, fun id => ?_, fun id hid => ?_,
    fun id hid => ?_, fun pid' r hr => ?_, fun pid' r hr hopened => ?_, fun pid' r hr hopened => ?_⟩
  · refine (hlogs id).trans ?_
    by_cases hid : id = jobId
    · subst hid
      simp
    · dsimp only
      rw [if_neg hid, h.logs id, lookup_insert_ne hid]
      simp only [hother hid]
  · cases (AList.mem_insert _).mp hid with
    | inl heq =>
      obtain ⟨_, hlt, hfree⟩ := h.sys.placed.active pid jobId (h.active hl)
      rw [heq]
      exact ⟨hlt, hfree⟩
    | inr hold => exact h.output id hold
  · refine (AList.mem_insert _).mpr ?_
    by_cases heq : id = jobId
    · exact Or.inl heq
    · exact Or.inr (h.unlogged id ((hother heq).mp hid))
  · cases lookup_insert_eq_some.mp hr with
    | inl heq =>
      obtain ⟨rfl, rfl⟩ := heq
      have hchild := h.runners pid' _ hl
      exact hchild
    | inr hold => exact h.runners pid' r hold.2
  · cases lookup_insert_eq_some.mp hr with
    | inl heq =>
      rw [← heq.2] at hopened
      cases hopened
    | inr hold =>
      obtain ⟨hout, hlog⟩ := h.forked pid' r hold.2 hopened
      refine ⟨fun hmem => ?_, hlog⟩
      cases (AList.mem_insert _).mp hmem with
      | inl heq => exact hold.1 (h.runner_unique hold.2 hl heq)
      | inr hmem => exact hout hmem
  · cases lookup_insert_eq_some.mp hr with
    | inl heq =>
      obtain ⟨rfl, rfl⟩ := heq
      refine ⟨(AList.mem_insert _).mpr (Or.inl rfl), fun hmem id => ?_, fun hmem => ?_⟩
      · exact hmuted (hmute.mp hmem) id
      · exact hlogged fun h => hmem (hmute.mpr h)
    | inr hold =>
      obtain ⟨hout, hmuted, hlog⟩ := h.opened pid' r hold.2 hopened
      have hne : r.jobId ≠ jobId := fun heq => hnew (heq ▸ hout)
      refine ⟨(AList.mem_insert _).mpr (Or.inr hout), fun hmem => ?_, fun hmem => ?_⟩
      · exact hmuted ((hother hne).mp hmem)
      · exact hlog fun hmem' => hmem ((hother hne).mpr hmem')

/-- A test runner opens something else. -/
theorem Sane.runnerFile {s : System} (h : Sane L cwd root s) {pid jobId : Int}
    {fds : Fds Handle} (hl : s.runners.lookup pid = some ⟨jobId, fds, true⟩) (n : Nat) :
    Sane L cwd root { s with
      runners := s.runners.insert pid ⟨jobId, fds.openFile (.other n), true⟩ } := by
  refine ⟨h.sys, h.workingDir, h.service, h.logsDir, h.files, h.logs, h.output, h.unlogged,
    fun pid' r hr => ?_, fun pid' r hr hopened => ?_, fun pid' r hr hopened => ?_⟩
  · cases lookup_insert_eq_some.mp hr with
    | inl heq =>
      obtain ⟨rfl, rfl⟩ := heq
      have hchild := h.runners pid' _ hl
      exact hchild
    | inr hold => exact h.runners pid' r hold.2
  · cases lookup_insert_eq_some.mp hr with
    | inl heq =>
      rw [← heq.2] at hopened
      cases hopened
    | inr hold => exact h.forked pid' r hold.2 hopened
  · cases lookup_insert_eq_some.mp hr with
    | inr hold => exact h.opened pid' r hold.2 hopened
    | inl heq =>
      obtain ⟨rfl, rfl⟩ := heq
      obtain ⟨hout, hmuted, hlog⟩ := h.opened pid' _ hl rfl
      refine ⟨hout, fun hmem id hfile => ?_, fun hmem => ?_⟩
      · exact hmuted hmem id ((mem_of_openFile hfile).resolve_left (by simp))
      · have h1 := hlog hmem
        dsimp only at h1 ⊢
        have hne : 1 ≠ fds.free := fun heq => by
          rw [heq, file_free] at h1
          cases h1
        rw [file_openFile, if_neg hne, h1]

/-- What a test runner prints goes to the log of its job, or nowhere. -/
theorem Sane.print {s : System} (h : Sane L cwd root s) (hroot : 0 ∉ root)
    {pid jobId : Int} {fds : Fds Handle} (hl : s.runners.lookup pid = some ⟨jobId, fds, true⟩)
    {bytes : Bytes} {s' : System} (hs : step L cwd s (.print pid bytes) = some s') :
    Sane L cwd root s' := by
  obtain ⟨hout, hmuted, hlog⟩ := h.opened pid _ hl rfl
  obtain ⟨out, hlookup⟩ := Option.isSome_iff_exists.mp (AList.lookup_isSome.mpr hout)
  dsimp only at hlookup
  have hmem (id : Int) : id ∈ s.output.insert jobId (out ++ bytes) ↔ id ∈ s.output := by
    rw [AList.mem_insert]
    exact ⟨fun hid => hid.elim (fun heq => heq ▸ hout) fun hold => hold, Or.inr⟩
  have houtput : ∀ id, id ∈ s.output.insert jobId (out ++ bytes) →
      id < s.sys.world.service.scheduler.db.m_jobId ∧
        id ∉ s.sys.world.service.scheduler.waitQueue :=
    fun id hid => h.output id ((hmem id).mp hid)
  have hunlogged : ∀ id ∈ s.unlogged, id ∈ s.output.insert jobId (out ++ bytes) :=
    fun id hid => (hmem id).mpr (h.unlogged id hid)
  have hforked : ∀ pid r, s.runners.lookup pid = some r → r.opened = false →
      r.jobId ∉ s.output.insert jobId (out ++ bytes) ∧ ∀ id, some (.log id) ∉ r.fds :=
    fun pid r hr hopened => by
      rw [hmem]
      exact h.forked pid r hr hopened
  have hopened : ∀ pid r, s.runners.lookup pid = some r → r.opened = true →
      r.jobId ∈ s.output.insert jobId (out ++ bytes) ∧
        (r.jobId ∈ s.unlogged → ∀ id, some (.log id) ∉ r.fds) ∧
        (r.jobId ∉ s.unlogged → r.fds.file 1 = some (.log r.jobId)) :=
    fun pid r hr hopened => by
      rw [hmem]
      exact h.opened pid r hr hopened
  by_cases hmute : jobId ∈ s.unlogged
  · have hnone : ∀ id, fds.file 1 ≠ some (.log id) := fun id heq =>
      hmuted hmute id (mem_iff_file.mpr ⟨1, heq⟩)
    have hs' : s' = { s with output := s.output.insert jobId (out ++ bytes) } := by
      cases hfile : fds.file 1 with
      | none =>
        simp only [step, hl, hlookup, Option.getD_some, hfile, Option.some.injEq] at hs
        exact hs.symm
      | some f =>
        cases f with
        | log id => exact absurd hfile (hnone id)
        | _ =>
          simp only [step, hl, hlookup, Option.getD_some, hfile, Option.some.injEq] at hs
          exact hs.symm
    subst hs'
    refine ⟨h.sys, h.workingDir, h.service, h.logsDir, h.files, fun id => ?_, houtput, hunlogged,
      h.runners, hforked, hopened⟩
    by_cases hid : id = jobId
    · subst hid
      rw [h.logs id, hlookup, AList.lookup_insert]
      simp only [Option.map_some, if_pos hmute]
    · rw [lookup_insert_ne hid]
      exact h.logs id
  · have hfile : fds.file 1 = some (.log jobId) := hlog hmute
    obtain ⟨p, hp⟩ := h.logsDir
    have hplace := place_logPath h.sys.world.layout h.workingDir hroot hp h.files jobId
    have hold : file s.sys.world.service.disk ⟨p, logName jobId⟩ = some out := by
      rw [file_logPath hp, h.logs jobId, hlookup, Option.map_some, if_neg hmute]
    have happend : append cwd s.sys.world.service.disk
        (logPath s.sys.world.service.scheduler jobId) bytes =
          write s.sys.world.service.disk cwd (logPath s.sys.world.service.scheduler jobId)
            (out ++ bytes) .stored := by
      rw [append, hplace]
      dsimp only
      rw [hold, Option.getD_some]
    simp only [step, hl, hlookup, Option.getD_some, hfile, happend, Option.some.injEq] at hs
    subst hs
    obtain ⟨hsys, hdir, hfiles, hlogs⟩ := h.writeLog hroot jobId (out ++ bytes) rfl
    refine ⟨hsys, h.workingDir, h.service, hdir, hfiles, fun id => (hlogs id).trans ?_, houtput,
      hunlogged, h.runners, hforked, hopened⟩
    dsimp only [System.setDisk]
    by_cases hid : id = jobId
    · subst hid
      rw [if_pos rfl, AList.lookup_insert, Option.map_some]
      exact (congrArg some (if_neg hmute)).symm
    · rw [if_neg hid, lookup_insert_ne hid]
      exact h.logs id

theorem Sane.step {s s' : System} {a : Action} (h : Sane L cwd root s) (hroot : 0 ∉ root)
    (hcareful : Careful L cwd s a)
    (hs : step L cwd s a = some s') : Sane L cwd root s' := by
  cases a with
  | system a =>
    by_cases henabled : Enabled s a
    · rw [JobLogs.step, if_pos henabled] at hs
      obtain ⟨sys, hstep, rfl⟩ := Option.map_eq_some_iff.mp hs
      exact h.system hroot hcareful hstep
    · rw [JobLogs.step, if_neg henabled] at hs
      cases hs
  | openFile n =>
    obtain rfl := Option.some.inj hs
    refine ⟨h.sys, h.workingDir, fun id hmem => ?_, h.logsDir, h.files, h.logs, h.output,
      h.unlogged, h.runners, h.forked, h.opened⟩
    exact h.service id ((mem_of_openFile hmem).resolve_left (by simp))
  | close fd =>
    cases hfile : s.service.file fd with
    | none => simp [JobLogs.step, hfile] at hs
    | some f =>
      cases f with
      | other n =>
        simp only [JobLogs.step, hfile, Option.some.injEq] at hs
        obtain rfl := hs
        exact ⟨h.sys, h.workingDir, fun id hmem => h.service id (mem_of_close hmem), h.logsDir,
          h.files, h.logs, h.output, h.unlogged, h.runners, h.forked, h.opened⟩
      | _ => simp [JobLogs.step, hfile] at hs
  | openLog pid =>
    cases hl : s.runners.lookup pid with
    | none => simp [JobLogs.step, hl] at hs
    | some r =>
      obtain ⟨jobId, fds, opened⟩ := r
      cases opened with
      | true => simp [JobLogs.step, hl] at hs
      | false =>
        by_cases hplace : place s.sys.world.service.disk cwd
            (logPath s.sys.world.service.scheduler jobId) = none
        · simp [JobLogs.step, hl, hplace] at hs
        · simp only [JobLogs.step, hl, if_neg hplace, Option.some.injEq] at hs
          have hfds : ∀ id, some (.log id) ∉ fds := (h.forked pid _ hl rfl).2
          refine hs ▸ h.openLog hroot hl (fun hmute => log_notMem_runnerChild hfds hmute jobId)
            fun hmute => ?_
          rw [stdout_runnerChild, if_neg hmute]
  | runnerFile pid n =>
    cases hl : s.runners.lookup pid with
    | none => simp [JobLogs.step, hl] at hs
    | some r =>
      obtain ⟨jobId, fds, opened⟩ := r
      cases opened with
      | false => simp [JobLogs.step, hl] at hs
      | true =>
        simp only [JobLogs.step, hl, Option.some.injEq] at hs
        exact hs ▸ h.runnerFile hl n
  | print pid bytes =>
    cases hl : s.runners.lookup pid with
    | none => simp [JobLogs.step, hl] at hs
    | some r =>
      obtain ⟨jobId, fds, opened⟩ := r
      cases opened with
      | false => simp [JobLogs.step, hl] at hs
      | true => exact h.print hroot hl hs

/-- Along careful runs from a service that was just started. -/
theorem Fresh.run {s s' : System} (h : Fresh cwd root s) (hroot : 0 ∉ root)
    {as : List Action}
    (hcareful : Meets (JobLogs.step L cwd) (Careful L cwd) s as)
    (hrun : run (JobLogs.step L cwd) s as = some s') : Sane L cwd root s' :=
  run_invariant_of_meets (fun _ _ _ h hc hs => Sane.step h hroot hc hs) h.sane hcareful hrun

/-! ### Logs that are served -/

/- A job is posted, and its test runner prints. -/
def freshLogs : System :=
  { sys := { world := { freshWorld with service := { freshWorld.service with
      disk := freshWorld.service.disk.insert [text "opt", text "logs"] ∅ } } }
    service := ReplPipe.sampleFds }

def printed : List Action :=
  [.system (.request sampleEnv (.postJobs TornResults.sampleRequestText)), .openLog 11,
    .print 11 (text "a"), .openFile 7, .print 11 (text "b")]

theorem fresh_logs : Fresh [] (text "/opt") freshLogs := by
  refine ⟨⟨⟨layout_construct _ _ _ _, ⟨_, rfl⟩, ⟨_, rfl⟩, rfl, rfl, fun _ => rfl⟩, rfl, rfl,
    rfl, rfl,
    rfl, rfl⟩, rfl, ?_, ⟨_, rfl⟩, ?_, fun _ => rfl, rfl, rfl, rfl⟩
  · intro id hmem
    simp [freshLogs, ReplPipe.sampleFds] at hmem
  · intro p hp id hmem
    obtain rfl : [text "opt", text "logs"] = p := Option.some.inj hp
    have hkeys : ∀ q ∈ freshLogs.sys.world.service.disk.keys,
        q.length ≤ 2 ∨ q.take 2 ≠ [text "opt", text "logs"] := by
      decide
    cases hkeys _ (AList.mem_keys.mpr hmem) with
    | inl hlength => exact absurd hlength (by simp)
    | inr htake => exact htake rfl

theorem careful_printed :
    Meets (step sampleLibrary []) (Careful sampleLibrary []) freshLogs printed := by
  refine ⟨⟨⟨⟨rfl, by decide, ?_⟩, ?_⟩, ?_⟩, fun _ _ => ⟨trivial, fun _ _ =>
    ⟨trivial, fun _ _ => ⟨trivial, fun _ _ => ⟨trivial, fun _ _ => trivial⟩⟩⟩⟩⟩
  · intro p hp
    obtain rfl : [text "opt", text "jobs", text "requests"] = p := Option.some.inj hp
    decide
  · intro r _ hheld
    cases hheld
  · intro env heq
    simp at heq

end OpcUaTestTool.JobLogs
