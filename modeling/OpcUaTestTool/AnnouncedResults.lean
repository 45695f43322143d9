import OpcUaTestTool.SchedulerRuns
import OpcUaTestTool.ServiceProcesses
import OpcUaTestTool.ServiceRuns

/-! The service with its files and its children: requests, test runners that write their results and
end, and the signal thread that reaps them and announces their jobs. -/
namespace OpcUaTestTool.AnnouncedResults
open FiniteMap Numerals Directory FileSystem Store JobScheduler JsonValues JsonLibrary
open ServiceProcesses (Child Program ForkFree addRunner Linked)
open SchedulerRuns (jobFinishedEvent_injective)
open TestRunner FinishedJobs Api TornResults ServiceRuns Transition

/- `held` is the pid that the signal thread has reaped and not yet reported. Of each job whose test
runner ended with its whole result stored the execution is kept, and the jobs whose
runner failed. -/
structure System where
  world : World
  children : Map Int Child := ∅
  held : Option Int := none
  announced : List Event := []
  executed : Map Int Execution := ∅
  failed : List Int := []

inductive Action where
  | request (env : Env) (req : HttpRequest)
  /-- A test runner has stored its result up to some byte. -/
  | write (pid : Int) (e : Execution) (w : Storing)
  /-- A test runner ends, and its whole result is stored. -/
  | exit (pid : Int) (e : Execution)
  /-- A test runner ends without that: it is killed, or its stream has failed, which it ignores. -/
  | fail (pid : Int)
  /-- `wait(nullptr)` returns the pid of a test runner, or one that belongs to none. -/
  | wait (pid : Int)
  | jobFinished (fork : Int)

variable (L : Library) (cwd : Path)

/-- The store in which `create` is called. -/
def enqueued (s : Service) (env : Env) (body : Bytes) : Scheduler :=
  s.scheduler.enqueue (treeOf cwd s.scheduler.db s.disk) body env.storing

/-- The test runner that a request starts. -/
def startedBy (s : Service) (env : Env) : HttpRequest → Option Runner
  | .postJobs body =>
    match s.scheduler.create (treeOf cwd s.scheduler.db s.disk) body env.storing env.fork with
    | .ok c => c.started
    | .error _ => none
  | _ => none

/-- The kernel does not hand out the pid of a process that has not been reaped. -/
def Forkable (s : System) (env : Env) : HttpRequest → Prop
  | .postJobs body => ForkFree s.children (enqueued cwd s.world.service env body) env.fork
  | _ => True

instance (s : System) (env : Env) : (req : HttpRequest) → Decidable (Forkable cwd s env req)
  | .postJobs _ => inferInstanceAs (Decidable (ForkFree _ _ _))
  | .getJobs _ _ => isTrue trivial
  | .getScripts => isTrue trivial
  | .putRepoClone => isTrue trivial
  | .getScript _ => isTrue trivial
  | .postScript _ _ => isTrue trivial
  | .getJob _ => isTrue trivial
  | .getJobLog _ => isTrue trivial
  | .getEvents => isTrue trivial
  | .getTargets => isTrue trivial
  | .postRepl _ => isTrue trivial

def step (s : System) : Action → Option System
  | .request env req =>
    if Forkable cwd s env req then
      (ServiceRuns.step L cwd s.world (.request env req)).map fun world =>
        { s with
          world := world
          children := addRunner s.children (startedBy cwd s.world.service env req) }
    else none
  | .write pid e w =>
    match s.children.lookup pid with
    | some ⟨.testRunner jobId, false⟩ =>
      (ServiceRuns.step L cwd s.world (.runner jobId e w)).map fun world =>
        { s with world := world }
    | _ => none
  | .exit pid e =>
    match s.children.lookup pid with
    | some ⟨.testRunner jobId, false⟩ =>
      (ServiceRuns.step L cwd s.world (.runner jobId e .stored)).map fun world =>
        { s with
          world := world
          children := s.children.insert pid ⟨.testRunner jobId, true⟩
          executed := s.executed.insert jobId e }
    | _ => none
  | .fail pid =>
    match s.children.lookup pid with
    | some ⟨.testRunner jobId, false⟩ => some
      { s with
        children := s.children.insert pid ⟨.testRunner jobId, true⟩
        failed := jobId :: s.failed }
    | _ => none
  | .wait pid =>
    match s.held, s.children.lookup pid with
    | some _, _ => none
    | none, some ⟨_, false⟩ => none
    | none, _ => some { s with children := s.children.erase pid, held := some pid }
  | .jobFinished fork =>
    match s.held with
    | none => none
    | some pid =>
      if ForkFree s.children (s.world.service.scheduler.release pid) fork then
        match s.world.service.scheduler.jobFinished pid fork with
        | .error _ => none
        | .ok f =>
          (ServiceRuns.step L cwd s.world (.jobFinished pid fork)).map fun world =>
            { s with
              world := world
              children := addRunner s.children f.started
              held := none
              announced := s.announced ++ f.announced.toList }
      else none

/-- Careful for the files, and no job is started under the pid that is held. -/
def Careful (s : System) : Action → Prop
  | .request env req => ServiceRuns.Careful L cwd s.world (.request env req) ∧
      ∀ r ∈ startedBy cwd s.world.service env req, s.held ≠ some r.pid
  | .write _ e _ => Clocked L e
  | .exit _ e => Clocked L e
  | _ => True

/-- A service without jobs, on a store without results. -/
structure Fresh (root : Bytes) (s : System) : Prop where
  world : ServiceRuns.Fresh cwd root s.world
  waitQueue : s.world.service.scheduler.waitQueue = []
  activeJobs : s.world.service.scheduler.activeJobs = ∅
  children : s.children = ∅
  announced : s.announced = []
  executed : s.executed = ∅
  failed : s.failed = []

def System.Over (s : System) (id : Int) : Prop := id ∈ s.executed ∨ id ∈ s.failed

/- A job waits, or it has one test runner, or its runner is over. -/
structure Placed (s : Scheduler) (children : Map Int Child) (gone : Int → Prop) : Prop where
  nodup : s.waitQueue.Nodup
  waiting : ∀ id ∈ s.waitQueue, 0 ≤ id ∧ id < s.db.m_jobId
  active : ∀ pid id, s.activeJobs.lookup pid = some id →
    0 ≤ id ∧ id < s.db.m_jobId ∧ id ∉ s.waitQueue
  once : ∀ pid pid' id, s.activeJobs.lookup pid = some id →
    s.activeJobs.lookup pid' = some id → pid = pid'
  runners : ∀ pid id exited, children.lookup pid = some ⟨.testRunner id, exited⟩ →
    s.activeJobs.lookup pid = some id
  gone : ∀ id, gone id → id < s.db.m_jobId ∧ id ∉ s.waitQueue ∧
    ∀ pid, children.lookup pid ≠ some ⟨.testRunner id, false⟩

/-- The result file of a job holds the record of an execution, if there is a job to execute. -/
def Recorded (w : World) (id : Int) (e : Execution) : Prop :=
  ∃ body, w.accepted.lookup id = some body ∧ ∀ request job, L.parse body = some request →
    IsJobOf request w.service.scheduler.db.m_scriptDir job →
      finishedOf cwd w id = some (L.dump ((Job.execute job e).output id request))

structure Sane (root : Bytes) (s : System) : Prop where
  world : ServiceRuns.Sane L cwd root s.world
  accepted : ∀ id, 0 ≤ id → id < s.world.service.scheduler.db.m_jobId → id ∈ s.world.accepted
  placed : Placed s.world.service.scheduler s.children s.Over
  linked : Linked s.held s.world.service.scheduler.activeJobs s.children
  zombies : ∀ pid id, s.children.lookup pid = some ⟨.testRunner id, true⟩ → s.Over id
  reaped : ∀ pid, s.held = some pid → pid ∉ s.children
  held : ∀ pid id, s.held = some pid →
    s.world.service.scheduler.activeJobs.lookup pid = some id → s.Over id
  announced : ∀ e ∈ s.announced, ∃ id, e = jobFinishedEvent id ∧ s.Over id
  recorded : ∀ id e, s.executed.lookup id = some e →
    Clocked L e ∧ Recorded L cwd s.world id e

variable {L cwd} {root : Bytes}

/-! ### Places -/

section
variable {s s' : Scheduler} {children : Map Int Child} {gone : Int → Prop}

theorem Placed.enqueue (h : Placed s children gone) (hpos : 0 ≤ s.db.m_jobId)
    (hmax : s.db.m_jobId < 2147483647) (t : Tree) (body : Bytes) (w : Storing) :
    Placed (s.enqueue t body w) children gone := by
  have hid : (s.enqueue t body w).db.m_jobId = s.db.m_jobId + 1 := by
    simp only [Scheduler.enqueue, DataBase.newJob_m_jobId]
    exact int32_eq_self ⟨by omega, by omega⟩
  have hqueue : (s.enqueue t body w).waitQueue = s.waitQueue ++ [s.db.m_jobId] := rfl
  refine ⟨?_, ?_, ?_, h.once, h.runners, ?_⟩
  · rw [hqueue, List.nodup_append]
    refine ⟨h.nodup, List.nodup_singleton _, ?_⟩
    intro id hmem id' hid' heq
    have := (h.waiting id hmem).2
    rw [List.mem_singleton] at hid'
    omega
  · intro id hmem
    rw [hid]
    rw [hqueue, List.mem_append, List.mem_singleton] at hmem
    cases hmem with
    | inl hold =>
      have := h.waiting id hold
      omega
    | inr hnew => omega
  · intro pid id hl
    obtain ⟨hpos', hlt, hfree⟩ := h.active pid id hl
    rw [hid, hqueue, List.mem_append, List.mem_singleton]
    refine ⟨hpos', by omega, ?_⟩
    rintro (hold | hnew)
    · exact hfree hold
    · omega
  · intro id ho
    obtain ⟨hlt, hfree, halive⟩ := h.gone id ho
    rw [hid, hqueue, List.mem_append, List.mem_singleton]
    refine ⟨by omega, ?_, halive⟩
    rintro (hold | hnew)
    · exact hfree hold
    · omega

/-- The job that is started leaves the queue. -/
theorem Placed.schedule (h : Placed s children gone) {fork : Int} (hfork : ForkFree children s fork)
    (hnew : s.Forks → fork ∉ s.activeJobs) {started : Option Runner}
    (hs : s.schedule fork = .ok (s', started)) :
    Placed s' (addRunner children started) gone := by
  cases schedule_cases hs with
  | inl hcase =>
    obtain ⟨_, rfl, rfl⟩ := hcase
    exact h
  | inr hcase =>
    obtain ⟨hforks, jobId, rest, hqueue, rfl, rfl⟩ := hcase
    have hactive := AList.lookup_eq_none.mpr (hnew hforks)
    have hchild := (hfork hforks).2
    obtain ⟨hfresh, hrest⟩ := List.nodup_cons.mp (hqueue ▸ h.nodup)
    have hmem : jobId ∈ s.waitQueue := hqueue ▸ List.mem_cons_self
    have hsub {id : Int} (hid : id ∉ s.waitQueue) : id ∉ rest ∧ id ≠ jobId := by
      rw [hqueue, List.mem_cons, not_or] at hid
      exact ⟨hid.2, hid.1⟩
    refine ⟨hrest, ?_, ?_, ?_, ?_, ?_⟩
    · intro id hid
      exact h.waiting id (hqueue ▸ List.mem_cons_of_mem jobId hid)
    · intro pid id hl
      cases lookup_insert_eq_some.mp hl with
      | inl heq =>
        obtain ⟨rfl, rfl⟩ := heq
        have := h.waiting jobId hmem
        exact ⟨this.1, this.2, hfresh⟩
      | inr hold =>
        obtain ⟨hpos, hlt, hfree⟩ := h.active pid id hold.2
        exact ⟨hpos, hlt, (hsub hfree).1⟩
    · intro pid pid' id hl hl'
      have hother {pid : Int} (hl : s.activeJobs.lookup pid = some id) : id ≠ jobId :=
        (hsub (h.active pid id hl).2.2).2
      cases lookup_insert_eq_some.mp hl with
      | inl heq =>
        cases lookup_insert_eq_some.mp hl' with
        | inl heq' => exact heq.1.trans heq'.1.symm
        | inr hold' => exact absurd heq.2.symm (hother hold'.2)
      | inr hold =>
        cases lookup_insert_eq_some.mp hl' with
        | inl heq' => exact absurd heq'.2.symm (hother hold.2)
        | inr hold' => exact h.once pid pid' id hold.2 hold'.2
    · intro pid id exited hl
      cases lookup_insert_eq_some.mp hl with
      | inl heq =>
        obtain ⟨rfl, hchild⟩ := heq
        obtain ⟨hprogram, _⟩ := Child.mk.inj hchild
        obtain rfl := Program.testRunner.inj hprogram
        exact AList.lookup_insert _
      | inr hold => exact lookup_insert_fresh (hnew hforks) (h.runners pid id exited hold.2)
    · intro id ho
      obtain ⟨hlt, hfree, halive⟩ := h.gone id ho
      refine ⟨hlt, (hsub hfree).1, ?_⟩
      intro pid hl
      cases lookup_insert_eq_some.mp hl with
      | inl heq =>
        obtain ⟨_, hchild⟩ := heq
        obtain ⟨hprogram, _⟩ := Child.mk.inj hchild
        exact (hsub hfree).2 (Program.testRunner.inj hprogram).symm
      | inr hold => exact halive pid hold.2

theorem Placed.release (h : Placed s children gone) {pid : Int} (hpid : pid ∉ children) :
    Placed (s.release pid) children gone := by
  refine ⟨h.nodup, h.waiting, ?_, ?_, ?_, h.gone⟩
  · intro p id hl
    exact h.active p id (lookup_erase_eq_some.mp hl).2
  · intro p p' id hl hl'
    exact h.once p p' id (lookup_erase_eq_some.mp hl).2 (lookup_erase_eq_some.mp hl').2
  · intro p id exited hl
    have hne : p ≠ pid := fun heq => by
      rw [heq, AList.lookup_eq_none.mpr hpid] at hl
      cases hl
    exact lookup_erase_eq_some.mpr ⟨hne, h.runners p id exited hl⟩

/-- A test runner ends. -/
theorem Placed.exit (h : Placed s children gone) {pid jobId : Int}
    (hl : children.lookup pid = some ⟨.testRunner jobId, false⟩) {gone' : Int → Prop}
    (hover : ∀ id, gone' id → gone id ∨ id = jobId) :
    Placed s (children.insert pid ⟨.testRunner jobId, true⟩) gone' := by
  have hactive := h.runners pid jobId false hl
  refine ⟨h.nodup, h.waiting, h.active, h.once, ?_, ?_⟩
  · intro p id exited hl'
    cases lookup_insert_eq_some.mp hl' with
    | inl heq =>
      obtain ⟨rfl, hchild⟩ := heq
      obtain ⟨hprogram, _⟩ := Child.mk.inj hchild
      obtain rfl := Program.testRunner.inj hprogram
      exact hactive
    | inr hold => exact h.runners p id exited hold.2
  · intro id ho
    have halive (hid : ∀ p, p ≠ pid → children.lookup p ≠ some ⟨.testRunner id, false⟩) (p : Int) :
        (children.insert pid ⟨.testRunner jobId, true⟩).lookup p ≠
          some ⟨.testRunner id, false⟩ := by
      intro hl'
      cases lookup_insert_eq_some.mp hl' with
      | inl heq => exact absurd heq.2 (by simp)
      | inr hold => exact hid p hold.1 hold.2
    cases hover id ho with
    | inl hold =>
      obtain ⟨hlt, hfree, hnone⟩ := h.gone id hold
      exact ⟨hlt, hfree, halive fun p _ => hnone p⟩
    | inr heq =>
      subst heq
      obtain ⟨_, hlt, hfree⟩ := h.active pid id hactive
      refine ⟨hlt, hfree, halive fun p hne hl' => hne ?_⟩
      exact h.once p pid id (h.runners p id false hl') hactive

theorem Placed.reap (h : Placed s children gone) (pid : Int) :
    Placed s (children.erase pid) gone := by
  refine ⟨h.nodup, h.waiting, h.active, h.once, ?_, ?_⟩
  · intro p id exited hl
    exact h.runners p id exited (lookup_erase_eq_some.mp hl).2
  · intro id ho
    obtain ⟨hlt, hfree, hnone⟩ := h.gone id ho
    exact ⟨hlt, hfree, fun p hl => hnone p (lookup_erase_eq_some.mp hl).2⟩

/-- An active job was active before, or its test runner was just started. -/
theorem active_schedule {fork : Int} {started : Option Runner}
    (hs : s.schedule fork = .ok (s', started)) {pid id : Int}
    (hl : s'.activeJobs.lookup pid = some id) :
    s.activeJobs.lookup pid = some id ∨ ∃ r ∈ started, r.pid = pid := by
  cases schedule_cases hs with
  | inl hcase =>
    obtain ⟨_, rfl, _⟩ := hcase
    exact Or.inl hl
  | inr hcase =>
    obtain ⟨_, jobId, rest, _, rfl, rfl⟩ := hcase
    cases lookup_insert_eq_some.mp hl with
    | inl heq => exact Or.inr ⟨⟨fork, jobId⟩, rfl, heq.1.symm⟩
    | inr hold => exact Or.inl hold.2

theorem started_of_forks {fork : Int} {started : Option Runner} (hforks : s.Forks)
    (hs : s.schedule fork = .ok (s', started)) : ∃ r ∈ started, r.pid = fork := by
  cases schedule_cases hs with
  | inl hcase => exact absurd hforks hcase.1
  | inr hcase =>
    obtain ⟨_, jobId, rest, _, _, rfl⟩ := hcase
    exact ⟨⟨fork, jobId⟩, rfl, rfl⟩

/-- A test runner that was just started has not ended. -/
theorem ended_addRunner {started : Option Runner} {pid id : Int}
    (hl : (addRunner children started).lookup pid = some ⟨.testRunner id, true⟩) :
    children.lookup pid = some ⟨.testRunner id, true⟩ := by
  cases started with
  | none => exact hl
  | some r =>
    cases lookup_insert_eq_some.mp hl with
    | inl heq => exact absurd heq.2 (by simp)
    | inr hold => exact hold.2

theorem notMem_addRunner {started : Option Runner} {pid : Int} (hpid : pid ∉ children)
    (hr : ∀ r ∈ started, pid ≠ r.pid) : pid ∉ addRunner children started := by
  cases started with
  | none => exact hpid
  | some r =>
    rw [addRunner, AList.mem_insert, not_or]
    exact ⟨hr r rfl, hpid⟩

/-- An active pid is that of a child, or it is held. -/
theorem notMem_active {held : Option Int} {active : Map Int Int}
    (h : Linked held active children) {pid : Int} (hchild : pid ∉ children)
    (hheld : held ≠ some pid) : pid ∉ active := by
  intro hmem
  obtain ⟨id, hl⟩ := Option.isSome_iff_exists.mp (AList.lookup_isSome.mpr hmem)
  cases h pid id hl with
  | inl heq => exact hheld heq
  | inr hrunner =>
    obtain ⟨exited, hc⟩ := hrunner
    rw [AList.lookup_eq_none.mpr hchild] at hc
    cases hc

end

/-! ### Steps -/

theorem Fresh.sane {s : System} (h : Fresh cwd root s) : Sane L cwd root s := by
  have hover (id : Int) : ¬ s.Over id := by
    rintro (hexecuted | hfailed)
    · rw [h.executed] at hexecuted
      exact AList.notMem_empty id hexecuted
    · rw [h.failed] at hfailed
      cases hfailed
  have hchildren (pid : Int) : s.children.lookup pid = none := by
    rw [h.children]
    rfl
  have hactive (pid : Int) : s.world.service.scheduler.activeJobs.lookup pid = none := by
    rw [h.activeJobs]
    rfl
  refine ⟨h.world.sane, ?_, ⟨?_, ?_, ?_, ?_, ?_, fun id ho => absurd ho (hover id)⟩, ?_, ?_, ?_,
    ?_, ?_, ?_⟩
  · intro id hpos hlt
    rw [h.world.counter] at hlt
    omega
  · rw [h.waitQueue]
    exact List.nodup_nil
  · intro id hid
    rw [h.waitQueue] at hid
    cases hid
  · intro pid id hl
    rw [hactive] at hl
    cases hl
  · intro pid pid' id hl
    rw [hactive] at hl
    cases hl
  · intro pid id exited hl
    rw [hchildren] at hl
    cases hl
  · intro pid id hl
    rw [hactive] at hl
    cases hl
  · intro pid id hl
    rw [hchildren] at hl
    cases hl
  · intro pid _
    exact AList.lookup_eq_none.mp (hchildren pid)
  · intro pid id _ hl
    rw [hactive] at hl
    cases hl
  · intro e he
    rw [h.announced] at he
    cases he
  · intro id e hl
    rw [h.executed] at hl
    cases hl

theorem Recorded.kept {w w' : World} {id : Int} {e : Execution}
    (hr : Recorded L cwd w id e) (h : ServiceRuns.Sane L cwd root w)
    (hroot : 0 ∉ root) {a : ServiceRuns.Action}
    (hcareful : ServiceRuns.Careful L cwd w a)
    (hs : ServiceRuns.step L cwd w a = some w')
    (hother : ∀ e storing, a ≠ .runner id e storing) : Recorded L cwd w' id e := by
  obtain ⟨body, hl, hfile⟩ := hr
  have hdir : w'.service.scheduler.db.m_scriptDir = w.service.scheduler.db.m_scriptDir :=
    (h.step hroot hcareful hs).layout.scripts.trans h.layout.scripts.symm
  refine ⟨body, h.accepted_kept hs hl, ?_⟩
  intro request job hparse hjob
  rw [h.finishedOf_kept hroot hcareful hs hother]
  exact hfile request job hparse (hdir ▸ hjob)

/-- The test runner of an active job is not one of a job that is over. -/
theorem Sane.not_executed {s : System} (h : Sane L cwd root s) {pid jobId : Int}
    (hl : s.children.lookup pid = some ⟨.testRunner jobId, false⟩) {id : Int} {e : Execution}
    (hexecuted : s.executed.lookup id = some e) : id ≠ jobId := by
  intro heq
  have hover : s.Over id := Or.inl (AList.lookup_isSome.mp (by rw [hexecuted]; rfl))
  exact (h.placed.gone id hover).2.2 pid (heq ▸ hl)

theorem Sane.postJobs {s : System} (h : Sane L cwd root s) (hroot : 0 ∉ root)
    {env : Env} {body : Bytes}
    (hcareful : Careful L cwd s (.request env (.postJobs body)))
    (hfork : Forkable cwd s env (.postJobs body)) {world : World}
    (hs : ServiceRuns.step L cwd s.world (.request env (.postJobs body)) = some world) :
    Sane L cwd root { s with
      world := world
      children := addRunner s.children (startedBy cwd s.world.service env (.postJobs body)) } := by
  have hworld := h.world.step hroot hcareful.1 hs
  have hrecorded : ∀ id e, s.executed.lookup id = some e →
      Clocked L e ∧ Recorded L cwd world id e := fun id e hl =>
    ⟨(h.recorded id e hl).1, (h.recorded id e hl).2.kept h.world hroot hcareful.1 hs (by simp)⟩
  obtain ⟨c, hc, hdb, rfl⟩ := step_postJobs h.world.counter.2 hs
  have hstarted : startedBy cwd s.world.service env (.postJobs body) = c.started := by
    simp only [startedBy, hc]
  obtain ⟨_, _, hschedule⟩ := create_spec hc
  have hforks : ForkFree s.children (enqueued cwd s.world.service env body) env.fork := hfork
  have hheld : (enqueued cwd s.world.service env body).Forks → s.held ≠ some env.fork := by
    intro hforks'
    obtain ⟨r, hr, hpid⟩ := started_of_forks hforks' hschedule
    rw [← hpid]
    exact hcareful.2 r (hstarted ▸ hr)
  have hnew : (enqueued cwd s.world.service env body).Forks →
      env.fork ∉ (enqueued cwd s.world.service env body).activeJobs := fun hforks' =>
    notMem_active h.linked (hforks hforks').2 (hheld hforks')
  have hplaced := (h.placed.enqueue h.world.counter.1 hcareful.1.2.1
    (treeOf cwd s.world.service.scheduler.db s.world.service.disk) body env.storing).schedule
    hforks hnew hschedule
  have hlinked : Linked s.held c.scheduler.activeJobs (addRunner s.children c.started) :=
    h.linked.schedule (s := enqueued cwd s.world.service env body) hforks hschedule
  rw [hstarted]
  refine ⟨hworld, ?_, hplaced, hlinked, ?_, ?_, ?_, h.announced, hrecorded⟩
  · intro id hpos hlt
    have hcounter := h.world.counter
    have hmax := hcareful.1.2.1
    dsimp only at hlt ⊢
    rw [hdb] at hlt
    dsimp only at hlt
    rw [int32_eq_self ⟨by omega, by omega⟩] at hlt
    rw [AList.mem_insert]
    by_cases heq : id = s.world.service.scheduler.db.m_jobId
    · exact Or.inl heq
    · exact Or.inr (h.accepted id hpos (by omega))
  · intro pid id hl
    exact h.zombies pid id (ended_addRunner hl)
  · intro pid hpid
    exact notMem_addRunner (h.reaped pid hpid) fun r hr heq =>
      hcareful.2 r (hstarted ▸ hr) (heq ▸ hpid)
  · intro pid id hpid hl
    cases active_schedule hschedule hl with
    | inl hold => exact h.held pid id hpid hold
    | inr hrunner =>
      obtain ⟨r, hr, hrpid⟩ := hrunner
      exact absurd (hrpid ▸ hpid) (hcareful.2 r (hstarted ▸ hr))

/-- A request that posts no job starts no test runner. -/
theorem Sane.request {s : System} (h : Sane L cwd root s) (hroot : 0 ∉ root)
    {env : Env} {req : HttpRequest}
    (hreq : ∀ body, req ≠ .postJobs body)
    (hcareful : ServiceRuns.Careful L cwd s.world (.request env req)) {world : World}
    (hs : ServiceRuns.step L cwd s.world (.request env req) = some world) :
    Sane L cwd root { s with
      world := world
      children := addRunner s.children (startedBy cwd s.world.service env req) } := by
  have hworld := h.world.step hroot hcareful hs
  have hrecorded : ∀ id e, s.executed.lookup id = some e →
      Clocked L e ∧ Recorded L cwd world id e := fun id e hl =>
    ⟨(h.recorded id e hl).1, (h.recorded id e hl).2.kept h.world hroot hcareful hs (by simp)⟩
  have hstarted : startedBy cwd s.world.service env req = none := by
    cases req with
    | postJobs body => exact absurd rfl (hreq body)
    | _ => rfl
  have hscheduler : world.service.scheduler = s.world.service.scheduler := by
    rw [step_request hreq hs]
    exact scheduler_handle hreq
  have haccepted : world.accepted = s.world.accepted := by rw [step_request hreq hs]
  rw [hstarted]
  refine ⟨hworld, ?_, ?_, ?_, h.zombies, h.reaped, ?_, h.announced, hrecorded⟩
  · dsimp only
    rw [hscheduler, haccepted]
    exact h.accepted
  · dsimp only
    rw [hscheduler]
    exact h.placed
  · dsimp only
    rw [hscheduler]
    exact h.linked
  · dsimp only
    rw [hscheduler]
    exact h.held

theorem Sane.write {s : System} (h : Sane L cwd root s) (hroot : 0 ∉ root)
    {pid jobId : Int} {e : Execution} {storing : Storing}
    (hl : s.children.lookup pid = some ⟨.testRunner jobId, false⟩)
    (he : Clocked L e) {world : World}
    (hs : ServiceRuns.step L cwd s.world (.runner jobId e storing) = some world) :
    Sane L cwd root { s with world := world } := by
  have hcareful : ServiceRuns.Careful L cwd s.world (.runner jobId e storing) := he
  have hworld := h.world.step hroot hcareful hs
  have hrecorded : ∀ id e, s.executed.lookup id = some e →
      Clocked L e ∧ Recorded L cwd world id e := by
    intro id e' hexecuted
    obtain ⟨hreads, hr⟩ := h.recorded id e' hexecuted
    refine ⟨hreads, hr.kept h.world hroot hcareful hs ?_⟩
    intro e'' storing' heq
    exact h.not_executed hl hexecuted (ServiceRuns.Action.runner.inj heq).1.symm
  obtain ⟨_, rfl⟩ := step_runner hs
  exact ⟨hworld, h.accepted, h.placed, h.linked, h.zombies, h.reaped, h.held, h.announced,
    hrecorded⟩

/-- A test runner ends, after what it has done is recorded. -/
theorem Sane.ended {s : System} (h : Sane L cwd root s) {pid jobId : Int}
    (hl : s.children.lookup pid = some ⟨.testRunner jobId, false⟩) {s' : System}
    (hworld : s'.world = s.world) (hheld : s'.held = s.held)
    (hannounced : s'.announced = s.announced)
    (hchildren : s'.children = s.children.insert pid ⟨.testRunner jobId, true⟩)
    (hover : ∀ id, s'.Over id ↔ s.Over id ∨ id = jobId)
    (hrecorded : ∀ id e, s'.executed.lookup id = some e →
      Clocked L e ∧ Recorded L cwd s.world id e) :
    Sane L cwd root s' := by
  have hmem : pid ∈ s.children := AList.lookup_isSome.mp (by rw [hl]; rfl)
  refine ⟨?_, ?_, ?_, ?_, ?_, ?_, ?_, ?_, ?_⟩
  · rw [hworld]
    exact h.world
  · rw [hworld]
    exact h.accepted
  · rw [hworld, hchildren]
    exact h.placed.exit hl fun id ho => (hover id).mp ho
  · rw [hworld, hheld, hchildren]
    exact h.linked.exit hl
  · intro p id hl'
    rw [hchildren] at hl'
    rw [hover]
    cases lookup_insert_eq_some.mp hl' with
    | inl heq =>
      obtain ⟨hprogram, _⟩ := Child.mk.inj heq.2
      exact Or.inr (Program.testRunner.inj hprogram).symm
    | inr hold => exact Or.inl (h.zombies p id hold.2)
  · intro p hp
    rw [hheld] at hp
    rw [hchildren, AList.mem_insert, not_or]
    exact ⟨fun heq => h.reaped p hp (heq ▸ hmem), h.reaped p hp⟩
  · intro p id hp hactive
    rw [hworld] at hactive
    rw [hheld] at hp
    exact (hover id).mpr (Or.inl (h.held p id hp hactive))
  · intro e he
    rw [hannounced] at he
    obtain ⟨id, heq, ho⟩ := h.announced e he
    exact ⟨id, heq, (hover id).mpr (Or.inl ho)⟩
  · rw [hworld]
    exact hrecorded

theorem Sane.wait {s : System} (h : Sane L cwd root s) {pid : Int} (hheld : s.held = none)
    (hl : ∀ program, s.children.lookup pid ≠ some ⟨program, false⟩) :
    Sane L cwd root { s with children := s.children.erase pid, held := some pid } := by
  have hlinked := h.linked
  rw [hheld] at hlinked
  refine ⟨h.world, h.accepted, h.placed.reap pid, hlinked.reap pid, ?_, ?_, ?_, h.announced,
    h.recorded⟩
  · intro p id hl'
    exact h.zombies p id (lookup_erase_eq_some.mp hl').2
  · intro p hp
    obtain rfl : pid = p := Option.some.inj hp
    exact AList.lookup_eq_none.mp (AList.lookup_erase _ _)
  · intro p id hp hactive
    obtain rfl : pid = p := Option.some.inj hp
    cases hlinked pid id hactive with
    | inl heq => cases heq
    | inr hrunner =>
      obtain ⟨exited, hc⟩ := hrunner
      cases exited with
      | false => exact absurd hc (hl _)
      | true => exact h.zombies pid id hc

/-- The job of the pid that was held is announced: its test runner is over. -/
theorem Sane.jobFinished {s : System} (h : Sane L cwd root s) (hroot : 0 ∉ root)
    {pid fork : Int} (hheld : s.held = some pid)
    (hfork : ForkFree s.children (s.world.service.scheduler.release pid) fork) {f : Finished}
    (hf : s.world.service.scheduler.jobFinished pid fork = .ok f) {world : World}
    (hs : ServiceRuns.step L cwd s.world (.jobFinished pid fork) = some world) :
    Sane L cwd root { s with
      world := world
      children := addRunner s.children f.started
      held := none
      announced := s.announced ++ f.announced.toList } := by
  have hcareful : ServiceRuns.Careful L cwd s.world (.jobFinished pid fork) := trivial
  have hworld := h.world.step hroot hcareful hs
  have hrecorded : ∀ id e, s.executed.lookup id = some e →
      Clocked L e ∧ Recorded L cwd world id e := fun id e hl =>
    ⟨(h.recorded id e hl).1, (h.recorded id e hl).2.kept h.world hroot hcareful hs (by simp)⟩
  have hschedule := jobFinished_schedule hf
  have hlinked := h.linked
  rw [hheld] at hlinked
  have hnew : (s.world.service.scheduler.release pid).Forks →
      fork ∉ (s.world.service.scheduler.release pid).activeJobs := fun hforks =>
    notMem_active hlinked.release (hfork hforks).2 (by simp)
  have hplaced := (h.placed.release (h.reaped pid hheld)).schedule hfork hnew hschedule
  have hlinked' : Linked none f.scheduler.activeJobs (addRunner s.children f.started) :=
    hlinked.release.schedule (s := s.world.service.scheduler.release pid) hfork hschedule
  obtain rfl : { s.world with service := { s.world.service with scheduler := f.scheduler } } =
      world := by
    simpa [ServiceRuns.step, hf] using hs
  refine ⟨hworld, ?_, hplaced, hlinked', ?_, ?_, ?_, ?_, hrecorded⟩
  · dsimp only
    rw [(jobFinished_frame hf).1]
    exact h.accepted
  · intro p id hl
    exact h.zombies p id (ended_addRunner hl)
  · intro p hp
    cases hp
  · intro p id hp
    cases hp
  · intro e he
    cases List.mem_append.mp he with
    | inl hold => exact h.announced e hold
    | inr hnew =>
      rw [jobFinished_announced hf] at hnew
      cases hl : s.world.service.scheduler.activeJobs.lookup pid with
      | none => simp [hl] at hnew
      | some id =>
        by_cases hcallback : s.world.service.scheduler.m_fJobFinished = true
        · simp only [hl, hcallback, if_true, Option.map_some, Option.toList_some,
            List.mem_singleton] at hnew
          exact ⟨id, hnew, h.held pid id hheld hl⟩
        · simp [hcallback] at hnew

/-- What happens away from the requests and the results does not matter. -/
theorem Sane.of_sameDirs {s : System} (h : Sane L cwd root s) {disk : Disk}
    (hs : ∀ d ∈ [s.world.service.scheduler.db.m_jobs_requests_dir,
        s.world.service.scheduler.db.m_jobs_finished_dir],
      directory disk cwd d = directory s.world.service.disk cwd d ∧
        dir cwd disk d = dir cwd s.world.service.disk d) :
    Sane L cwd root { s with
      world := { s.world with service := { s.world.service with disk := disk } } } := by
  refine ⟨h.world.of_sameDirs rfl hs, h.accepted, h.placed, h.linked, h.zombies, h.reaped, h.held,
    h.announced, fun id e hl => ?_⟩
  obtain ⟨hreads, body, haccepted, hfile⟩ := h.recorded id e hl
  refine ⟨hreads, body, haccepted, fun request job hparse hjob => ?_⟩
  have hsame := (hs s.world.service.scheduler.db.m_jobs_finished_dir (by simp)).2
  rw [finishedOf]
  dsimp only
  rw [hsame]
  exact hfile request job hparse hjob

/-- A test runner gets to its end, or it is failed. -/
theorem Sane.exit {s : System} (h : Sane L cwd root s) (hroot : 0 ∉ root)
    {pid jobId : Int} {e : Execution}
    (hl : s.children.lookup pid = some ⟨.testRunner jobId, false⟩)
    (he : Clocked L e) {world : World}
    (hs : ServiceRuns.step L cwd s.world (.runner jobId e .stored) = some world) :
    Sane L cwd root { s with
      world := world
      children := s.children.insert pid ⟨.testRunner jobId, true⟩
      executed := s.executed.insert jobId e } := by
  have hsane := h.write hroot hl he hs
  refine hsane.ended hl rfl rfl rfl rfl ?_ ?_
  · intro id
    simp only [System.Over, AList.mem_insert]
    tauto
  · intro id e' hl'
    cases lookup_insert_eq_some.mp hl' with
    | inr hold => exact hsane.recorded id e' hold.2
    | inl heq =>
      obtain ⟨rfl, rfl⟩ := heq
      obtain ⟨hjob, rfl⟩ := step_runner hs
      obtain ⟨body, haccepted⟩ := Option.isSome_iff_exists.mp (AList.lookup_isSome.mpr hjob)
      refine ⟨he, body, haccepted, ?_⟩
      intro request job hparse hjobOf
      exact h.world.finishedOf_stored hroot haccepted hparse hjobOf _

theorem Sane.fail {s : System} (h : Sane L cwd root s) {pid jobId : Int}
    (hl : s.children.lookup pid = some ⟨.testRunner jobId, false⟩) :
    Sane L cwd root { s with
      children := s.children.insert pid ⟨.testRunner jobId, true⟩
      failed := jobId :: s.failed } := by
  refine h.ended hl rfl rfl rfl rfl ?_ h.recorded
  intro id
  simp only [System.Over, List.mem_cons]
  tauto

variable (L cwd) in
/-- What a step can do. -/
inductive Stepped (s : System) : Action → System → Prop where
  | request {env : Env} {req : HttpRequest} {world : World} (hfork : Forkable cwd s env req)
      (hs : ServiceRuns.step L cwd s.world (.request env req) = some world) :
      Stepped s (.request env req) { s with
        world := world
        children := addRunner s.children (startedBy cwd s.world.service env req) }
  | write {pid jobId : Int} {e : Execution} {w : Storing} {world : World}
      (hl : s.children.lookup pid = some ⟨.testRunner jobId, false⟩)
      (hs : ServiceRuns.step L cwd s.world (.runner jobId e w) = some world) :
      Stepped s (.write pid e w) { s with world := world }
  | exit {pid jobId : Int} {e : Execution} {world : World}
      (hl : s.children.lookup pid = some ⟨.testRunner jobId, false⟩)
      (hs : ServiceRuns.step L cwd s.world (.runner jobId e .stored) = some world) :
      Stepped s (.exit pid e) { s with
        world := world
        children := s.children.insert pid ⟨.testRunner jobId, true⟩
        executed := s.executed.insert jobId e }
  | fail {pid jobId : Int} (hl : s.children.lookup pid = some ⟨.testRunner jobId, false⟩) :
      Stepped s (.fail pid) { s with
        children := s.children.insert pid ⟨.testRunner jobId, true⟩
        failed := jobId :: s.failed }
  | wait {pid : Int} (hheld : s.held = none)
      (hl : ∀ program, s.children.lookup pid ≠ some ⟨program, false⟩) :
      Stepped s (.wait pid) { s with children := s.children.erase pid, held := some pid }
  | jobFinished {pid fork : Int} {f : Finished} {world : World} (hheld : s.held = some pid)
      (hfork : ForkFree s.children (s.world.service.scheduler.release pid) fork)
      (hf : s.world.service.scheduler.jobFinished pid fork = .ok f)
      (hs : ServiceRuns.step L cwd s.world (.jobFinished pid fork) = some world) :
      Stepped s (.jobFinished fork) { s with
        world := world
        children := addRunner s.children f.started
        held := none
        announced := s.announced ++ f.announced.toList }

theorem runner_of_match {α : Type} {child : Option Child} {f : Int → Option α} {a : α}
    (h : (match child with
      | some ⟨.testRunner jobId, false⟩ => f jobId
      | _ => none) = some a) :
    ∃ jobId, child = some ⟨.testRunner jobId, false⟩ ∧ f jobId = some a := by
  split at h
  · exact ⟨_, rfl, h⟩
  · cases h

theorem step_stepped {s s' : System} {a : Action} (hs : step L cwd s a = some s') :
    Stepped L cwd s a s' := by
  cases a with
  | request env req =>
    by_cases hfork : Forkable cwd s env req
    · rw [step, if_pos hfork] at hs
      obtain ⟨world, hstep, rfl⟩ := Option.map_eq_some_iff.mp hs
      exact .request hfork hstep
    · rw [step, if_neg hfork] at hs
      cases hs
  | write pid e w =>
    obtain ⟨jobId, hl, hs⟩ := runner_of_match hs
    obtain ⟨world, hstep, rfl⟩ := Option.map_eq_some_iff.mp hs
    exact .write hl hstep
  | exit pid e =>
    obtain ⟨jobId, hl, hs⟩ := runner_of_match hs
    obtain ⟨world, hstep, rfl⟩ := Option.map_eq_some_iff.mp hs
    exact .exit hl hstep
  | fail pid =>
    obtain ⟨jobId, hl, hs⟩ := runner_of_match hs
    obtain rfl := Option.some.inj hs
    exact .fail hl
  | wait pid =>
    cases hheld : s.held with
    | some p => simp [step, hheld] at hs
    | none =>
      cases hl : s.children.lookup pid with
      | none =>
        simp only [step, hheld, hl, Option.some.injEq] at hs
        exact hs ▸ .wait hheld (by simp [hl])
      | some c =>
        obtain ⟨program, exited⟩ := c
        cases exited with
        | false => simp [step, hheld, hl] at hs
        | true =>
          simp only [step, hheld, hl, Option.some.injEq] at hs
          exact hs ▸ .wait hheld (by simp [hl])
  | jobFinished fork =>
    cases hheld : s.held with
    | none => simp [step, hheld] at hs
    | some pid =>
      by_cases hfork : ForkFree s.children (s.world.service.scheduler.release pid) fork
      · cases hf : s.world.service.scheduler.jobFinished pid fork with
        | error e => simp [step, hheld, hf] at hs
        | ok f =>
          simp only [step, hheld, hf, if_pos hfork] at hs
          obtain ⟨world, hstep, rfl⟩ := Option.map_eq_some_iff.mp hs
          exact .jobFinished hheld hfork hf hstep
      · simp [step, hheld, hfork] at hs

theorem Sane.step {s s' : System} {a : Action} (h : Sane L cwd root s) (hroot : 0 ∉ root)
    (hcareful : Careful L cwd s a)
    (hs : step L cwd s a = some s') : Sane L cwd root s' := by
  cases step_stepped hs with
  | @request env req world hfork hstep =>
    by_cases hjobs : ∃ body, req = .postJobs body
    · obtain ⟨body, rfl⟩ := hjobs
      exact h.postJobs hroot hcareful hfork hstep
    · exact h.request hroot (fun body heq => hjobs ⟨body, heq⟩) hcareful.1 hstep
  | write hl hstep => exact h.write hroot hl hcareful hstep
  | exit hl hstep => exact h.exit hroot hl hcareful hstep
  | fail hl => exact h.fail hl
  | wait hheld hl => exact h.wait hheld hl
  | jobFinished hheld hfork hf hstep => exact h.jobFinished hroot hheld hfork hf hstep

/-- Along careful runs from a service without jobs. -/
theorem Fresh.run {s s' : System} (h : Fresh cwd root s) (hroot : 0 ∉ root)
    {as : List Action}
    (hcareful : Meets (AnnouncedResults.step L cwd) (Careful L cwd) s as)
    (hrun : run (AnnouncedResults.step L cwd) s as = some s') :
    Sane L cwd root s' :=
  run_invariant_of_meets (fun _ _ _ h hc hs => Sane.step h hroot hc hs) h.sane hcareful hrun

/-! ### Announcements -/

def freshSystem : System := { world := freshWorld }

/-- A job is posted, its test runner stores its result and ends, and the signal thread
reports it. -/
def announcedRun : List Action :=
  [.request sampleEnv (.postJobs sampleRequestText), .write 11 sampleExecution (.cut 7),
    .exit 11 sampleExecution, .wait 11, .jobFinished 12]

theorem fresh_system : Fresh [] (text "/opt") freshSystem :=
  ⟨fresh_sample, rfl, rfl, rfl, rfl, rfl, rfl⟩

theorem careful_announcedRun :
    Meets (step sampleLibrary []) (Careful sampleLibrary []) freshSystem announcedRun := by
  refine ⟨⟨careful_posted.1, ?_⟩, fun _ _ => ⟨clocked_sample, fun _ _ => ⟨clocked_sample,
    fun _ _ => ⟨trivial, fun _ _ => ⟨trivial, fun _ _ => trivial⟩⟩⟩⟩⟩
  intro r _ hheld
  cases hheld

end OpcUaTestTool.AnnouncedResults
