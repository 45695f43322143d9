import OpcUaTestTool.JobScheduler
import OpcUaTestTool.Transition

/-! The service with its children: HTTP threads that create jobs, children that exit at any time,
and the signal thread with its loop `sigwait`, `wait(nullptr)`, `jobFinished(pid)`. The scheduler
mutex makes `create` and `jobFinished` single steps; `wait` is outside of it. -/
namespace OpcUaTestTool.ServiceProcesses
open FiniteMap Numerals Directory Store JobScheduler

inductive Program where
  | repl
  | shell
  | testRunner (jobId : Int)
  deriving DecidableEq

/- A child that has exited stays a zombie until it is reaped. -/
structure Child where
  program : Program
  exited : Bool
  deriving DecidableEq

/-- Where the signal thread stands: before one of its three calls. -/
inductive SignalThread where
  | sigwait
  | wait
  | jobFinished (pid : Int)
  deriving DecidableEq

/- `children` has the pids that the kernel will not hand out again. `sigchld` is the pending bit of
the one standard signal. `runnersExited` and `announced` are history. -/
structure Service where
  scheduler : Scheduler
  tree : Tree
  children : Map Int Child
  sigchld : Bool := false
  signalThread : SignalThread := .sigwait
  runnersExited : List Int := []
  announced : List Event := []

/-- The service after its constructors: the REPL has been forked, and the shell of the first clone
has left `SIGCHLD` pending or not. -/
def init (workingDir : Bytes) (db : DataBase) (tree : Tree) (replPid : Int) (sigchld : Bool) :
    Service :=
  { scheduler := { m_workingDir := workingDir, db := db, m_fJobFinished := true }
    tree := tree
    children := AList.singleton replPid ⟨.repl, false⟩
    sigchld := sigchld }

/- The service in an empty root directory, with a REPL of pid 10, for the sample runs. -/
def sampleService : Service := init (text "/opt") emptyStore.1 emptyStore.2 10 false

inductive Action where
  /-- An HTTP thread posts a job. -/
  | create (json : Bytes) (w : Storing) (fork : Int)
  /-- A child terminates. -/
  | exit (pid : Int)
  | sigwait
  /-- `wait(nullptr)` returns the pid of a zombie, or -1 when there is no child at all. -/
  | wait (pid : Int)
  | jobFinished (fork : Int)
  /-- `cloneScriptRepo`: `system` starts its shell. -/
  | system (pid : Int)
  /-- `system`, as it is documented: it reaps its own shell, unless `wait(nullptr)` was first, and
  no other process, even one that has got the pid of the shell since. -/
  | waitpid (pid : Int)

/-- The kernel does not hand out the pid of a process that has not been reaped. -/
def ForkFree (children : Map Int Child) (s : Scheduler) (fork : Int) : Prop :=
  s.Forks → 0 < fork ∧ fork ∉ children

instance (children : Map Int Child) (s : Scheduler) (fork : Int) :
    Decidable (ForkFree children s fork) := inferInstanceAs (Decidable (_ → _))

def addRunner (children : Map Int Child) : Option Runner → Map Int Child
  | none => children
  | some r => children.insert r.pid ⟨.testRunner r.jobId, false⟩

def Program.jobId : Program → Option Int
  | .testRunner jobId => some jobId
  | _ => none

def step (s : Service) : Action → Option Service
  | .create json w fork =>
    if ForkFree s.children (s.scheduler.enqueue s.tree json w) fork then
      match s.scheduler.create s.tree json w fork with
      | .error _ => none
      | .ok c => some
        { s with
          scheduler := c.scheduler
          tree := c.tree
          children := addRunner s.children c.started }
    else none
  | .exit pid =>
    match s.children.lookup pid with
    | some ⟨program, false⟩ => some
      { s with
        children := s.children.insert pid ⟨program, true⟩
        sigchld := true
        runnersExited := s.runnersExited ++ program.jobId.toList }
    | _ => none
  | .sigwait =>
    if s.signalThread = .sigwait ∧ s.sigchld then
      some { s with sigchld := false, signalThread := .wait }
    else none
  | .wait pid =>
    if s.signalThread = .wait then
      match s.children.lookup pid with
      | some ⟨_, true⟩ => some
        { s with children := s.children.erase pid, signalThread := .jobFinished pid }
      | some ⟨_, false⟩ => none
      | none =>
        if size s.children = 0 ∧ pid = -1 then some { s with signalThread := .jobFinished pid }
        else none
    else none
  | .jobFinished fork =>
    match s.signalThread with
    | .jobFinished pid =>
      if ForkFree s.children (s.scheduler.release pid) fork then
        match s.scheduler.jobFinished pid fork with
        | .error _ => none
        | .ok f => some
          { s with
            scheduler := f.scheduler
            children := addRunner s.children f.started
            signalThread := .sigwait
            announced := s.announced ++ f.announced.toList }
      else none
    | _ => none
  | .system pid =>
    if 0 < pid ∧ pid ∉ s.children then
      some { s with children := s.children.insert pid ⟨.shell, false⟩ }
    else none
  | .waitpid pid =>
    match s.children.lookup pid with
    | some ⟨.shell, true⟩ => some { s with children := s.children.erase pid }
    | _ => none

theorem step_create {s s' : Service} {json : Bytes} {w : Storing} {fork : Int}
    (hs : step s (.create json w fork) = some s') :
    ForkFree s.children (s.scheduler.enqueue s.tree json w) fork ∧
      ∃ c, s.scheduler.create s.tree json w fork = .ok c ∧
        s' = { s with
          scheduler := c.scheduler
          tree := c.tree
          children := addRunner s.children c.started } := by
  simp only [step] at hs
  by_cases hf : ForkFree s.children (s.scheduler.enqueue s.tree json w) fork
  · simp only [if_pos hf] at hs
    cases hc : s.scheduler.create s.tree json w fork with
    | error e => simp [hc] at hs
    | ok c =>
      simp only [hc, Option.some.injEq] at hs
      exact ⟨hf, c, rfl, hs.symm⟩
  · simp [hf] at hs

theorem step_exit {s s' : Service} {pid : Int} (hs : step s (.exit pid) = some s') :
    ∃ program, s.children.lookup pid = some ⟨program, false⟩ ∧
      s' = { s with
        children := s.children.insert pid ⟨program, true⟩
        sigchld := true
        runnersExited := s.runnersExited ++ program.jobId.toList } := by
  simp only [step] at hs
  split at hs
  · rename_i program hl
    simp only [Option.some.injEq] at hs
    exact ⟨program, hl, hs.symm⟩
  · simp at hs

theorem step_sigwait {s s' : Service} (hs : step s .sigwait = some s') :
    s.signalThread = .sigwait ∧ s.sigchld = true ∧
      s' = { s with sigchld := false, signalThread := .wait } := by
  simp only [step] at hs
  by_cases h : s.signalThread = .sigwait ∧ s.sigchld
  · simp only [if_pos h, Option.some.injEq] at hs
    exact ⟨h.1, h.2, hs.symm⟩
  · simp [h] at hs

theorem step_wait {s s' : Service} {pid : Int} (hs : step s (.wait pid) = some s') :
    s.signalThread = .wait ∧
      ((∃ program, s.children.lookup pid = some ⟨program, true⟩ ∧
        s' = { s with children := s.children.erase pid, signalThread := .jobFinished pid }) ∨
      (size s.children = 0 ∧ pid = -1 ∧ s' = { s with signalThread := .jobFinished pid })) := by
  simp only [step] at hs
  by_cases h : s.signalThread = .wait
  · simp only [if_pos h] at hs
    refine ⟨h, ?_⟩
    split at hs
    · rename_i program hl
      simp only [Option.some.injEq] at hs
      exact Or.inl ⟨program, hl, hs.symm⟩
    · simp at hs
    · by_cases hn : size s.children = 0 ∧ pid = -1
      · simp only [if_pos hn, Option.some.injEq] at hs
        exact Or.inr ⟨hn.1, hn.2, hs.symm⟩
      · simp [hn] at hs
  · simp [h] at hs

theorem step_jobFinished {s s' : Service} {fork : Int}
    (hs : step s (.jobFinished fork) = some s') :
    ∃ pid, s.signalThread = .jobFinished pid ∧
      ForkFree s.children (s.scheduler.release pid) fork ∧
      ∃ f, s.scheduler.jobFinished pid fork = .ok f ∧
        s' = { s with
          scheduler := f.scheduler
          children := addRunner s.children f.started
          signalThread := .sigwait
          announced := s.announced ++ f.announced.toList } := by
  simp only [step] at hs
  cases ht : s.signalThread with
  | sigwait => simp [ht] at hs
  | wait => simp [ht] at hs
  | jobFinished pid =>
    simp only [ht] at hs
    by_cases hf : ForkFree s.children (s.scheduler.release pid) fork
    · simp only [if_pos hf] at hs
      cases hc : s.scheduler.jobFinished pid fork with
      | error e => simp [hc] at hs
      | ok f =>
        simp only [hc, Option.some.injEq] at hs
        exact ⟨pid, rfl, hf, f, hc, hs.symm⟩
    · simp [hf] at hs

theorem step_system {s s' : Service} {pid : Int} (hs : step s (.system pid) = some s') :
    pid ∉ s.children ∧ s' = { s with children := s.children.insert pid ⟨.shell, false⟩ } := by
  simp only [step] at hs
  by_cases h : 0 < pid ∧ pid ∉ s.children
  · simp only [if_pos h, Option.some.injEq] at hs
    exact ⟨h.2, hs.symm⟩
  · simp [h] at hs

theorem step_waitpid {s s' : Service} {pid : Int} (hs : step s (.waitpid pid) = some s') :
    s.children.lookup pid = some ⟨.shell, true⟩ ∧
      s' = { s with children := s.children.erase pid } := by
  simp only [step] at hs
  split at hs
  · rename_i hl
    simp only [Option.some.injEq] at hs
    exact ⟨hl, hs.symm⟩
  · simp at hs

/-- What a call of `schedule` does to the active jobs and to the children. -/
theorem schedule_effect {s s' : Scheduler} {fork : Int} {started : Option Runner}
    {children : Map Int Child} (hf : ForkFree children s fork)
    (h : s.schedule fork = .ok (s', started)) :
    (s'.activeJobs = s.activeJobs ∧ addRunner children started = children) ∨
    (s.Forks ∧ fork ∉ children ∧ ∃ jobId, s'.activeJobs = s.activeJobs.insert fork jobId ∧
      addRunner children started = children.insert fork ⟨.testRunner jobId, false⟩) := by
  cases schedule_cases h with
  | inl hcase =>
    obtain ⟨_, he, hst⟩ := hcase
    exact Or.inl ⟨by rw [he], by rw [hst]; rfl⟩
  | inr hcase =>
    obtain ⟨hforks, jobId, rest, _, he, hst⟩ := hcase
    exact Or.inr ⟨hforks, (hf hforks).2, jobId, by rw [he], by rw [hst]; rfl⟩

/-- The pid that the signal thread has reaped and not yet reported. -/
def SignalThread.held : SignalThread → Option Int
  | .jobFinished pid => some pid
  | _ => none

/-- Every active job has its runner among the children, or the runner's pid is the one held. -/
def Linked (held : Option Int) (active : Map Int Int) (children : Map Int Child) : Prop :=
  ∀ p j, active.lookup p = some j →
    held = some p ∨ ∃ b, children.lookup p = some ⟨.testRunner j, b⟩

section Linked
variable {held : Option Int} {active : Map Int Int} {children : Map Int Child}

theorem Linked.start (h : Linked held active children) {fork : Int} (jobId : Int)
    (hf : fork ∉ children) :
    Linked held (active.insert fork jobId) (children.insert fork ⟨.testRunner jobId, false⟩) := by
  intro p j hl
  by_cases hp : p = fork
  · subst p
    simp only [AList.lookup_insert, Option.some.injEq] at hl
    exact Or.inr ⟨false, by simp [hl]⟩
  · rw [lookup_insert_ne hp] at hl
    cases h p j hl with
    | inl hh => exact Or.inl hh
    | inr hcase =>
      obtain ⟨b, hb⟩ := hcase
      exact Or.inr ⟨b, lookup_insert_fresh hf hb⟩

theorem Linked.release {pid : Int} (h : Linked (some pid) active children) :
    Linked none (active.erase pid) children := by
  intro p j hl
  have hp : p ≠ pid := by
    intro he
    rw [he, AList.lookup_erase] at hl
    simp at hl
  rw [AList.lookup_erase_ne hp] at hl
  cases h p j hl with
  | inl hh => exact absurd (Option.some.inj hh).symm hp
  | inr hb => exact Or.inr hb

theorem Linked.reap (h : Linked none active children) (pid : Int) :
    Linked (some pid) active (children.erase pid) := by
  intro p j hl
  by_cases hp : p = pid
  · exact Or.inl (by rw [hp])
  · cases h p j hl with
    | inl hh => simp at hh
    | inr hcase =>
      obtain ⟨b, hb⟩ := hcase
      exact Or.inr ⟨b, by rw [AList.lookup_erase_ne hp, hb]⟩

/-- A change to the children that leaves every runner under its pid keeps the link. -/
theorem Linked.of_children (h : Linked held active children) {children' : Map Int Child}
    (hc : ∀ p j b, children.lookup p = some ⟨.testRunner j, b⟩ →
      ∃ b', children'.lookup p = some ⟨.testRunner j, b'⟩) :
    Linked held active children' := by
  intro p j hl
  cases h p j hl with
  | inl hh => exact Or.inl hh
  | inr hrunner =>
    obtain ⟨b, hb⟩ := hrunner
    exact Or.inr (hc p j b hb)

theorem Linked.exit (h : Linked held active children) {pid : Int} {program : Program}
    (hc : children.lookup pid = some ⟨program, false⟩) :
    Linked held active (children.insert pid ⟨program, true⟩) := by
  apply h.of_children
  intro p j b hb
  by_cases hp : p = pid
  · subst p
    rw [hc, Option.some.injEq, Child.mk.injEq] at hb
    exact ⟨true, by simp [hb.1]⟩
  · exact ⟨b, by rw [lookup_insert_ne hp, hb]⟩

theorem Linked.fork (h : Linked held active children) {pid : Int} (c : Child)
    (hf : pid ∉ children) : Linked held active (children.insert pid c) :=
  h.of_children fun _ _ b hb => ⟨b, lookup_insert_fresh hf hb⟩

theorem Linked.waitpid (h : Linked held active children) {pid : Int}
    (hc : children.lookup pid = some ⟨.shell, true⟩) :
    Linked held active (children.erase pid) := by
  apply h.of_children
  intro p j b hb
  have hp : p ≠ pid := by
    intro he
    rw [he, hc] at hb
    simp at hb
  exact ⟨b, by rw [AList.lookup_erase_ne hp, hb]⟩

theorem Linked.schedule {s s' : Scheduler} {fork : Int} {started : Option Runner}
    (h : Linked held s.activeJobs children) (hf : ForkFree children s fork)
    (hs : s.schedule fork = .ok (s', started)) :
    Linked held s'.activeJobs (addRunner children started) := by
  cases schedule_effect hf hs with
  | inl hcase =>
    obtain ⟨ha, hc⟩ := hcase
    rw [ha, hc]
    exact h
  | inr hcase =>
    obtain ⟨_, hfree, jobId, ha, hc⟩ := hcase
    rw [ha, hc]
    exact h.start jobId hfree

end Linked

def Service.Linked (s : Service) : Prop :=
  ServiceProcesses.Linked s.signalThread.held s.scheduler.activeJobs s.children

theorem linked_init (workingDir : Bytes) (db : DataBase) (tree : Tree) (replPid : Int)
    (sigchld : Bool) : (init workingDir db tree replPid sigchld).Linked := by
  intro p j hl
  simp [init] at hl

/-- The link between active jobs and children survives every step, pid reuse included. -/
theorem Service.Linked.step {s s' : Service} {a : Action} (h : s.Linked)
    (hs : ServiceProcesses.step s a = some s') : s'.Linked := by
  cases a with
  | create json w fork =>
    obtain ⟨hf, c, hc, rfl⟩ := step_create hs
    obtain ⟨_, _, hsch⟩ := create_spec hc
    exact ServiceProcesses.Linked.schedule (s := s.scheduler.enqueue s.tree json w) h hf hsch
  | exit pid =>
    obtain ⟨program, hl, rfl⟩ := step_exit hs
    exact ServiceProcesses.Linked.exit h hl
  | sigwait =>
    obtain ⟨ht, _, rfl⟩ := step_sigwait hs
    simpa [Service.Linked, ht, SignalThread.held] using h
  | wait pid =>
    obtain ⟨ht, ⟨program, _, rfl⟩ | ⟨hn, _, rfl⟩⟩ := step_wait hs
    · have h' : ServiceProcesses.Linked none s.scheduler.activeJobs s.children := by
        simpa [Service.Linked, ht, SignalThread.held] using h
      exact h'.reap pid
    · intro p j hl
      cases h p j hl with
      | inl hh => simp [ht, SignalThread.held] at hh
      | inr hcase =>
        obtain ⟨b, hb⟩ := hcase
        exact Or.inr ⟨b, hb⟩
  | jobFinished fork =>
    obtain ⟨pid, ht, hf, f, hc, rfl⟩ := step_jobFinished hs
    have h' : ServiceProcesses.Linked (some pid) s.scheduler.activeJobs s.children := by
      simpa [Service.Linked, ht, SignalThread.held] using h
    have hrel : ServiceProcesses.Linked none (s.scheduler.release pid).activeJobs s.children :=
      h'.release
    exact hrel.schedule hf (jobFinished_schedule hc)
  | system pid =>
    obtain ⟨hf, rfl⟩ := step_system hs
    exact ServiceProcesses.Linked.fork h _ hf
  | waitpid pid =>
    obtain ⟨hl, rfl⟩ := step_waitpid hs
    exact ServiceProcesses.Linked.waitpid h hl

end OpcUaTestTool.ServiceProcesses
