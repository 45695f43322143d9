import OpcUaTestTool.ServiceProcesses

/-! Between `wait` and `jobFinished` a reaped pid is free for the kernel and still a key of
`activeJobs`. Where no job is started under the pid held in that window, `fork` never returns an
active pid and every announced job's own runner has exited. -/
namespace OpcUaTestTool.PidReuse
open FiniteMap Numerals Directory Store JobScheduler ServiceProcesses Transition

/-- No job is started under the pid that the signal thread has reaped and not yet reported. -/
def NoReuse (s : Service) : Action → Prop
  | .create json w fork =>
    (s.scheduler.enqueue s.tree json w).Forks → s.signalThread ≠ .jobFinished fork
  | _ => True

instance : ∀ (s : Service) (a : Action), Decidable (NoReuse s a)
  | _, .create _ _ _ => inferInstanceAs (Decidable (_ → _))
  | _, .exit _ => isTrue trivial
  | _, .sigwait => isTrue trivial
  | _, .wait _ => isTrue trivial
  | _, .jobFinished _ => isTrue trivial
  | _, .system _ => isTrue trivial
  | _, .waitpid _ => isTrue trivial

def ReportFresh (s : Scheduler) (fork : Int) : SignalThread → Prop
  | .jobFinished pid => (s.release pid).Forks → fork ∉ (s.release pid).activeJobs
  | _ => True

instance (s : Scheduler) (fork : Int) : ∀ t : SignalThread, Decidable (ReportFresh s fork t)
  | .sigwait => isTrue trivial
  | .wait => isTrue trivial
  | .jobFinished _ => inferInstanceAs (Decidable (_ → _))

/-- The `fork` of a step, if `schedule` reaches it, returns no key of `activeJobs`. -/
def ForkFresh (s : Service) : Action → Prop
  | .create json w fork =>
    (s.scheduler.enqueue s.tree json w).Forks → fork ∉ s.scheduler.activeJobs
  | .jobFinished fork => ReportFresh s.scheduler fork s.signalThread
  | _ => True

instance : ∀ (s : Service) (a : Action), Decidable (ForkFresh s a)
  | _, .create _ _ _ => inferInstanceAs (Decidable (_ → _))
  | s, .jobFinished fork => inferInstanceAs (Decidable (ReportFresh s.scheduler fork _))
  | _, .exit _ => isTrue trivial
  | _, .sigwait => isTrue trivial
  | _, .wait _ => isTrue trivial
  | _, .system _ => isTrue trivial
  | _, .waitpid _ => isTrue trivial

structure Sound (s : Service) : Prop where
  linked : s.Linked
  zombie : ∀ pid jobId, s.children.lookup pid = some ⟨.testRunner jobId, true⟩ →
    jobId ∈ s.runnersExited
  held : ∀ pid jobId, s.signalThread = .jobFinished pid →
    s.scheduler.activeJobs.lookup pid = some jobId → jobId ∈ s.runnersExited
  announced : ∀ e ∈ s.announced, ∃ jobId ∈ s.runnersExited, e = jobFinishedEvent jobId

theorem sound_init (workingDir : Bytes) (db : DataBase) (tree : Tree) (replPid : Int)
    (sigchld : Bool) : Sound (init workingDir db tree replPid sigchld) := by
  constructor
  · exact linked_init workingDir db tree replPid sigchld
  · intro pid jobId hl
    have hmem := mem_values_of_lookup hl
    simp [init, values] at hmem
  · intro pid jobId ht
    simp [init] at ht
  · intro e he
    simp [init] at he

theorem not_active_of_free {held : Option Int} {active : Map Int Int} {children : Map Int Child}
    (h : Linked held active children) {fork : Int} (hheld : held ≠ some fork)
    (hfree : fork ∉ children) : fork ∉ active := by
  intro hmem
  obtain ⟨jobId, hl⟩ := Option.isSome_iff_exists.mp (AList.lookup_isSome.mpr hmem)
  cases h fork jobId hl with
  | inl hh => exact hheld hh
  | inr hcase =>
    obtain ⟨b, hb⟩ := hcase
    rw [AList.lookup_eq_none.mpr hfree] at hb
    simp at hb

theorem forkFresh_of_sound {s s' : Service} {a : Action} (h : Sound s) (hc : NoReuse s a)
    (hs : step s a = some s') : ForkFresh s a := by
  cases a with
  | create json w fork =>
    obtain ⟨hf, _⟩ := step_create hs
    intro hforks
    apply not_active_of_free h.linked _ (hf hforks).2
    intro hheld
    have hne := hc hforks
    cases ht : s.signalThread with
    | sigwait => simp [ht, SignalThread.held] at hheld
    | wait => simp [ht, SignalThread.held] at hheld
    | jobFinished pid =>
      simp only [ht, SignalThread.held, Option.some.injEq] at hheld
      exact hne (by rw [ht, hheld])
  | jobFinished fork =>
    obtain ⟨pid, ht, hf, _⟩ := step_jobFinished hs
    simp only [ForkFresh, ht]
    intro hforks
    have hl : Linked (some pid) s.scheduler.activeJobs s.children := by
      simpa [Service.Linked, ht, SignalThread.held] using h.linked
    exact not_active_of_free hl.release (by simp) (hf hforks).2
  | _ => trivial

section Zombies
variable {children : Map Int Child} {exited : List Int}
  (h : ∀ pid jobId, children.lookup pid = some ⟨.testRunner jobId, true⟩ → jobId ∈ exited)
include h

/-- A new child is no zombie. -/
theorem zombie_fork (pid : Int) (program : Program) :
    ∀ pid' jobId, (children.insert pid ⟨program, false⟩).lookup pid' =
      some ⟨.testRunner jobId, true⟩ → jobId ∈ exited := by
  intro pid' jobId hl
  cases lookup_insert_eq_some.mp hl with
  | inl hcase =>
    obtain ⟨_, hl⟩ := hcase
    simp at hl
  | inr hcase => exact h pid' jobId hcase.2

theorem zombie_exit (pid : Int) (program : Program) :
    ∀ pid' jobId, (children.insert pid ⟨program, true⟩).lookup pid' =
      some ⟨.testRunner jobId, true⟩ → jobId ∈ exited ++ program.jobId.toList := by
  intro pid' jobId hl
  cases lookup_insert_eq_some.mp hl with
  | inl hcase =>
    obtain ⟨_, hl⟩ := hcase
    rw [Child.mk.injEq] at hl
    simp [hl.1, Program.jobId]
  | inr hcase => exact List.mem_append_left _ (h pid' jobId hcase.2)

theorem zombie_erase (pid : Int) :
    ∀ pid' jobId, (children.erase pid).lookup pid' = some ⟨.testRunner jobId, true⟩ →
      jobId ∈ exited :=
  fun pid' jobId hl => h pid' jobId (lookup_erase_eq_some.mp hl).2

/-- A call of `schedule` keeps the facts about zombies. -/
theorem zombie_schedule {s s' : Scheduler} {fork : Int} {started : Option Runner}
    (hf : ForkFree children s fork) (hs : s.schedule fork = .ok (s', started)) :
    ∀ pid jobId, (addRunner children started).lookup pid = some ⟨.testRunner jobId, true⟩ →
      jobId ∈ exited := by
  cases schedule_effect hf hs with
  | inl hcase =>
    rw [hcase.2]
    exact h
  | inr hcase =>
    obtain ⟨_, _, jobId, _, hc⟩ := hcase
    rw [hc]
    exact zombie_fork h fork _

end Zombies

theorem sound_create {s s' : Service} {json : Bytes} {w : Storing} {fork : Int} (h : Sound s)
    (hc : NoReuse s (.create json w fork)) (hs : step s (.create json w fork) = some s') :
    Sound s' := by
  have hlinked := h.linked.step hs
  obtain ⟨hf, c, hcr, rfl⟩ := step_create hs
  obtain ⟨_, _, hsch⟩ := create_spec hcr
  refine ⟨hlinked, zombie_schedule h.zombie hf hsch, ?_, h.announced⟩
  intro pid jobId ht hl
  cases schedule_effect hf hsch with
  | inl hcase => exact h.held pid jobId ht (by rw [← hl, hcase.1]; rfl)
  | inr hcase =>
    obtain ⟨hforks, _, jobId', ha, _⟩ := hcase
    have hp : pid ≠ fork := by
      intro hp
      exact hc hforks (by rw [← hp]; exact ht)
    rw [ha, lookup_insert_ne hp] at hl
    exact h.held pid jobId ht hl

theorem sound_exit {s s' : Service} {pid : Int} (h : Sound s)
    (hs : step s (.exit pid) = some s') : Sound s' := by
  have hlinked := h.linked.step hs
  obtain ⟨program, _, rfl⟩ := step_exit hs
  refine ⟨hlinked, zombie_exit h.zombie pid program, ?_, ?_⟩
  · intro pid' jobId ht hl
    exact List.mem_append_left _ (h.held pid' jobId ht hl)
  · intro e he
    obtain ⟨jobId, hj, rfl⟩ := h.announced e he
    exact ⟨jobId, List.mem_append_left _ hj, rfl⟩

/-- The runner of an active job is a child as long as its pid is not held. -/
theorem Sound.runner {s : Service} (h : Sound s) (ht : s.signalThread = .wait) {pid jobId : Int}
    (hl : s.scheduler.activeJobs.lookup pid = some jobId) :
    ∃ b, s.children.lookup pid = some ⟨.testRunner jobId, b⟩ := by
  cases h.linked pid jobId hl with
  | inl hh => simp [ht, SignalThread.held] at hh
  | inr hcase => exact hcase

theorem sound_wait {s s' : Service} {pid : Int} (h : Sound s)
    (hs : step s (.wait pid) = some s') : Sound s' := by
  have hlinked := h.linked.step hs
  obtain ⟨ht, ⟨program, hl, rfl⟩ | ⟨hn, _, rfl⟩⟩ := step_wait hs
  · refine ⟨hlinked, zombie_erase h.zombie pid, ?_, h.announced⟩
    intro pid' jobId ht' hl'
    obtain rfl : pid = pid' := SignalThread.jobFinished.inj ht'
    obtain ⟨b, hb⟩ := h.runner ht hl'
    rw [hl, Option.some.injEq, Child.mk.injEq] at hb
    exact h.zombie pid jobId (by rw [hl, hb.1])
  · refine ⟨hlinked, h.zombie, ?_, h.announced⟩
    intro pid' jobId _ hl'
    obtain ⟨b, hb⟩ := h.runner ht hl'
    have hmem := mem_values_of_lookup hb
    rw [List.length_eq_zero_iff.mp ((length_values s.children).trans hn)] at hmem
    simp at hmem

theorem sound_jobFinished {s s' : Service} {fork : Int} (h : Sound s)
    (hs : step s (.jobFinished fork) = some s') : Sound s' := by
  have hlinked := h.linked.step hs
  obtain ⟨pid, ht, hf, f, hfin, rfl⟩ := step_jobFinished hs
  have hsch := jobFinished_schedule hfin
  refine ⟨hlinked, zombie_schedule h.zombie hf hsch, fun _ _ ht' => by simp at ht', ?_⟩
  intro e he
  cases List.mem_append.mp he with
  | inl he => exact h.announced e he
  | inr he =>
    rw [jobFinished_announced hfin, Option.mem_toList,
      Option.ite_none_right_eq_some, Option.map_eq_some_iff] at he
    obtain ⟨_, jobId, hl, rfl⟩ := he
    exact ⟨jobId, h.held pid jobId ht hl, rfl⟩

theorem sound_step {s s' : Service} {a : Action} (h : Sound s) (hc : NoReuse s a)
    (hs : step s a = some s') : Sound s' := by
  cases a with
  | create json w fork => exact sound_create h hc hs
  | exit pid => exact sound_exit h hs
  | sigwait =>
    have hlinked := h.linked.step hs
    obtain ⟨_, _, rfl⟩ := step_sigwait hs
    exact ⟨hlinked, h.zombie, fun pid jobId ht => by simp at ht, h.announced⟩
  | wait pid => exact sound_wait h hs
  | jobFinished fork => exact sound_jobFinished h hs
  | system pid =>
    have hlinked := h.linked.step hs
    obtain ⟨_, rfl⟩ := step_system hs
    exact ⟨hlinked, zombie_fork h.zombie pid .shell, h.held, h.announced⟩
  | waitpid pid =>
    have hlinked := h.linked.step hs
    obtain ⟨_, rfl⟩ := step_waitpid hs
    exact ⟨hlinked, zombie_erase h.zombie pid, h.held, h.announced⟩

/-- Where no job is started under a pid that is still held, no fork returns an active pid, and
every event announced so far names a job whose own runner has exited. -/
theorem announced_runners_exited (workingDir : Bytes) (db : DataBase) (tree : Tree)
    (replPid : Int) (sigchld : Bool) (as : List Action) (s : Service)
    (hrun : run step (init workingDir db tree replPid sigchld) as = some s)
    (hcond : Meets step NoReuse (init workingDir db tree replPid sigchld) as) :
    Meets step ForkFresh (init workingDir db tree replPid sigchld) as ∧
    (∀ e ∈ s.announced, ∃ jobId ∈ s.runnersExited, e = jobFinishedEvent jobId) := by
  have hinit := sound_init workingDir db tree replPid sigchld
  constructor
  · exact meets_of_meets (fun _ _ _ h hc hs => sound_step h hc hs)
      (fun _ _ _ h hc hs => forkFresh_of_sound h hc hs) hinit hcond hrun
  · exact (run_invariant_of_meets (fun _ _ _ h hc hs => sound_step h hc hs) hinit hcond
      hrun).announced

/- The second job gets the pid of the first one after that has been reported. -/
def lateReuse : List Action :=
  [.create [] .stored 11, .exit 11, .sigwait, .wait 11, .jobFinished 12, .create [] .stored 11,
    .exit 11, .sigwait, .wait 11, .jobFinished 12]

theorem announced_runners_exited_sample : ∃ s, run step sampleService lateReuse = some s ∧
    s.announced = [jobFinishedEvent 0, jobFinishedEvent 1] ∧
    (∀ e ∈ s.announced, ∃ jobId ∈ s.runnersExited, e = jobFinishedEvent jobId) :=
  ⟨_, rfl, rfl, (announced_runners_exited (text "/opt") emptyStore.1 emptyStore.2 10 false
    lateReuse _ rfl (by decide)).2⟩

/- The second job gets it between `wait` and `jobFinished`. -/
def earlyReuse : List Action :=
  [.create [] .stored 11, .exit 11, .sigwait, .wait 11, .create [] .stored 11, .jobFinished 12]

/-- The entry of job 0 is overwritten, and job 1 is announced while its runner runs. -/
theorem reused_pid_announces_running_job :
    ¬ Meets step ForkFresh sampleService earlyReuse ∧
    ∃ s, run step sampleService earlyReuse = some s ∧ s.announced = [jobFinishedEvent 1] ∧
      s.runnersExited = [0] ∧ s.children.lookup 11 = some ⟨.testRunner 1, false⟩ := by
  refine ⟨?_, _, rfl, rfl, rfl, rfl⟩
  decide

end OpcUaTestTool.PidReuse
