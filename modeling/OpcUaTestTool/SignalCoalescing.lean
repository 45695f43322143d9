import OpcUaTestTool.ServiceProcesses

/-! One `wait` for each consumed `SIGCHLD`. The pending bit does not count, so that two exits
before it is consumed leave a zombie behind, and with it the slot of its job. Where no exit is
merged into a pending signal that is already owed a `wait`, every exited runner is reaped. -/
namespace OpcUaTestTool.SignalCoalescing
open FiniteMap Numerals Directory Store JobScheduler ServiceProcesses Transition

def zombies (children : Map Int Child) : Nat := (values children).countP Child.exited

/-- The calls of `wait` that are already bound to happen. -/
def waitsDue (s : Service) : Nat :=
  (if s.sigchld then 1 else 0) + (if s.signalThread = .wait then 1 else 0)

/-- No child exits while an earlier zombie still depends on the pending bit: at each exit there
are no more zombies than the call of `wait` under way will reap. -/
def NoCoalescing (s : Service) : Action → Prop
  | .exit _ => zombies s.children ≤ if s.signalThread = .wait then 1 else 0
  | _ => True

instance : ∀ (s : Service) (a : Action), Decidable (NoCoalescing s a)
  | s, .exit _ =>
    inferInstanceAs (Decidable (zombies s.children ≤ if s.signalThread = .wait then 1 else 0))
  | _, .create _ _ _ => isTrue trivial
  | _, .sigwait => isTrue trivial
  | _, .wait _ => isTrue trivial
  | _, .jobFinished _ => isTrue trivial
  | _, .system _ => isTrue trivial
  | _, .waitpid _ => isTrue trivial

theorem zombies_insert {children : Map Int Child} {pid : Int} (program : Program)
    (h : pid ∉ children) : zombies (children.insert pid ⟨program, false⟩) = zombies children := by
  simp [zombies, values_insert _ h]

theorem zombies_exit {children : Map Int Child} {pid : Int} {program : Program}
    (h : children.lookup pid = some ⟨program, false⟩) :
    zombies (children.insert pid ⟨program, true⟩) = zombies children + 1 := by
  have hp := (values_erase h).countP_eq Child.exited
  simp only [zombies, values_update, List.countP_cons] at *
  simpa using hp.symm

theorem zombies_erase {children : Map Int Child} {pid : Int} {program : Program}
    (h : children.lookup pid = some ⟨program, true⟩) :
    zombies children = zombies (children.erase pid) + 1 := by
  have hp := (values_erase h).countP_eq Child.exited
  simpa [zombies, List.countP_cons] using hp

theorem zombies_of_no_children {children : Map Int Child} (h : size children = 0) :
    zombies children = 0 := by
  have hv : (values children).length = 0 := by rw [length_values, h]
  simp [zombies, List.length_eq_zero_iff.mp hv]

theorem zombies_schedule {s s' : Scheduler} {fork : Int} {started : Option Runner}
    {children : Map Int Child} (hf : ForkFree children s fork)
    (h : s.schedule fork = .ok (s', started)) :
    zombies (addRunner children started) = zombies children := by
  cases schedule_effect hf h with
  | inl hcase =>
    obtain ⟨_, hc⟩ := hcase
    rw [hc]
  | inr hcase =>
    obtain ⟨_, hfree, jobId, _, hc⟩ := hcase
    rw [hc, zombies_insert _ hfree]

/-- Every zombie has a call of `wait` to come. -/
def Covered (s : Service) : Prop := zombies s.children ≤ waitsDue s

theorem covered_step {s s' : Service} {a : Action} (h : Covered s) (hc : NoCoalescing s a)
    (hs : step s a = some s') : Covered s' := by
  unfold Covered waitsDue at *
  cases a with
  | create json w fork =>
    obtain ⟨hf, c, hcr, rfl⟩ := step_create hs
    obtain ⟨_, _, hsch⟩ := create_spec hcr
    simpa [zombies_schedule hf hsch] using h
  | exit pid =>
    obtain ⟨program, hl, rfl⟩ := step_exit hs
    have hz := zombies_exit hl
    simp only [NoCoalescing] at hc
    simp only [hz, if_true]
    omega
  | sigwait =>
    obtain ⟨ht, hp, rfl⟩ := step_sigwait hs
    simpa [ht, hp] using h
  | wait pid =>
    obtain ⟨ht, ⟨program, hl, rfl⟩ | ⟨hn, _, rfl⟩⟩ := step_wait hs
    · have hz := zombies_erase hl
      simp only [ht, if_true, reduceCtorEq, if_false] at *
      omega
    · simp [zombies_of_no_children hn]
  | jobFinished fork =>
    obtain ⟨pid, ht, hf, f, hfin, rfl⟩ := step_jobFinished hs
    simp only [ht, reduceCtorEq, if_false] at *
    rwa [zombies_schedule hf (jobFinished_schedule hfin)]
  | system pid =>
    obtain ⟨hf, rfl⟩ := step_system hs
    simpa [zombies_insert _ hf] using h
  | waitpid pid =>
    obtain ⟨hl, rfl⟩ := step_waitpid hs
    have hz := zombies_erase hl
    simp only at *
    omega

theorem covered_init (workingDir : Bytes) (db : DataBase) (tree : Tree) (replPid : Int)
    (sigchld : Bool) : Covered (init workingDir db tree replPid sigchld) := by
  simp [Covered, init, zombies, values]

theorem running_of_no_zombies {children : Map Int Child} (h : zombies children = 0) {pid : Int}
    {c : Child} (hl : children.lookup pid = some c) : c.exited = false := by
  have hall := List.countP_eq_zero.mp h c (mem_values_of_lookup hl)
  simpa using hall

/-- Where no exits are merged, a signal thread that waits for a signal leaves no exited runner:
every active job has a running test runner, and no child is a zombie. -/
theorem exited_runners_reaped (workingDir : Bytes) (db : DataBase) (tree : Tree) (replPid : Int)
    (sigchld : Bool) (as : List Action) (s : Service)
    (hrun : run step (init workingDir db tree replPid sigchld) as = some s)
    (hcond : Meets step NoCoalescing (init workingDir db tree replPid sigchld) as)
    (hblocked : s.signalThread = .sigwait) (hpending : s.sigchld = false) :
    (∀ pid jobId, s.scheduler.activeJobs.lookup pid = some jobId →
      s.children.lookup pid = some ⟨.testRunner jobId, false⟩) ∧
    (∀ pid c, s.children.lookup pid = some c → c.exited = false) := by
  have hlinked : s.Linked := run_invariant (fun _ _ _ h hs => h.step hs)
    (linked_init workingDir db tree replPid sigchld) hrun
  have hcovered : Covered s := run_invariant_of_meets (fun _ _ _ h hc hs => covered_step h hc hs)
    (covered_init workingDir db tree replPid sigchld) hcond hrun
  have hzero : zombies s.children = 0 := by
    simpa [Covered, waitsDue, hblocked, hpending] using hcovered
  constructor
  · intro pid jobId hl
    cases hlinked pid jobId hl with
    | inl hh => simp [hblocked, SignalThread.held] at hh
    | inr hcase =>
      obtain ⟨b, hb⟩ := hcase
      obtain rfl : b = false := running_of_no_zombies hzero hb
      exact hb
  · intro pid c hl
    exact running_of_no_zombies hzero hl

/- The second runner exits while the `wait` for the first one is under way. -/
def separateExits : List Action :=
  [.create [] .stored 11, .create [] .stored 12, .exit 11, .sigwait, .exit 12, .wait 12,
    .jobFinished 13, .sigwait, .wait 11, .jobFinished 13]

theorem exited_runners_reaped_sample : ∃ s, run step sampleService separateExits = some s ∧
    s.runnersExited = [0, 1] ∧
    (∀ pid c, s.children.lookup pid = some c → c.exited = false) :=
  ⟨_, rfl, rfl, (exited_runners_reaped (text "/opt") emptyStore.1 emptyStore.2 10 false
    separateExits _ rfl (by decide) rfl rfl).2⟩

/- Both runners exit before the signal thread is back from another call. -/
def mergedExits : List Action :=
  [.create [] .stored 11, .create [] .stored 12, .exit 11, .exit 12, .sigwait, .wait 11,
    .jobFinished 13]

/-- Two runners exit before the first `SIGCHLD` is consumed: the second keeps its slot as a
zombie while the signal thread waits for a signal that is not pending. -/
theorem merged_exit_keeps_slot : ∃ s, run step sampleService mergedExits = some s ∧
    s.signalThread = .sigwait ∧ s.sigchld = false ∧
    s.scheduler.activeJobs.lookup 12 = some 1 ∧
    s.children.lookup 12 = some ⟨.testRunner 1, true⟩ :=
  ⟨_, rfl, rfl, rfl, rfl, rfl⟩

end OpcUaTestTool.SignalCoalescing
