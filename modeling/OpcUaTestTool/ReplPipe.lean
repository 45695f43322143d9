import OpcUaTestTool.FileDescriptors
import OpcUaTestTool.FiniteMap
import OpcUaTestTool.Numerals
import OpcUaTestTool.Transition

/-! The pipe between the console and the service: what the console and the test runners inherit of
the descriptors of the service, and what the thread that reads the pipe gets to see. -/
namespace OpcUaTestTool.ReplPipe
open FileDescriptors FiniteMap Numerals Transition

/- What a descriptor refers to: an end of the pipe, the log of a job, or something else. -/
inductive Handle where
  | pipeRead
  | pipeWrite
  | log (jobId : Int)
  | other (n : Nat)
  deriving DecidableEq

/-- `pipefd` -/
def pipefd (t : Fds Handle) : Nat × Nat := (t.free, (t.openFile .pipeRead).free)

def pipe (t : Fds Handle) : Fds Handle := (t.openFile .pipeRead).openFile .pipeWrite

/-- The child of the constructor of `Repl`, when it calls `execv`. -/
def replChild (t : Fds Handle) : Fds Handle :=
  (((pipe t).close (pipefd t).1).closeFrom 6 256).dup2 (pipefd t).2 1

/-- The service after this constructor. -/
def replParent (t : Fds Handle) : Fds Handle := (pipe t).close (pipefd t).2

/-- The child of `schedule`, when it calls `execv`; the log could be opened. -/
def runnerChild (t : Fds Handle) (jobId : Int) : Fds Handle :=
  let closed := t.closeFrom 5 256
  ((closed.openFile (.log jobId)).dup2 closed.free 1).close closed.free

/-- A table without the pipe. -/
def Unpiped (t : Fds Handle) : Prop := some .pipeRead ∉ t ∧ some .pipeWrite ∉ t

instance (t : Fds Handle) : Decidable (Unpiped t) := inferInstanceAs (Decidable (_ ∧ _))

/-! ### What the children inherit -/

theorem file_pipe (t : Fds Handle) (fd : Nat) :
    (pipe t).file fd = if fd = (pipefd t).2 then some .pipeWrite
      else if fd = (pipefd t).1 then some .pipeRead else t.file fd := by
  rw [pipe, file_openFile, file_openFile, pipefd]

theorem pipefd_ne (t : Fds Handle) : (pipefd t).1 ≠ (pipefd t).2 := by
  intro heq
  have hfree := file_free (t.openFile Handle.pipeRead)
  rw [file_openFile] at hfree
  simp only [pipefd] at heq
  rw [if_pos heq.symm] at hfree
  cases hfree

theorem file_replChild (t : Fds Handle) (fd : Nat) :
    (replChild t).file fd =
      if fd = 1 ∧ ¬ (6 ≤ (pipefd t).2 ∧ (pipefd t).2 < 256) then some .pipeWrite
      else if 6 ≤ fd ∧ fd < 256 then none
      else if fd = (pipefd t).2 then some .pipeWrite
      else if fd = (pipefd t).1 then none else t.file fd := by
  have hne := pipefd_ne t
  rw [replChild, file_dup2]
  simp only [file_closeFrom, file_close, file_pipe]
  by_cases hclosed : 6 ≤ (pipefd t).2 ∧ (pipefd t).2 < 256
  · by_cases hfirst : fd = (pipefd t).1
    · simp [hclosed, hfirst, hne]
    · simp [hclosed, hfirst]
  · by_cases hfirst : fd = (pipefd t).1
    · simp [hclosed, hfirst, hne, Ne.symm hne]
    · simp [hclosed, hfirst, Ne.symm hne]

/-- The write end gets a number below `n` if two of these are free. -/
theorem pipefd_lt_iff (t : Fds Handle) (n : Nat) : (pipefd t).2 < n ↔ 2 ≤ t.freeBelow n := by
  rw [pipefd, ← freeBelow_pos_iff, freeBelow_openFile]
  omega

/-- The output of the console goes to the pipe exactly if two of the descriptors up to 5 were free
when the service was started, or all of the first 256 but one were taken. -/
theorem stdout_is_pipe_iff {t : Fds Handle} (h : Unpiped t) :
    (replChild t).file 1 = some .pipeWrite ↔ 2 ≤ t.freeBelow 6 ∨ t.freeBelow 256 ≤ 1 := by
  have hnone : t.file 1 ≠ some .pipeWrite := fun heq => h.2 (mem_iff_file.mpr ⟨1, heq⟩)
  have hsix := pipefd_lt_iff t 6
  have hall := pipefd_lt_iff t 256
  rw [file_replChild]
  by_cases hclosed : 6 ≤ (pipefd t).2 ∧ (pipefd t).2 < 256
  · have hne : 1 ≠ (pipefd t).2 := by omega
    refine iff_of_false ?_ (by omega)
    by_cases hfirst : 1 = (pipefd t).1
    · simp [hclosed, hfirst.symm, hne]
    · simp [hclosed, hfirst, hne, hnone]
  · exact iff_of_true (by simp [hclosed]) (by omega)

theorem stdout_is_pipe_sample :
    (replChild [some (.other 0), some (.other 1), some (.other 2), some (.other 3)]).file 1 =
      some .pipeWrite :=
  (stdout_is_pipe_iff (by decide)).mpr (by decide)

/-- With one more descriptor that the service inherits, the console has no pipe. -/
example : (replChild (List.map (some ∘ .other) [0, 1, 2, 3, 4])).file 1 = some (.other 1) := by
  decide +kernel

/-- A test runner writes to its log, unless the service has closed its standard output and not its
standard input. Of the other descriptors it keeps those up to 4 and those from 256 on. -/
theorem file_runnerChild (t : Fds Handle) (jobId : Int) (fd : Nat) :
    (runnerChild t jobId).file fd =
      if fd = 1 then (if t.file 0 ≠ none ∧ t.file 1 = none then none else some (.log jobId))
      else if 5 ≤ fd ∧ fd < 256 then none else t.file fd := by
  have hclosed (n : Nat) (hn : n < 5) : (t.closeFrom 5 256).file n = t.file n := by
    rw [file_closeFrom, if_neg (by omega)]
  have hfree := file_free (t.closeFrom 5 256)
  have hlog : ((t.closeFrom 5 256).openFile (.log jobId)).file (t.closeFrom 5 256).free =
      some (Handle.log jobId) := by
    rw [file_openFile, if_pos rfl]
  rw [runnerChild]
  simp only [file_close, file_dup2, hlog, file_openFile]
  by_cases h1 : fd = 1
  · subst h1
    have hone : 1 = (t.closeFrom 5 256).free ↔ t.file 0 ≠ none ∧ t.file 1 = none := by
      constructor
      · intro heq
        rw [← heq, hclosed 1 (by omega)] at hfree
        refine ⟨fun hzero => ?_, hfree⟩
        have := free_le ((hclosed 0 (by omega)).trans hzero)
        omega
      · rintro ⟨hzero, hone⟩
        have hle := free_le ((hclosed 1 (by omega)).trans hone)
        have hpos : 0 < (t.closeFrom 5 256).free := lt_free_iff.mpr fun n hn => by
          obtain rfl : n = 0 := by omega
          rwa [hclosed 0 (by omega)]
        omega
    simp only [hone, if_true, ne_eq, reduceCtorEq, not_false_eq_true, and_self]
  · by_cases hfd : fd = (t.closeFrom 5 256).free
    · have hnone := hfd ▸ hfree
      rw [file_closeFrom] at hnone
      simp only [h1, if_pos hfd, if_false]
      exact hnone.symm
    · simp only [h1, hfd, if_false, false_and]
      exact file_closeFrom t 5 256 fd

/-! ### The pipe -/

/- A process of the family of the console, or of that of a test runner. -/
structure Process where
  repl : Bool
  fds : Fds Handle

/- The bytes in the pipe, the chunks that the listener has handed on, and all that was written. -/
structure System where
  service : Fds Handle
  children : Map Int Process := ∅
  buffer : Bytes
  listening : Bool := true
  received : List Bytes := []
  written : Bytes

/-- After the constructor, when the child has written its first bytes. -/
def construct (t : Fds Handle) (pid : Int) : System :=
  { service := replParent t
    children := (∅ : Map Int Process).insert pid ⟨true, replChild t⟩
    buffer := text "test"
    written := text "test" }

inductive ChildAction where
  | fork (pid : Int)
  | openFile (n : Nat)
  | close (fd : Nat)
  | dup2 (fd fd' : Nat)
  | write (fd : Nat) (bytes : Bytes)
  | exit

inductive Action where
  /-- The service opens and closes other files. -/
  | openFile (n : Nat)
  | close (fd : Nat)
  | schedule (pid jobId : Int)
  | child (pid : Int) (a : ChildAction)
  /-- `read` in the listener returns `n` bytes, or zero at the end. -/
  | read (n : Nat)
  | readEnd

def ChildAction.step (s : System) (pid : Int) (p : Process) : ChildAction → Option System
  | .fork pid' =>
    if pid' ∈ s.children then none
    else some { s with children := s.children.insert pid' p }
  | .openFile n =>
    some { s with children := s.children.insert pid { p with fds := p.fds.openFile (.other n) } }
  | .close fd => some { s with children := s.children.insert pid { p with fds := p.fds.close fd } }
  | .dup2 fd fd' =>
    some { s with children := s.children.insert pid { p with fds := p.fds.dup2 fd fd' } }
  | .write fd bytes =>
    match p.fds.file fd with
    | some .pipeWrite =>
      some { s with buffer := s.buffer ++ bytes, written := s.written ++ bytes }
    | _ => some s
  | .exit => some { s with children := s.children.erase pid }

/-- Nobody can write into the pipe. -/
def Closed (s : System) : Prop :=
  some .pipeWrite ∉ s.service ∧
    ∀ pid ∈ s.children.keys, ∀ p ∈ s.children.lookup pid, some .pipeWrite ∉ p.fds

instance (s : System) : Decidable (Closed s) := inferInstanceAs (Decidable (_ ∧ _))

def step (s : System) : Action → Option System
  | .openFile n => some { s with service := s.service.openFile (.other n) }
  | .close fd =>
    match s.service.file fd with
    | some (.other _) => some { s with service := s.service.close fd }
    | _ => none
  | .schedule pid jobId =>
    if pid ∈ s.children then none
    else some { s with children := s.children.insert pid ⟨false, runnerChild s.service jobId⟩ }
  | .child pid a => (s.children.lookup pid).bind fun p => a.step s pid p
  | .read n =>
    if s.listening = true ∧ 0 < n ∧ n ≤ 1024 ∧ n ≤ s.buffer.length then some
      { s with
        buffer := s.buffer.drop n
        received := s.received ++ [s.buffer.take n] }
    else none
  | .readEnd =>
    if s.listening = true ∧ s.buffer = [] ∧ Closed s then some { s with listening := false }
    else none

/-- No process of the family of the console can write into the pipe. -/
def ReplClosed (s : System) : Prop :=
  ∀ pid p, s.children.lookup pid = some p → p.repl = true → some .pipeWrite ∉ p.fds

structure Sane (s : System) : Prop where
  service : some .pipeWrite ∉ s.service
  runners : ∀ pid p, s.children.lookup pid = some p → p.repl = false → some .pipeWrite ∉ p.fds
  bytes : s.received.flatten ++ s.buffer = s.written
  ended : s.listening = false → s.buffer = [] ∧ ReplClosed s

theorem closed_iff {s : System} (h : Sane s) : Closed s ↔ ReplClosed s := by
  constructor
  · intro hclosed pid p hl _
    exact hclosed.2 pid (AList.mem_keys.mp (AList.lookup_isSome.mp (by rw [hl]; rfl))) p hl
  · intro hrepl
    refine ⟨h.service, fun pid _ p hp => ?_⟩
    cases hfamily : p.repl with
    | false => exact h.runners pid p hp hfamily
    | true => exact hrepl pid p hp hfamily

/-- The service closes the write end before it starts anything else. -/
theorem replParent_closed {t : Fds Handle} (h : Unpiped t) : some .pipeWrite ∉ replParent t := by
  intro hmem
  obtain ⟨fd, hfd⟩ := mem_iff_file.mp hmem
  rw [replParent, file_close, file_pipe] at hfd
  by_cases hw : fd = (pipefd t).2
  · simp [hw] at hfd
  · by_cases hr : fd = (pipefd t).1
    · simp [hr, pipefd_ne t] at hfd
    · rw [if_neg hw, if_neg hw, if_neg hr] at hfd
      exact h.2 (mem_iff_file.mpr ⟨fd, hfd⟩)

theorem construct_sane {t : Fds Handle} (h : Unpiped t) (pid : Int) : Sane (construct t pid) := by
  refine ⟨replParent_closed h, ?_, rfl, fun hended => ?_⟩
  · intro pid' p hl hfamily
    cases lookup_insert_eq_some.mp hl with
    | inl heq => rw [← heq.2] at hfamily; cases hfamily
    | inr hold => cases hold.2
  · cases hended

theorem mem_of_runnerChild {t : Fds Handle} {jobId : Int}
    (h : some .pipeWrite ∈ runnerChild t jobId) : some .pipeWrite ∈ t := by
  cases mem_of_openFile (mem_of_dup2 (mem_of_close h)) with
  | inl heq => cases heq
  | inr hold => exact mem_of_closeFrom hold

/-- A child gets a table with nothing that the table of one of its family has not. -/
theorem Sane.setChild {s : System} (h : Sane s) {pid : Int} {p : Process} {pid' : Int} {q : Process}
    (hl : s.children.lookup pid = some p) (hfamily : q.repl = p.repl)
    (hfds : some .pipeWrite ∈ q.fds → some .pipeWrite ∈ p.fds) :
    Sane { s with children := s.children.insert pid' q } := by
  refine ⟨h.service, ?_, h.bytes, fun hended => ⟨(h.ended hended).1, ?_⟩⟩
  · intro n r hl' hrunner
    cases lookup_insert_eq_some.mp hl' with
    | inr hold => exact h.runners n r hold.2 hrunner
    | inl heq =>
      obtain ⟨rfl, rfl⟩ := heq
      exact fun hmem => h.runners pid p hl (hfamily ▸ hrunner) (hfds hmem)
  · intro n r hl' hrepl
    cases lookup_insert_eq_some.mp hl' with
    | inr hold => exact (h.ended hended).2 n r hold.2 hrepl
    | inl heq =>
      obtain ⟨rfl, rfl⟩ := heq
      exact fun hmem => (h.ended hended).2 pid p hl (hfamily ▸ hrepl) (hfds hmem)

/-- A test runner has nothing of the pipe that it could write into. -/
theorem Sane.runner {s : System} (h : Sane s) {pid : Int} {fds : Fds Handle}
    (hfds : some .pipeWrite ∉ fds) :
    Sane { s with children := s.children.insert pid ⟨false, fds⟩ } := by
  refine ⟨h.service, ?_, h.bytes, fun hended => ⟨(h.ended hended).1, ?_⟩⟩
  · intro n r hl hrunner
    cases lookup_insert_eq_some.mp hl with
    | inr hold => exact h.runners n r hold.2 hrunner
    | inl heq => exact heq.2 ▸ hfds
  · intro n r hl hrepl
    cases lookup_insert_eq_some.mp hl with
    | inr hold => exact (h.ended hended).2 n r hold.2 hrepl
    | inl heq =>
      rw [← heq.2] at hrepl
      cases hrepl

theorem Sane.child {s s' : System} (h : Sane s) {pid : Int} {p : Process} {a : ChildAction}
    (hl : s.children.lookup pid = some p) (hs : a.step s pid p = some s') : Sane s' := by
  cases a with
  | fork pid' =>
    by_cases hfork : pid' ∈ s.children
    · simp [ChildAction.step, hfork] at hs
    · simp only [ChildAction.step, if_neg hfork, Option.some.injEq] at hs
      exact hs ▸ h.setChild hl rfl id
  | openFile n =>
    obtain rfl := Option.some.inj hs
    exact h.setChild hl rfl fun hmem => (mem_of_openFile hmem).resolve_left (by simp)
  | close fd =>
    obtain rfl := Option.some.inj hs
    exact h.setChild hl rfl mem_of_close
  | dup2 fd fd' =>
    obtain rfl := Option.some.inj hs
    exact h.setChild hl rfl mem_of_dup2
  | exit =>
    obtain rfl := Option.some.inj hs
    refine ⟨h.service, ?_, h.bytes, fun hended => ⟨(h.ended hended).1, ?_⟩⟩
    · intro n r hl' hrunner
      exact h.runners n r (lookup_erase_eq_some.mp hl').2 hrunner
    · intro n r hl' hrepl
      exact (h.ended hended).2 n r (lookup_erase_eq_some.mp hl').2 hrepl
  | write fd bytes =>
    by_cases hfile : p.fds.file fd = some .pipeWrite
    · simp only [ChildAction.step, hfile, Option.some.injEq] at hs
      obtain rfl := hs
      have hmem : some .pipeWrite ∈ p.fds := mem_iff_file.mpr ⟨fd, hfile⟩
      refine ⟨h.service, h.runners, ?_, fun hended => ?_⟩
      · rw [← h.bytes, List.append_assoc]
      · cases hfamily : p.repl with
        | false => exact absurd hmem (h.runners pid p hl hfamily)
        | true => exact absurd hmem ((h.ended hended).2 pid p hl hfamily)
    · have hsame : some s = some s' := by
        rw [← hs, ChildAction.step]
        split
        · exact absurd ‹_› hfile
        · rfl
      exact Option.some.inj hsame ▸ h

theorem Sane.step {s s' : System} {a : Action} (h : Sane s) (hs : ReplPipe.step s a = some s') :
    Sane s' := by
  cases a with
  | openFile n =>
    obtain rfl := Option.some.inj hs
    refine ⟨fun hmem => ?_, h.runners, h.bytes, h.ended⟩
    exact h.service ((mem_of_openFile hmem).resolve_left (by simp))
  | close fd =>
    cases hfile : s.service.file fd with
    | none => simp [ReplPipe.step, hfile] at hs
    | some f =>
      cases f with
      | other n =>
        simp only [ReplPipe.step, hfile, Option.some.injEq] at hs
        obtain rfl := hs
        exact ⟨fun hmem => h.service (mem_of_close hmem), h.runners, h.bytes, h.ended⟩
      | _ => simp [ReplPipe.step, hfile] at hs
  | schedule pid jobId =>
    by_cases hpid : pid ∈ s.children
    · simp [ReplPipe.step, hpid] at hs
    · simp only [ReplPipe.step, if_neg hpid, Option.some.injEq] at hs
      obtain rfl := hs
      exact h.runner fun hmem => h.service (mem_of_runnerChild hmem)
  | child pid a =>
    obtain ⟨p, hl, hs⟩ := Option.bind_eq_some_iff.mp hs
    exact h.child hl hs
  | read n =>
    by_cases hread : s.listening = true ∧ 0 < n ∧ n ≤ 1024 ∧ n ≤ s.buffer.length
    · rw [ReplPipe.step, if_pos hread, Option.some.injEq] at hs
      obtain rfl := hs
      refine ⟨h.service, h.runners, ?_, fun hended => ?_⟩
      · rw [List.flatten_append, List.flatten_singleton, List.append_assoc,
          List.take_append_drop, h.bytes]
      · rw [hread.1] at hended
        cases hended
    · rw [ReplPipe.step, if_neg hread] at hs
      cases hs
  | readEnd =>
    by_cases hread : s.listening = true ∧ s.buffer = [] ∧ Closed s
    · rw [ReplPipe.step, if_pos hread, Option.some.injEq] at hs
      obtain rfl := hs
      exact ⟨h.service, h.runners, h.bytes, fun _ => ⟨hread.2.1, (closed_iff h).mp hread.2.2⟩⟩
    · rw [ReplPipe.step, if_neg hread] at hs
      cases hs

/-- In every run of the service, the console, test runners and whatever these start, the listener
hands on what was written into the pipe, in order. It comes to the end exactly when all of this is
read and no process of the family of the console has the pipe open, whatever test runners there are;
and from then on nothing is written that it would miss. -/
theorem listener_ends_with_repl {t : Fds Handle} (h : Unpiped t) {pid : Int} {as : List Action}
    {s : System} (hrun : run step (construct t pid) as = some s) :
    s.received.flatten ++ s.buffer = s.written ∧
    ((step s .readEnd).isSome ↔ s.listening = true ∧ s.buffer = [] ∧ ReplClosed s) ∧
    (s.listening = false → s.received.flatten = s.written) := by
  have hsane : Sane s :=
    run_invariant (fun _ _ _ h hs => Sane.step h hs) (construct_sane h pid) hrun
  refine ⟨hsane.bytes, ?_, fun hended => ?_⟩
  · rw [← closed_iff hsane, step]
    split
    · exact iff_of_true rfl ‹_›
    · exact iff_of_false (by simp) ‹_›
  · have hbytes := hsane.bytes
    rwa [(hsane.ended hended).1, List.append_nil] at hbytes

/- A test runner outlives the console. -/
def sampleFds : Fds Handle := [some (.other 0), some (.other 1), some (.other 2), some (.other 3)]

def outlived : List Action :=
  [.child 7 (.write 1 (text "hi")), .schedule 8 0, .read 6, .child 7 .exit, .readEnd]

theorem listener_ends_with_repl_sample : ∃ s, run step (construct sampleFds 7) outlived = some s ∧
    8 ∈ s.children ∧ s.received.flatten = text "testhi" := by
  have hrun : ((run step (construct sampleFds 7) outlived).map fun s =>
      decide (s.listening = false ∧ s.written = text "testhi" ∧ 8 ∈ s.children)) = some true := by
    decide +kernel
  obtain ⟨s, hs, hfacts⟩ := Option.map_eq_some_iff.mp hrun
  obtain ⟨hended, hwritten, hchild⟩ := of_decide_eq_true hfacts
  obtain ⟨_, _, hall⟩ := listener_ends_with_repl (by decide) hs
  exact ⟨s, hs, hchild, hwritten ▸ hall hended⟩

end OpcUaTestTool.ReplPipe
