import OpcUaTestTool.JobLifetimes
import OpcUaTestTool.JobScheduler
import OpcUaTestTool.StoreStart

/-! What a request file that cannot be written leaves behind: its id is handed out all the same,
and the next start, which looks for the first missing file, goes on from there. -/
namespace OpcUaTestTool.RequestWrites
open FiniteMap Numerals Directory Store StoreStart JobScheduler Transition
open JobLifetimes (requestFiles requestFiles_setRequests)

/- The files, the scheduler of the running process, and the ids the clients were told with
`ok`, oldest first. -/
structure Service where
  tree : Tree
  process : Option Scheduler := none
  told : List Int := []

/- `fork` is the value it returns to the service, should `schedule` reach it. -/
inductive Action where
  | construct (workingDir repo : Bytes) (cloned : Option Repo)
  | newJob (requestJson : Bytes) (w : Storing) (fork : Int)
  | jobFinished (pid fork : Int)
  | kill

/- A call of the running process; `exit` ends it without an answer. The successor of the next id
is an `int`: `m_jobId++` has no result otherwise. -/
def call (s : Service) (p : Scheduler) : Action → Option Service
  | .construct _ _ _ => none
  | .newJob requestJson w fork =>
    if p.db.m_jobId < 2147483647 ∧ fork ≠ 0 then
      match p.create s.tree requestJson w fork with
      | .error _ => some
        { s with
          tree := (p.db.newJob s.tree requestJson w).2.2
          process := none }
      | .ok c => some
        { tree := c.tree
          process := some c.scheduler
          told := s.told ++ [c.newJobId] }
    else none
  | .jobFinished pid fork =>
    if fork ≠ 0 then
      match p.jobFinished pid fork with
      | .error _ => some { s with process := none }
      | .ok f => some { s with process := some f.scheduler }
    else none
  | .kill => some { s with process := none }

def step (s : Service) (a : Action) : Option Service :=
  match s.process, a with
  | none, .construct workingDir repo cloned =>
    let (db, tree) := DataBase.construct workingDir repo s.tree cloned
    some { s with
      tree := tree
      process := some { m_workingDir := workingDir, db := db, m_fJobFinished := true } }
  | some p, a => call s p a
  | none, _ => none

/-- The file is created and takes the whole request. -/
def Complete (requestJson : Bytes) : Storing → Prop
  | .stored => True
  | .notOpened => False
  | .cut n => requestJson.length ≤ n

def Written (s : Service) : Action → Prop
  | .newJob requestJson w _ => s.tree.requests ≠ none ∧ Complete requestJson w
  | _ => True

/- What a failed `newJob` has to leave as it was. -/
def counters (p : Scheduler) : Int × List Int × Map Int Int :=
  (p.db.m_jobId, p.waitQueue, p.activeJobs)

def Unchanged (s t : Service) : Prop :=
  t.tree.requests = s.tree.requests ∧ t.process.map counters = s.process.map counters ∧
    t.told = s.told

/-- A request that is not written changes nothing, and nobody is told its id. -/
def FailureUndone (s : Service) (a : Action) : Prop :=
  ¬ Written s a → ∀ t, step s a = some t → Unchanged s t

/-- An id is handed out before it names a file, and a request file stays what it is. -/
def IdsKept (s : Service) (a : Action) : Prop :=
  ∀ t, step s a = some t →
    (∀ id, t.told = s.told ++ [id] → decimal id ∉ requestFiles s.tree) ∧
    ∀ name content, (requestFiles s.tree).lookup name = some content →
      (requestFiles t.tree).lookup name = some content

def Kept (s : Service) (a : Action) : Prop := FailureUndone s a ∧ IdsKept s a

/- The requests are numbered from 0 to n - 1. -/
def NumberedTo (t : Tree) (n : Nat) : Prop :=
  n < 2147483648 ∧ ∃ requests, t.requests = some requests ∧
    ∀ id, 0 ≤ id → InInt id → (decimal id ∈ requests ↔ id < n)

/-- There is no directory of requests, or they are numbered without a gap and the next id of the
process is the number that follows. -/
def Consistent (s : Service) : Prop :=
  s.tree.requests = none ∨
    ∃ n, NumberedTo s.tree n ∧ ∀ p, s.process = some p → p.db.m_jobId = n

/-! ### The steps -/

theorem store_complete {requestJson : Bytes} {w : Storing} (h : Complete requestJson w)
    (d : Dir) (name : Bytes) : store d name requestJson w = d.insert name requestJson := by
  cases w with
  | stored => rfl
  | notOpened => exact absurd h not_false
  | cut n => simp only [store, List.take_of_length_le h]

/-- Whatever becomes of the request, the process ends or the client is told the next id. -/
theorem newJob_cases {s t : Service} {requestJson : Bytes} {w : Storing} {fork : Int}
    (h : step s (.newJob requestJson w fork) = some t) :
    ∃ p, s.process = some p ∧ p.db.m_jobId < 2147483647 ∧
      t.tree = (p.db.newJob s.tree requestJson w).2.2 ∧
      ((t.process = none ∧ t.told = s.told) ∨
        ∃ p', t.process = some p' ∧ p'.db.m_jobId = int32 (p.db.m_jobId + 1) ∧
          t.told = s.told ++ [p.db.m_jobId]) := by
  cases hp : s.process with
  | none => simp [step, hp] at h
  | some p =>
    simp only [step, hp, call] at h
    by_cases hguard : p.db.m_jobId < 2147483647 ∧ fork ≠ 0
    · rw [if_pos hguard] at h
      refine ⟨p, rfl, hguard.1, ?_⟩
      cases hc : p.create s.tree requestJson w fork with
      | error e =>
        simp only [hc, Option.some.injEq] at h
        subst h
        exact ⟨rfl, Or.inl ⟨rfl, rfl⟩⟩
      | ok c =>
        simp only [hc, Option.some.injEq] at h
        subst h
        obtain ⟨hid, htree, hschedule⟩ := create_spec hc
        refine ⟨htree, Or.inr ⟨c.scheduler, rfl, ?_, by rw [hid]⟩⟩
        rw [(schedule_frame hschedule).1]
        rfl
    · rw [if_neg hguard] at h
      simp at h

/-- The steps that are no `newJob` leave the requests, what was told, and the next id of a process
that goes on. -/
theorem other_cases {s t : Service} {a : Action} (h : step s a = some t)
    (hother : ∀ requestJson w fork, a ≠ .newJob requestJson w fork) (hrunning : s.process ≠ none) :
    t.tree = s.tree ∧ t.told = s.told ∧
      ∀ p', t.process = some p' → ∃ p, s.process = some p ∧ p'.db.m_jobId = p.db.m_jobId := by
  obtain ⟨p, hp⟩ := Option.ne_none_iff_exists'.mp hrunning
  simp only [step, hp] at h
  cases a with
  | construct workingDir repo cloned => simp [call] at h
  | newJob requestJson w fork => exact absurd rfl (hother requestJson w fork)
  | jobFinished pid fork =>
    simp only [call] at h
    by_cases hguard : fork ≠ 0
    · rw [if_pos hguard] at h
      cases hf : p.jobFinished pid fork with
      | error e =>
        simp only [hf, Option.some.injEq] at h
        subst h
        exact ⟨rfl, rfl, by simp⟩
      | ok f =>
        simp only [hf, Option.some.injEq] at h
        subst h
        refine ⟨rfl, rfl, fun p' hp' => ⟨p, hp, ?_⟩⟩
        rw [← Option.some.inj hp', (jobFinished_frame hf).1]
    · rw [if_neg hguard] at h
      simp at h
  | kill =>
    simp only [call, Option.some.injEq] at h
    subst h
    exact ⟨rfl, rfl, by simp⟩

theorem requests_newJob (db : DataBase) (t : Tree) (requestJson : Bytes) (w : Storing) :
    (db.newJob t requestJson w).2.2.requests =
      t.requests.map fun requests => store requests (decimal db.m_jobId) requestJson w := by
  cases hr : t.requests with
  | none => simp [DataBase.newJob, hr]
  | some requests => simp [DataBase.newJob, hr]

/-- Only a request that is written can meet what a failed one has to. -/
theorem failureUndone_iff {s t : Service} {a : Action} (h : step s a = some t) :
    FailureUndone s a ↔ Written s a := by
  refine ⟨fun hundone => ?_, fun hwritten hnot => absurd hwritten hnot⟩
  by_contra hnot
  obtain ⟨_, hprocess, htold⟩ := hundone hnot t h
  cases a with
  | newJob requestJson w fork =>
    obtain ⟨p, hp, _, _, hafter⟩ := newJob_cases h
    cases hafter with
    | inl hended => simp [hended.1, hp] at hprocess
    | inr hanswered =>
      obtain ⟨_, _, _, hnext⟩ := hanswered
      simp [hnext] at htold
  | construct workingDir repo cloned => exact hnot trivial
  | jobFinished pid fork => exact hnot trivial
  | kill => exact hnot trivial

theorem NumberedTo.requestFiles {t : Tree} {n : Nat} (h : NumberedTo t n) :
    decimal n ∉ requestFiles t := by
  obtain ⟨hn, requests, hr, hmem⟩ := h
  simp only [JobLifetimes.requestFiles, hr, Option.getD_some]
  exact (lastId_of_numbered hr hn hmem).1

theorem NumberedTo.lastId {t : Tree} {n : Nat} (h : NumberedTo t n) : lastId t = n := by
  obtain ⟨hn, requests, hr, hmem⟩ := h
  exact (lastId_of_numbered hr hn hmem).2

/-- A written request takes the next number. -/
theorem NumberedTo.insert {t u : Tree} {n : Nat} {requests : Dir} {requestJson : Bytes}
    (h : NumberedTo t n) (hr : t.requests = some requests) (hn : n < 2147483647)
    (hu : u.requests = some (requests.insert (decimal n) requestJson)) : NumberedTo u (n + 1) := by
  obtain ⟨_, requests', hr', hmem⟩ := h
  obtain rfl : requests' = requests := by
    rw [hr] at hr'
    exact (Option.some.inj hr').symm
  refine ⟨by omega, _, hu, fun id h0 hint => ?_⟩
  rw [AList.mem_insert, hmem id h0 hint]
  constructor
  · intro hid
    cases hid with
    | inl heq =>
      have := decimal_injective heq
      omega
    | inr hlt => omega
  · intro hlt
    by_cases heq : id = n
    · exact Or.inl (by rw [heq])
    · exact Or.inr (by omega)

/-- Starting the process finds the number that follows. -/
theorem consistent_construct {s t : Service} {workingDir repo : Bytes} {cloned : Option Repo}
    (hi : Consistent s) (hp : s.process = none)
    (h : step s (.construct workingDir repo cloned) = some t) :
    Consistent t ∧ t.told = s.told ∧
      (s.tree.requests = none ∨ t.tree.requests = s.tree.requests) := by
  simp only [step, hp, Option.some.injEq] at h
  subst h
  by_cases hjobs : s.tree.jobs = none
  · obtain ⟨hid, hr, _⟩ := construct_new hjobs workingDir repo cloned
    refine ⟨Or.inr ⟨0, ⟨by omega, ∅, hr, fun id h0 _ => ?_⟩, ?_⟩, rfl, Or.inl ?_⟩
    · refine iff_of_false (AList.notMem_empty _) ?_
      omega
    · intro p hproc
      rw [← Option.some.inj hproc]
      exact hid
    · simp [Tree.requests, hjobs]
  · obtain ⟨hid, hr, _⟩ := construct_old hjobs workingDir repo cloned
    refine ⟨?_, rfl, Or.inr hr⟩
    cases hi with
    | inl hnone => exact Or.inl (hr.trans hnone)
    | inr hnumbered =>
      obtain ⟨n, hn, _⟩ := hnumbered
      have hlast := hn.lastId
      obtain ⟨hlt, requests, hrequests, hmem⟩ := hn
      refine Or.inr ⟨n, ⟨hlt, requests, hr.trans hrequests, hmem⟩, ?_⟩
      intro p hproc
      rw [← Option.some.inj hproc]
      exact hid.trans hlast

/-- A written request gets the next number as its id and its name. -/
theorem newJob_numbered {s t : Service} {requestJson : Bytes} {w : Storing} {fork : Int}
    (hi : Consistent s) (hw : Written s (.newJob requestJson w fork))
    (h : step s (.newJob requestJson w fork) = some t) :
    ∃ (n : Nat) (requests : Dir), NumberedTo s.tree n ∧ n < 2147483647 ∧
      s.tree.requests = some requests ∧
      t.tree.requests = some (requests.insert (decimal n) requestJson) ∧
      (∀ p, t.process = some p → p.db.m_jobId = (n + 1 : Nat)) ∧
      (t.told = s.told ∨ t.told = s.told ++ [(n : Int)]) := by
  obtain ⟨hpresent, hcomplete⟩ := hw
  obtain ⟨p, hp, hmax, htree, hafter⟩ := newJob_cases h
  cases hi with
  | inl hnone => exact absurd hnone hpresent
  | inr hnumbered =>
    obtain ⟨n, hn, hnext⟩ := hnumbered
    have hid : p.db.m_jobId = n := hnext p hp
    obtain ⟨requests, hr⟩ := Option.ne_none_iff_exists'.mp hpresent
    refine ⟨n, requests, hn, by omega, hr, ?_, ?_⟩
    · rw [htree, requests_newJob, hr, Option.map_some, store_complete hcomplete, hid]
    · cases hafter with
      | inl hended => exact ⟨by simp [hended.1], Or.inl hended.2⟩
      | inr hanswered =>
        obtain ⟨q, hq, hnextId, htold⟩ := hanswered
        refine ⟨fun p' hp' => ?_, Or.inr (hid ▸ htold)⟩
        obtain rfl : q = p' := Option.some.inj (hq.symm.trans hp')
        rw [hnextId, hid, int32_eq_self]
        · rfl
        · exact ⟨by omega, by omega⟩

theorem consistent_newJob {s t : Service} {requestJson : Bytes} {w : Storing} {fork : Int}
    (hi : Consistent s) (hw : Written s (.newJob requestJson w fork))
    (h : step s (.newJob requestJson w fork) = some t) : Consistent t := by
  obtain ⟨n, requests, hn, hlt, hr, hstored, hids, _⟩ := newJob_numbered hi hw h
  exact Or.inr ⟨n + 1, hn.insert hr hlt hstored, hids⟩

theorem idsKept_newJob {s t : Service} {requestJson : Bytes} {w : Storing} {fork : Int}
    (hi : Consistent s) (hw : Written s (.newJob requestJson w fork))
    (h : step s (.newJob requestJson w fork) = some t) :
    IdsKept s (.newJob requestJson w fork) := by
  obtain ⟨n, requests, hn, _, hr, hstored, _, htold⟩ := newJob_numbered hi hw h
  have hfresh := hn.requestFiles
  intro t' ht'
  obtain rfl : t = t' := Option.some.inj (h.symm.trans ht')
  constructor
  · intro id hid
    cases htold with
    | inl hsame => simp [hsame] at hid
    | inr htold =>
      rw [htold, List.append_cancel_left_eq, List.singleton_inj] at hid
      exact hid ▸ hfresh
  · intro name content hlookup
    have hne : name ≠ decimal n := by
      rintro rfl
      exact hfresh (AList.lookup_isSome.mp (by rw [hlookup]; rfl))
    simp only [requestFiles, hr, Option.getD_some] at hlookup
    simp only [requestFiles, hstored, Option.getD_some]
    rw [lookup_insert_ne hne, hlookup]

/-- A step that tells no id and leaves the requests keeps all of them. -/
theorem idsKept_of_frame {s t : Service} {a : Action} (h : step s a = some t)
    (htold : t.told = s.told)
    (hr : s.tree.requests = none ∨ t.tree.requests = s.tree.requests) : IdsKept s a := by
  intro t' ht'
  obtain rfl : t = t' := Option.some.inj (h.symm.trans ht')
  refine ⟨fun id hid => ?_, fun name content hlookup => ?_⟩
  · simp [htold] at hid
  · cases hr with
    | inl hnone => simp [requestFiles, hnone] at hlookup
    | inr hsame => rwa [requestFiles, hsame]

theorem consistent_step {s t : Service} {a : Action} (hi : Consistent s) (hw : Written s a)
    (h : step s a = some t) : Consistent t ∧ IdsKept s a := by
  cases hp : s.process with
  | none =>
    cases a with
    | construct workingDir repo cloned =>
      obtain ⟨ht, htold, hr⟩ := consistent_construct hi hp h
      exact ⟨ht, idsKept_of_frame h htold hr⟩
    | newJob requestJson w fork => simp [step, hp] at h
    | jobFinished pid fork => simp [step, hp] at h
    | kill => simp [step, hp] at h
  | some p =>
    by_cases hnew : ∃ requestJson w fork, a = .newJob requestJson w fork
    · obtain ⟨requestJson, w, fork, rfl⟩ := hnew
      exact ⟨consistent_newJob hi hw h, idsKept_newJob hi hw h⟩
    · have hother : ∀ requestJson w fork, a ≠ .newJob requestJson w fork := fun json w fork heq =>
        hnew ⟨json, w, fork, heq⟩
      obtain ⟨htree, htold, hids⟩ := other_cases h hother (by simp [hp])
      refine ⟨?_, idsKept_of_frame h htold (Or.inr (by rw [htree]))⟩
      cases hi with
      | inl hnone => exact Or.inl (by rw [htree, hnone])
      | inr hnumbered =>
        obtain ⟨n, hn, hnext⟩ := hnumbered
        refine Or.inr ⟨n, by rwa [htree], fun p' hp' => ?_⟩
        obtain ⟨q, hq, hsame⟩ := hids p' hp'
        rw [hsame, hnext q hq]

/-! ### Runs -/

/-- In exactly the runs in which every request is written, failures leave no trace. From a
consistent start, they are those in which ids and requests are kept as well. -/
theorem requests_kept_iff (s u : Service) (as : List Action) (hrun : run step s as = some u) :
    (Meets step FailureUndone s as ↔ Meets step Written s as) ∧
    (Consistent s → (Meets step Kept s as ↔ Meets step Written s as)) := by
  refine ⟨⟨fun hm => ?_, fun hm => ?_⟩, fun hi => ⟨fun hm => ?_, fun hm => ?_⟩⟩
  · exact hm.imp (fun _ _ _ hundone h => (failureUndone_iff h).mp hundone) hrun
  · exact hm.imp (fun _ _ _ hw h => (failureUndone_iff h).mpr hw) hrun
  · exact hm.imp (fun _ _ _ hkept h => (failureUndone_iff h).mp hkept.1) hrun
  · exact meets_of_meets (fun _ _ _ hi hw h => (consistent_step hi hw h).1)
      (fun _ _ _ hi hw h => ⟨(failureUndone_iff h).mpr hw, (consistent_step hi hw h).2⟩) hi hm hrun

/- Two requests, the first one with or without its file, a restart, and two more. -/
def restarted (w : Storing) : List Action :=
  [.construct (text "/opt") (text "repo") none, .newJob (text "a") w 100,
    .newJob (text "b") .stored 101, .kill, .construct (text "/opt") (text "repo") none,
    .newJob (text "c") .stored 102, .newJob (text "d") .stored 103]

def emptyRoot : Service := { tree := ⟨none, ∅, none⟩ }

theorem requests_kept_sample : ∃ u, run step emptyRoot (restarted .stored) = some u ∧
    u.told = [0, 1, 2, 3] ∧
    (Meets step Kept emptyRoot (restarted .stored) ↔
      Meets step Written emptyRoot (restarted .stored)) :=
  ⟨_, rfl, rfl, (requests_kept_iff _ _ _ rfl).2 (Or.inl rfl)⟩

/-- Without the file of request 0, the restarted process hands out 0 and 1 once more and overwrites
request 1. -/
theorem request_overwritten : ∃ s u,
    run step emptyRoot ((restarted .notOpened).take 3) = some s ∧ s.told = [0, 1] ∧
    (requestFiles s.tree).lookup (decimal 1) = some (text "b") ∧
    run step emptyRoot (restarted .notOpened) = some u ∧ u.told = [0, 1, 0, 1] ∧
    (requestFiles u.tree).lookup (decimal 1) = some (text "d") ∧
    ¬ Meets step FailureUndone emptyRoot (restarted .notOpened) ∧
    ¬ Meets step IdsKept emptyRoot (restarted .notOpened) := by
  refine ⟨_, _, rfl, rfl, rfl, rfl, rfl, rfl, fun hm => ?_, fun hm => ?_⟩
  · have hundone := (hm.2 _ rfl).1 (fun hw => hw.2) _ rfl
    exact absurd hundone.2.2 (by decide)
  · have hkept := ((((((hm.2 _ rfl).2 _ rfl).2 _ rfl).2 _ rfl).2 _ rfl).2 _ rfl).1 _ rfl
    exact hkept.1 1 rfl (by decide)

end OpcUaTestTool.RequestWrites
