import OpcUaTestTool.Directory

/-! The file store of the test service: `DataBase::DataBase` with its scan for the next job id,
and `DataBase::newJob`. The files live in a `Tree` that outlives the process; the `DataBase`
value is what the process keeps in memory. -/
namespace OpcUaTestTool.Store
open FiniteMap Numerals Directory

/- `root/jobs`; a missing directory is `none`. -/
structure Jobs where
  requests : Option Dir
  finished : Option Dir

/- `root/repo`, the clone of the script repository. -/
structure Repo where
  scripts : Option Dir
  targets : Option Dir

/-- The files below the root directory. -/
structure Tree where
  jobs : Option Jobs
  logs : Dir
  repo : Option Repo

def Tree.requests (t : Tree) : Option Dir := t.jobs.bind Jobs.requests

def Tree.finished (t : Tree) : Option Dir := t.jobs.bind Jobs.finished

def Tree.setRequests (t : Tree) (d : Dir) : Tree :=
  { t with jobs := t.jobs.map fun j => { j with requests := j.requests.map fun _ => d } }

def Tree.setFinished (t : Tree) (d : Dir) : Tree :=
  { t with jobs := t.jobs.map fun j => { j with finished := j.finished.map fun _ => d } }

@[simp] theorem Tree.requests_setRequests (t : Tree) (d : Dir) :
    (t.setRequests d).requests = t.requests.map fun _ => d := by
  cases h : t.jobs with
  | none => simp [Tree.requests, Tree.setRequests, h]
  | some j => simp [Tree.requests, Tree.setRequests, h]

@[simp] theorem Tree.setRequests_setRequests (t : Tree) (d d' : Dir) :
    (t.setRequests d).setRequests d' = t.setRequests d' := by
  cases h : t.jobs with
  | none => simp [Tree.setRequests, h]
  | some j => simp [Tree.setRequests, h, Function.comp_def]

@[simp] theorem Tree.finished_setRequests (t : Tree) (d : Dir) :
    (t.setRequests d).finished = t.finished := by
  cases h : t.jobs with
  | none => simp [Tree.finished, Tree.setRequests, h]
  | some j => simp [Tree.finished, Tree.setRequests, h]

@[simp] theorem Tree.requests_setFinished (t : Tree) (d : Dir) :
    (t.setFinished d).requests = t.requests := by
  cases h : t.jobs with
  | none => simp [Tree.requests, Tree.setFinished, h]
  | some j => simp [Tree.requests, Tree.setFinished, h]

@[simp] theorem Tree.finished_setFinished (t : Tree) (d : Dir) :
    (t.setFinished d).finished = t.finished.map fun _ => d := by
  cases h : t.jobs with
  | none => simp [Tree.finished, Tree.setFinished, h]
  | some j => simp [Tree.finished, Tree.setFinished, h]

structure DataBase where
  m_rootDir : Bytes
  m_jobs_requests_dir : Bytes
  m_jobs_finished_dir : Bytes
  m_scriptDir : Bytes
  m_targetDir : Bytes
  m_repoUrl : Bytes
  m_jobId : Int := 0

/-- `while (fs::exists(requests/lastId)) lastId++`. Every round passes another file of the
directory, so that as many rounds as it has files are enough (`scanRequests_eq`). -/
def scanRequests (requests : Dir) : Nat → Int → Int
  | 0, lastId => lastId
  | fuel + 1, lastId =>
    if decimal lastId ∈ requests then scanRequests requests fuel (int32 (lastId + 1)) else lastId

/- A missing requests directory has none of the files. -/
def lastId (t : Tree) : Int :=
  match t.requests with
  | none => 0
  | some requests => scanRequests requests (size requests) 0

/- `getScripts.sh`: `rm -rf repo`, then `git clone`; the argument is what the clone left there. -/
def cloneScriptRepo (t : Tree) (cloned : Option Repo) : Tree := { t with repo := cloned }

/-- `DataBase::DataBase(root, repo)` -/
def DataBase.construct (root repo : Bytes) (t : Tree) (cloned : Option Repo) : DataBase × Tree :=
  let db : DataBase :=
    { m_rootDir := root
      m_jobs_requests_dir := root ++ text "/jobs/requests"
      m_jobs_finished_dir := root ++ text "/jobs/finished"
      m_scriptDir := root ++ text "/repo/scripts"
      m_targetDir := root ++ text "/repo/targets"
      m_repoUrl := repo }
  match t.jobs with
  | none => (db, cloneScriptRepo { t with jobs := some ⟨some ∅, some ∅⟩ } cloned)
  | some _ => ({ db with m_jobId := lastId t }, cloneScriptRepo t cloned)

/- A store in an empty root directory, for the sample runs. -/
def emptyStore : DataBase × Tree :=
  DataBase.construct (text "/opt") (text "repo") ⟨none, ∅, none⟩ none

/-- `DataBase::newJob`. The stream is never checked: the id is handed out and the counter moves
on whatever became of the request file. -/
def DataBase.newJob (db : DataBase) (t : Tree) (requestJson : Bytes) (w : Storing) :
    Int × DataBase × Tree :=
  let newJobId := db.m_jobId
  let newRequest := decimal newJobId
  let t' := match t.requests with
    | none => t
    | some requests => t.setRequests (store requests newRequest requestJson w)
  (newJobId, { db with m_jobId := int32 (db.m_jobId + 1) }, t')

@[simp] theorem DataBase.newJob_m_jobId (db : DataBase) (t : Tree) (json : Bytes) (w : Storing) :
    (db.newJob t json w).2.1.m_jobId = int32 (db.m_jobId + 1) := rfl

section
variable {requests : Dir} {m : Nat} (hm : m < 2147483648) (hfree : decimal m ∉ requests)
  (hbelow : ∀ i : Nat, i < m → decimal i ∈ requests)

include hbelow in
theorem le_size_of_below : m ≤ size requests := by
  have hlen := length_le_size (m := requests) (decimal_range_nodup m) (by simpa using hbelow)
  simpa using hlen

include hm hfree hbelow in
/-- The scan ends at the first missing name. -/
theorem scanRequests_eq (fuel n : Nat) (hn : n ≤ m) (hfuel : m ≤ n + fuel) :
    scanRequests requests fuel n = m := by
  induction fuel generalizing n with
  | zero =>
    obtain rfl : n = m := by omega
    rfl
  | succ fuel ih =>
    by_cases heq : n = m
    · subst heq
      simp [scanRequests, hfree]
    · have hwrap : int32 ((n : Int) + 1) = ((n + 1 : Nat) : Int) := by
        rw [int32_eq_self] <;> unfold InInt at * <;> omega
      rw [scanRequests, if_pos (hbelow n (by omega)), hwrap]
      exact ih (n + 1) (by omega) (by omega)

include hm hfree hbelow in
theorem lastId_eq {t : Tree} (h : t.requests = some requests) : lastId t = m := by
  simp only [lastId, h]
  exact scanRequests_eq hm hfree hbelow (size requests) 0 (by omega)
    (by have := le_size_of_below hbelow; omega)

end

/-- The scan finds the number of requests that are numbered without a gap. -/
theorem lastId_of_numbered {t : Tree} {requests : Dir} {n : Nat} (h : t.requests = some requests)
    (hn : n < 2147483648)
    (hmem : ∀ id, 0 ≤ id → InInt id → (decimal id ∈ requests ↔ id < n)) :
    decimal n ∉ requests ∧ lastId t = n := by
  have hfree : decimal n ∉ requests := by
    rw [hmem n (by omega) ⟨by omega, by omega⟩]
    omega
  have hbelow : ∀ i : Nat, i < n → decimal i ∈ requests := fun i hi =>
    (hmem i (by omega) ⟨by omega, by omega⟩).mpr (by omega)
  exact ⟨hfree, lastId_eq hn hfree hbelow h⟩

end OpcUaTestTool.Store
