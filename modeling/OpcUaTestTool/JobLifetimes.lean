import OpcUaTestTool.Store
import OpcUaTestTool.Transition

/-! The job ids over all lifetimes of the service. The files stay when the process is killed; the
counter is lost, and the next constructor reads it back from the names of the request files. -/
namespace OpcUaTestTool.JobLifetimes
open FiniteMap Numerals Directory Store Transition

/- How far a call of `newJob` has come. -/
inductive Phase where
  | entered
  | writing (out : Stream)
  | closed
  | incremented

structure Call where
  newJobId : Int
  requestJson : Bytes
  phase : Phase := .entered

structure Process where
  db : DataBase
  call : Option Call := none

/- The files, the process if one is running, the number of calls of `newJob` made so far, and
the ids they returned with the JSON each was given, oldest first. -/
structure Lifetimes where
  tree : Tree
  process : Option Process := none
  calls : Nat := 0
  returned : List (Int × Bytes) := []

inductive Action where
  | construct (cloned : Option Repo)
  | newJob (requestJson : Bytes)
  | openRequest
  | write (n : Nat)
  | close
  | increment
  | returnId
  | kill

def Call.moveTo (c : Call) (phase : Phase) : Option Call := some { c with phase := phase }

/- A statement of `newJob`, in the phase it belongs to. -/
def statement (s : Lifetimes) (db : DataBase) (c : Call) : Action → Phase → Option Lifetimes
  | .openRequest, .entered =>
    match s.tree.requests with
    | none => none
    | some requests =>
      some { s with
        tree := s.tree.setRequests (openTruncate requests (decimal c.newJobId))
        process := some ⟨db, c.moveTo (.writing ⟨decimal c.newJobId, c.requestJson⟩)⟩ }
  | .write n, .writing out =>
    match s.tree.requests with
    | none => none
    | some requests =>
      some { s with
        tree := s.tree.setRequests (out.write n requests).2
        process := some ⟨db, c.moveTo (.writing (out.write n requests).1)⟩ }
  | .close, .writing out =>
    if out.rest = [] then some { s with process := some ⟨db, c.moveTo .closed⟩ } else none
  | .increment, .closed =>
    some { s with
      process := some ⟨{ db with m_jobId := int32 (db.m_jobId + 1) }, c.moveTo .incremented⟩ }
  | .returnId, .incremented =>
    some { s with
      process := some ⟨db, none⟩
      returned := s.returned ++ [(c.newJobId, c.requestJson)] }
  | _, _ => none

variable (root repo : Bytes)

def step (s : Lifetimes) (a : Action) : Option Lifetimes :=
  match s.process, a with
  | none, .construct cloned =>
    let (db, tree) := DataBase.construct root repo s.tree cloned
    some { s with tree := tree, process := some ⟨db, none⟩ }
  | some _, .kill => some { s with process := none }
  | some ⟨db, none⟩, .newJob requestJson =>
    some { s with
      process := some ⟨db, some ⟨db.m_jobId, requestJson, .entered⟩⟩
      calls := s.calls + 1 }
  | some ⟨db, some c⟩, a => statement s db c a c.phase
  | _, _ => none

/-- A root directory without a jobs directory, before the first start. -/
def init (logs : Dir) (cloned : Option Repo) : Lifetimes := { tree := ⟨none, logs, cloned⟩ }

/-- The request files; none as long as their directory is missing. -/
def requestFiles (t : Tree) : Dir := t.requests.getD ∅

theorem requestFiles_setRequests {t : Tree} {requests : Dir} (h : t.requests = some requests)
    (d : Dir) : requestFiles (t.setRequests d) = d := by
  simp [requestFiles, h]

/-- The request files are named 0 to n - 1. -/
def Numbered (d : Dir) (n : Nat) : Prop := d.keys.Perm ((List.range n).map fun i : Nat => decimal i)

theorem Numbered.mem_iff {d : Dir} {n : Nat} (h : Numbered d n) (i : Int) :
    decimal i ∈ d ↔ 0 ≤ i ∧ i < n := by
  rw [AList.mem_keys, List.Perm.mem_iff h, List.mem_map]
  constructor
  · rintro ⟨k, hk, he⟩
    obtain rfl := decimal_injective he
    have := List.mem_range.mp hk
    omega
  · rintro ⟨h0, hn⟩
    exact ⟨i.toNat, List.mem_range.mpr (by omega), by rw [Int.toNat_of_nonneg h0]⟩

theorem Numbered.insert {d : Dir} {n : Nat} (h : Numbered d n) (content : Bytes) :
    Numbered (d.insert (decimal n) content) (n + 1) := by
  have hfresh : decimal n ∉ d := by
    rw [h.mem_iff]
    omega
  have hkeys : (d.insert (decimal n) content).keys = decimal n :: d.keys := by
    rw [AList.keys, AList.entries_insert_of_notMem hfresh]
    rfl
  rw [Numbered, hkeys, List.range_succ, List.map_append]
  exact (h.cons _).trans (List.perm_append_singleton _ _).symm

theorem Numbered.size_eq {d : Dir} {n : Nat} (h : Numbered d n) : size d = n := by
  simpa [size] using h.length_eq

/-- The scan of the constructor finds the number of the files. -/
theorem Numbered.lastId_eq {t : Tree} {requests : Dir} {n : Nat} (h : Numbered requests n)
    (ht : t.requests = some requests) (hn : n < 2147483648) : lastId t = n := by
  refine (lastId_of_numbered ht hn fun id h0 _ => ?_).2
  rw [h.mem_iff]
  omega

/-- What a process and its call of `newJob` know of `n` request files. -/
def Holds (calls : Nat) (d : Dir) (n : Nat) (db : DataBase) : Option Call → Prop
  | none => db.m_jobId = n
  | some c =>
    match c.phase with
    | .entered => db.m_jobId = n ∧ c.newJobId = n ∧ n < calls
    | .writing out => db.m_jobId = c.newJobId ∧ c.newJobId + 1 = n ∧
        out.name = decimal c.newJobId ∧ out.Fills d c.requestJson
    | .closed => db.m_jobId = c.newJobId ∧ c.newJobId + 1 = n ∧
        d.lookup (decimal c.newJobId) = some c.requestJson
    | .incremented => db.m_jobId = n ∧ c.newJobId + 1 = n ∧
        d.lookup (decimal c.newJobId) = some c.requestJson

structure Consistent (s : Lifetimes) (n : Nat) : Prop where
  present : s.process = none ∧ s.tree.jobs = none ∨ ∃ requests, s.tree.requests = some requests
  numbered : Numbered (requestFiles s.tree) n
  calls : n ≤ s.calls
  holds : ∀ p, s.process = some p → Holds s.calls (requestFiles s.tree) n p.db p.call
  increasing : s.returned.Pairwise fun r r' => r.1 < r'.1
  stored : ∀ r ∈ s.returned, r.1 < n ∧ (requestFiles s.tree).lookup (decimal r.1) = some r.2
  pending : ∀ p c, s.process = some p → p.call = some c → ∀ r ∈ s.returned, r.1 < c.newJobId

theorem Consistent.requests {s : Lifetimes} {n : Nat} {p : Process} (h : Consistent s n)
    (hp : s.process = some p) : s.tree.requests = some (requestFiles s.tree) := by
  cases h.present with
  | inl hcase =>
    obtain ⟨hnone, _⟩ := hcase
    simp [hp] at hnone
  | inr hcase =>
    obtain ⟨requests, hr⟩ := hcase
    simp [requestFiles, hr]

variable {root repo}

/-- A process that starts with the number of the request files as its next id. -/
theorem Consistent.start {s : Lifetimes} {n : Nat} (h : Consistent s n) {t : Tree}
    {requests : Dir} {db : DataBase} (hr : t.requests = some requests)
    (hfiles : requestFiles s.tree = requests) (hid : db.m_jobId = n) :
    Consistent { s with tree := t, process := some ⟨db, none⟩ } n := by
  have hsame : requestFiles t = requestFiles s.tree := by simp [requestFiles, hr, ← hfiles]
  refine ⟨Or.inr ⟨requests, hr⟩, ?_, h.calls, ?_, h.increasing, ?_, ?_⟩
  · rw [hsame]
    exact h.numbered
  · intro p hp
    obtain rfl := Option.some.inj hp
    exact hid
  · rw [hsame]
    exact h.stored
  · intro p c hp hc
    obtain rfl := Option.some.inj hp
    simp at hc

theorem consistent_construct {s t : Lifetimes} {n : Nat} {cloned : Option Repo}
    (h : Consistent s n) (hcalls : s.calls < 2147483648) (hp : s.process = none)
    (hs : step root repo s (.construct cloned) = some t) : Consistent t n := by
  have hle := h.calls
  simp only [step, hp, Option.some.injEq] at hs
  subst t
  cases hj : s.tree.jobs with
  | none =>
    have hfiles : requestFiles s.tree = ∅ := by simp [requestFiles, Tree.requests, hj]
    have hn : n = 0 := by
      rw [← h.numbered.size_eq, hfiles]
      rfl
    apply h.start _ hfiles
    · simp [DataBase.construct, hj, hn]
    · simp [DataBase.construct, cloneScriptRepo, Tree.requests, hj]
  | some jobs =>
    obtain ⟨requests, hr⟩ : ∃ requests, s.tree.requests = some requests := by
      cases h.present with
      | inl hfresh => simp [hj] at hfresh
      | inr hr => exact hr
    have hfiles : requestFiles s.tree = requests := by simp [requestFiles, hr]
    have hid : lastId s.tree = n := by
      apply Numbered.lastId_eq _ hr (by omega)
      rw [← hfiles]
      exact h.numbered
    apply h.start _ hfiles
    · simpa [DataBase.construct, hj] using hid
    · rw [← hr]
      simp [DataBase.construct, cloneScriptRepo, Tree.requests, hj]

/-- A step inside the process that leaves the files alone. -/
theorem Consistent.moveTo {s : Lifetimes} {n calls : Nat} (h : Consistent s n) {db : DataBase}
    {call : Option Call} (hle : s.calls ≤ calls) (htree : s.tree.requests ≠ none)
    (hholds : Holds calls (requestFiles s.tree) n db call)
    (hpending : ∀ c, call = some c → ∀ r ∈ s.returned, r.1 < c.newJobId) :
    Consistent { s with process := some ⟨db, call⟩, calls := calls } n := by
  refine ⟨?_, h.numbered, h.calls.trans hle, ?_, h.increasing, h.stored, ?_⟩
  · right
    exact Option.ne_none_iff_exists'.mp htree
  · intro p hp
    obtain rfl := Option.some.inj hp
    exact hholds
  · intro p c hp hc
    obtain rfl := Option.some.inj hp
    exact hpending c hc

/-- Opening the request file of the call creates the next name. -/
theorem consistent_openRequest {s : Lifetimes} {n : Nat} {db : DataBase} {c : Call}
    (h : Consistent s n) (hp : s.process = some ⟨db, some c⟩) (hc : c.phase = .entered) :
    Consistent { s with
      tree := s.tree.setRequests (openTruncate (requestFiles s.tree) (decimal c.newJobId))
      process := some ⟨db, c.moveTo (.writing ⟨decimal c.newJobId, c.requestJson⟩)⟩ } (n + 1) := by
  have hholds := h.holds _ hp
  simp only [Holds, hc] at hholds
  obtain ⟨hdb, hid, hlt⟩ := hholds
  have hfiles := requestFiles_setRequests (h.requests hp)
  refine ⟨?_, ?_, hlt, ?_, h.increasing, ?_, ?_⟩
  · right
    exact ⟨_, by rw [Tree.requests_setRequests, h.requests hp, Option.map_some]⟩
  · rw [hfiles, hid]
    exact h.numbered.insert []
  · intro p hp'
    obtain rfl := Option.some.inj hp'
    rw [hfiles]
    exact ⟨hdb.trans hid.symm, by rw [hid]; rfl, rfl, Stream.fills_open _ _ _⟩
  · intro r hr
    obtain ⟨hlt, hlookup⟩ := h.stored r hr
    have hne : decimal r.1 ≠ decimal c.newJobId := by
      intro he
      have := decimal_injective he
      omega
    rw [hfiles, lookup_openTruncate_ne hne]
    exact ⟨by omega, hlookup⟩
  · intro p c' hp' hc' r hr
    obtain rfl := Option.some.inj hp'
    obtain rfl := Option.some.inj hc'
    exact h.pending _ c hp rfl r hr

theorem consistent_write {s : Lifetimes} {n k : Nat} {db : DataBase} {c : Call} {out : Stream}
    (h : Consistent s n) (hp : s.process = some ⟨db, some c⟩) (hc : c.phase = .writing out) :
    Consistent { s with
      tree := s.tree.setRequests (out.write k (requestFiles s.tree)).2
      process := some ⟨db, c.moveTo (.writing (out.write k (requestFiles s.tree)).1)⟩ } n := by
  have hholds := h.holds _ hp
  simp only [Holds, hc] at hholds
  obtain ⟨hdb, hid, hname, hfills⟩ := hholds
  have hfiles := requestFiles_setRequests (h.requests hp)
  refine ⟨?_, ?_, h.calls, ?_, h.increasing, ?_, ?_⟩
  · right
    exact ⟨_, by rw [Tree.requests_setRequests, h.requests hp, Option.map_some]⟩
  · rw [hfiles]
    exact (keys_append_perm _ _ _).trans h.numbered
  · intro p hp'
    obtain rfl := Option.some.inj hp'
    rw [hfiles]
    exact ⟨hdb, hid, hname, hfills.write k⟩
  · intro r hr
    have hlt := h.pending _ c hp rfl r hr
    have hne : decimal r.1 ≠ out.name := by
      rw [hname]
      intro he
      have := decimal_injective he
      omega
    rw [hfiles, Stream.write, lookup_append_ne _ hne]
    exact h.stored r hr
  · intro p c' hp' hc' r hr
    obtain rfl := Option.some.inj hp'
    obtain rfl := Option.some.inj hc'
    exact h.pending _ c hp rfl r hr

theorem consistent_returnId {s : Lifetimes} {n : Nat} {db : DataBase} {c : Call}
    (h : Consistent s n) (hp : s.process = some ⟨db, some c⟩) (hc : c.phase = .incremented) :
    Consistent { s with
      process := some ⟨db, none⟩
      returned := s.returned ++ [(c.newJobId, c.requestJson)] } n := by
  have hholds := h.holds _ hp
  simp only [Holds, hc] at hholds
  obtain ⟨hdb, hid, hlookup⟩ := hholds
  refine ⟨?_, h.numbered, h.calls, ?_, ?_, ?_, ?_⟩
  · right
    exact ⟨_, h.requests hp⟩
  · intro p hp'
    obtain rfl := Option.some.inj hp'
    exact hdb
  · apply List.pairwise_append.mpr
    refine ⟨h.increasing, List.pairwise_singleton _ _, ?_⟩
    intro r hr r' hr'
    obtain rfl := List.mem_singleton.mp hr'
    exact h.pending _ c hp rfl r hr
  · intro r hr
    cases List.mem_append.mp hr with
    | inl hr => exact h.stored r hr
    | inr hr =>
      obtain rfl := List.mem_singleton.mp hr
      exact ⟨by simp only; omega, hlookup⟩
  · intro p c' hp' hc'
    obtain rfl := Option.some.inj hp'
    simp at hc'

/-- Everything a statement of `newJob` can do. -/
theorem statement_cases {s t : Lifetimes} {db : DataBase} {c : Call} {a : Action}
    (hs : statement s db c a c.phase = some t) :
    (∃ requests, c.phase = .entered ∧ s.tree.requests = some requests ∧
      t = { s with
        tree := s.tree.setRequests (openTruncate requests (decimal c.newJobId))
        process := some ⟨db, c.moveTo (.writing ⟨decimal c.newJobId, c.requestJson⟩)⟩ }) ∨
    (∃ out n requests, c.phase = .writing out ∧ s.tree.requests = some requests ∧
      t = { s with
        tree := s.tree.setRequests (out.write n requests).2
        process := some ⟨db, c.moveTo (.writing (out.write n requests).1)⟩ }) ∨
    (∃ out, c.phase = .writing out ∧ out.rest = [] ∧
      t = { s with process := some ⟨db, c.moveTo .closed⟩ }) ∨
    (c.phase = .closed ∧
      t = { s with
        process := some ⟨{ db with m_jobId := int32 (db.m_jobId + 1) }, c.moveTo .incremented⟩ }) ∨
    (c.phase = .incremented ∧
      t = { s with
        process := some ⟨db, none⟩
        returned := s.returned ++ [(c.newJobId, c.requestJson)] }) := by
  generalize c.phase = phase at hs
  unfold statement at hs
  split at hs
  · cases hr : s.tree.requests with
    | none => simp [hr] at hs
    | some requests =>
      simp only [hr, Option.some.injEq] at hs
      exact Or.inl ⟨requests, rfl, rfl, hs.symm⟩
  · rename_i n out
    cases hr : s.tree.requests with
    | none => simp [hr] at hs
    | some requests =>
      simp only [hr, Option.some.injEq] at hs
      exact Or.inr (Or.inl ⟨out, n, requests, rfl, rfl, hs.symm⟩)
  · rename_i out
    simp only [Option.ite_none_right_eq_some, Option.some.injEq] at hs
    exact Or.inr (Or.inr (Or.inl ⟨out, rfl, hs.1, hs.2.symm⟩))
  · simp only [Option.some.injEq] at hs
    exact Or.inr (Or.inr (Or.inr (Or.inl ⟨rfl, hs.symm⟩)))
  · simp only [Option.some.injEq] at hs
    exact Or.inr (Or.inr (Or.inr (Or.inr ⟨rfl, hs.symm⟩)))
  · cases hs

theorem consistent_statement {s t : Lifetimes} {n : Nat} {db : DataBase} {c : Call} {a : Action}
    (h : Consistent s n) (hcalls : s.calls < 2147483648) (hp : s.process = some ⟨db, some c⟩)
    (hs : statement s db c a c.phase = some t) : ∃ m, Consistent t m := by
  have hholds := h.holds _ hp
  have hpending (phase : Phase) : ∀ c', c.moveTo phase = some c' →
      ∀ r ∈ s.returned, r.1 < c'.newJobId := by
    intro c' hc'
    obtain rfl := Option.some.inj hc'
    exact h.pending _ c hp rfl
  have hrequests := h.requests hp
  have hpresent : s.tree.requests ≠ none := by simp [hrequests]
  have hle := h.calls
  obtain ⟨requests, hc, hr, rfl⟩ | ⟨out, k, requests, hc, hr, rfl⟩ | ⟨out, hc, hrest, rfl⟩ |
    ⟨hc, rfl⟩ | ⟨hc, rfl⟩ := statement_cases hs
  · obtain rfl : requestFiles s.tree = requests := Option.some.inj (hrequests.symm.trans hr)
    exact ⟨n + 1, consistent_openRequest h hp hc⟩
  · obtain rfl : requestFiles s.tree = requests := Option.some.inj (hrequests.symm.trans hr)
    exact ⟨n, consistent_write h hp hc⟩
  · simp only [Holds, hc] at hholds
    obtain ⟨hdb, hid, hname, hfills⟩ := hholds
    exact ⟨n, h.moveTo le_rfl hpresent ⟨hdb, hid, hname ▸ hfills.complete hrest⟩ (hpending .closed)⟩
  · simp only [Holds, hc] at hholds
    obtain ⟨hdb, hid, hlookup⟩ := hholds
    have hwrap : int32 (db.m_jobId + 1) = n := by
      rw [hdb, hid, int32_eq_self]
      constructor <;> omega
    exact ⟨n, h.moveTo le_rfl hpresent ⟨hwrap, hid, hlookup⟩ (hpending .incremented)⟩
  · exact ⟨n, consistent_returnId h hp hc⟩

/-- As long as fewer than 2^31 calls were made, the files, the counter and the ids agree. -/
def Sound (s : Lifetimes) : Prop := s.calls < 2147483648 → ∃ n, Consistent s n

theorem sound_init (logs : Dir) (cloned : Option Repo) : Sound (init logs cloned) := by
  intro _
  refine ⟨0, Or.inl ⟨rfl, rfl⟩, List.Perm.refl _, le_rfl, ?_, List.Pairwise.nil, ?_, ?_⟩
  · simp [init]
  · simp [init]
  · simp [init]

theorem calls_statement {s t : Lifetimes} {db : DataBase} {c : Call} {a : Action}
    (hs : statement s db c a c.phase = some t) : t.calls = s.calls := by
  obtain ⟨_, _, _, rfl⟩ | ⟨_, _, _, _, _, rfl⟩ | ⟨_, _, _, rfl⟩ | ⟨_, rfl⟩ | ⟨_, rfl⟩ :=
    statement_cases hs
  all_goals rfl

/-- A process that is killed leaves its files and the ids that were returned. -/
theorem consistent_kill {s : Lifetimes} {n : Nat} {p : Process} (h : Consistent s n)
    (hp : s.process = some p) : Consistent { s with process := none } n :=
  ⟨Or.inr ⟨_, h.requests hp⟩, h.numbered, h.calls, by simp, h.increasing, h.stored, by simp⟩

theorem consistent_newJob {s : Lifetimes} {n : Nat} {db : DataBase} (h : Consistent s n)
    (hp : s.process = some ⟨db, none⟩) (requestJson : Bytes) :
    Consistent { s with
      process := some ⟨db, some ⟨db.m_jobId, requestJson, .entered⟩⟩
      calls := s.calls + 1 } n := by
  have hid : db.m_jobId = n := h.holds _ hp
  have hle := h.calls
  refine h.moveTo (by omega) (by simp [h.requests hp]) ⟨hid, hid, by omega⟩ ?_
  intro c hc r hr
  obtain rfl := Option.some.inj hc
  have hlt := (h.stored r hr).1
  simp only
  omega

theorem sound_step {s t : Lifetimes} {a : Action} (h : Sound s)
    (hs : step root repo s a = some t) : Sound t := by
  cases hp : s.process with
  | none =>
    cases a
    case construct cloned =>
      have hcalls : t.calls = s.calls := by
        simp only [step, hp, Option.some.injEq] at hs
        exact hs ▸ rfl
      intro hlt
      obtain ⟨n, hn⟩ := h (by omega)
      exact ⟨n, consistent_construct hn (by omega) hp hs⟩
    all_goals simp [step, hp] at hs
  | some p =>
    obtain ⟨db, call⟩ := p
    cases a
    case kill =>
      simp only [step, hp, Option.some.injEq] at hs
      subst t
      intro hlt
      obtain ⟨n, hn⟩ := h hlt
      exact ⟨n, consistent_kill hn hp⟩
    case newJob requestJson =>
      cases call with
      | none =>
        simp only [step, hp, Option.some.injEq] at hs
        subst t
        intro hlt
        obtain ⟨n, hn⟩ := h (Nat.lt_of_succ_lt hlt)
        exact ⟨n, consistent_newJob hn hp requestJson⟩
      | some c =>
        simp [step, hp, statement] at hs
    all_goals
      cases call with
      | none => simp [step, hp] at hs
      | some c =>
        simp only [step, hp] at hs
        have hcalls := calls_statement hs
        intro hlt
        obtain ⟨n, hn⟩ := h (by omega)
        exact consistent_statement hn (by omega) hp hs

/-- The writes of a call carry its text into the file, however they divide it. -/
theorem run_writes {s : Lifetimes} {t : Tree} {requests d : Dir} {db : DataBase} {newJobId : Int}
    {requestJson name : Bytes} (ns : List Nat) (ht : t.requests = some requests)
    (written rest : Bytes) (htree : s.tree = t.setRequests (d.insert name written))
    (hp : s.process = some ⟨db, some ⟨newJobId, requestJson, .writing ⟨name, rest⟩⟩⟩) :
    run (step root repo) s (ns.map .write) = some { s with
      tree := t.setRequests (d.insert name (written ++ rest.take ns.sum))
      process := some ⟨db, some ⟨newJobId, requestJson, .writing ⟨name, rest.drop ns.sum⟩⟩⟩ } := by
  induction ns generalizing s written rest with
  | nil =>
    simp only [List.map_nil, run_nil, List.sum_nil, List.take_zero, List.drop_zero,
      List.append_nil, ← htree, ← hp]
  | cons n ns ih =>
    have hstep : step root repo s (.write n) = some { s with
        tree := t.setRequests (d.insert name (written ++ rest.take n))
        process := some ⟨db, some ⟨newJobId, requestJson, .writing ⟨name, rest.drop n⟩⟩⟩ } := by
      simp [step, hp, statement, htree, ht, Stream.write, append, Call.moveTo]
    rw [List.map_cons, run, hstep, Option.bind_some, ih _ _ rfl rfl, List.sum_cons,
      List.drop_drop, List.append_assoc, List.take_add]

/-- A call that is not interrupted does what `DataBase.newJob` says, in any number of writes. -/
theorem run_newJob {s : Lifetimes} {requests : Dir} {db : DataBase} (ns : List Nat)
    (requestJson : Bytes) (hp : s.process = some ⟨db, none⟩)
    (hr : s.tree.requests = some requests) (hns : requestJson.length ≤ ns.sum) :
    run (step root repo) s
      ([Action.newJob requestJson, .openRequest] ++ ns.map Action.write ++
        [Action.close, .increment, .returnId]) =
    some {
      tree := (db.newJob s.tree requestJson .stored).2.2
      process := some ⟨(db.newJob s.tree requestJson .stored).2.1, none⟩
      calls := s.calls + 1
      returned := s.returned ++ [((db.newJob s.tree requestJson .stored).1, requestJson)] } := by
  have hopen : run (step root repo) s [.newJob requestJson, .openRequest] = some { s with
      tree := s.tree.setRequests (requests.insert (decimal db.m_jobId) [])
      process := some ⟨db, some ⟨db.m_jobId, requestJson,
        .writing ⟨decimal db.m_jobId, requestJson⟩⟩⟩
      calls := s.calls + 1 } := by
    simp [run, step, hp, statement, hr, Call.moveTo, openTruncate]
  rw [run_append, run_append, hopen, Option.bind_some, run_writes ns hr [] requestJson rfl rfl,
    Option.bind_some, List.nil_append, List.take_of_length_le hns, List.drop_eq_nil_of_le hns]
  simp only [DataBase.newJob, hr, store]
  rfl

/-- Over all lifetimes the returned ids increase, the request files are named 0 to n - 1, an idle
process, as the constructor leaves it, has n as its next id, a call opens a name that does not
exist, and each returned id's file holds the JSON given to the call. A file that is created takes
all of its request, unless the process is killed. -/
theorem ids_across_lifetimes (root repo : Bytes) (logs : Dir) (cloned : Option Repo)
    (as : List Action) (s : Lifetimes)
    (hrun : run (step root repo) (init logs cloned) as = some s)
    (hcalls : s.calls < 2147483648) :
    s.returned.Pairwise (fun r r' => r.1 < r'.1) ∧
    ∃ n : Nat, (requestFiles s.tree).keys.Perm ((List.range n).map fun i : Nat => decimal i) ∧
      (∀ p, s.process = some p → p.call = none → p.db.m_jobId = n) ∧
      (∀ p c, s.process = some p → p.call = some c → c.phase = .entered →
        decimal c.newJobId ∉ requestFiles s.tree) ∧
      (∀ r ∈ s.returned, (requestFiles s.tree).lookup (decimal r.1) = some r.2) := by
  have hsound : Sound s :=
    run_invariant (fun _ _ _ h hs => sound_step h hs) (sound_init logs cloned) hrun
  obtain ⟨n, hn⟩ := hsound hcalls
  refine ⟨hn.increasing, n, hn.numbered, ?_, ?_, fun r hr => (hn.stored r hr).2⟩
  · intro p hp hidle
    have hholds := hn.holds p hp
    rwa [hidle] at hholds
  · intro p c hp hcall hc
    have hholds := hn.holds p hp
    simp only [hcall, Holds, hc] at hholds
    rw [hn.numbered.mem_iff]
    omega

/- Killed with the second request file half written; the third call gets the next id. -/
def killedWhileWriting : List Action :=
  [.construct none, .newJob (text "ab"), .openRequest, .write 2, .close, .increment, .returnId,
    .newJob (text "cd"), .openRequest, .write 1, .kill, .construct none, .newJob (text "ef"),
    .openRequest, .write 1, .write 1, .close, .increment, .returnId]

theorem ids_across_lifetimes_sample :
    ∃ s, run (step (text "/opt") (text "repo")) (init ∅ none) killedWhileWriting = some s ∧
      s.returned = [(0, text "ab"), (2, text "ef")] ∧
      (requestFiles s.tree).lookup (decimal 1) = some (text "c") ∧
      s.returned.Pairwise (fun r r' => r.1 < r'.1) :=
  ⟨_, rfl, rfl, rfl, (ids_across_lifetimes (text "/opt") (text "repo") ∅ none killedWhileWriting
    _ rfl (by decide)).1⟩

end OpcUaTestTool.JobLifetimes
