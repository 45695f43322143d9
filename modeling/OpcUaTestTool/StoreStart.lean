import OpcUaTestTool.Store

/-! What `newJob` relies on, and the file trees from which `DataBase::DataBase` establishes it: it
looks at the jobs directory only, and for the next id at the names up to the first gap. -/
namespace OpcUaTestTool.StoreStart
open FiniteMap Numerals Directory Store

/- Both directories are there, and the next id is above those of all request files. -/
structure StoreInvariant (db : DataBase) (t : Tree) : Prop where
  requests : t.requests ≠ none
  finished : t.finished ≠ none
  above : ∀ requests, t.requests = some requests → ∀ id, InInt id → decimal id ∈ requests →
    id < db.m_jobId

/-- The next `newJob` has a directory to write to and overwrites none of its files. -/
def NextJobFits (db : DataBase) (t : Tree) : Prop :=
  ∃ requests, t.requests = some requests ∧ decimal db.m_jobId ∉ requests ∧
    ∀ requestJson, (db.newJob t requestJson .stored).2.2.requests =
      some (requests.insert (decimal db.m_jobId) requestJson)

def Established (db : DataBase) (t : Tree) : Prop := StoreInvariant db t ∧ NextJobFits db t

/-- The jobs directory is missing as a whole, or it has both directories, with the requests
numbered from 0 on without a gap. -/
def Startable (t : Tree) : Prop :=
  t.jobs = none ∨ (t.finished ≠ none ∧ ∃ requests, t.requests = some requests ∧
    ∃ n : Nat, n < 2147483648 ∧ ∀ id, 0 ≤ id → InInt id → (decimal id ∈ requests ↔ id < n))

/-! ### The scan -/

theorem scanRequests_inInt (requests : Dir) (fuel : Nat) {lastId : Int} (h : InInt lastId) :
    InInt (scanRequests requests fuel lastId) := by
  induction fuel generalizing lastId with
  | zero => exact h
  | succ fuel ih =>
    rw [scanRequests]
    split
    · exact ih (int32_inInt _)
    · exact h

theorem lastId_inInt (t : Tree) : InInt (lastId t) := by
  unfold lastId
  cases t.requests with
  | none => exact (by decide : InInt 0)
  | some requests => exact scanRequests_inInt requests _ (by decide)

/-! ### The constructor -/

theorem construct_new {t : Tree} (h : t.jobs = none) (root repo : Bytes) (cloned : Option Repo) :
    (DataBase.construct root repo t cloned).1.m_jobId = 0 ∧
    (DataBase.construct root repo t cloned).2.requests = some ∅ ∧
    (DataBase.construct root repo t cloned).2.finished = some ∅ := by
  simp [DataBase.construct, h, cloneScriptRepo, Tree.requests, Tree.finished]

theorem construct_old {t : Tree} (h : t.jobs ≠ none) (root repo : Bytes) (cloned : Option Repo) :
    (DataBase.construct root repo t cloned).1.m_jobId = lastId t ∧
    (DataBase.construct root repo t cloned).2.requests = t.requests ∧
    (DataBase.construct root repo t cloned).2.finished = t.finished := by
  obtain ⟨jobs, hjobs⟩ := Option.ne_none_iff_exists'.mp h
  simp [DataBase.construct, hjobs, cloneScriptRepo, Tree.requests, Tree.finished]

/-- An invariant with an `int` as the next id leaves room for the next job. -/
theorem StoreInvariant.nextJobFits {db : DataBase} {t : Tree} (h : StoreInvariant db t)
    (hint : InInt db.m_jobId) : NextJobFits db t := by
  obtain ⟨requests, hr⟩ := Option.ne_none_iff_exists'.mp h.requests
  refine ⟨requests, hr, fun hmem => ?_, fun requestJson => ?_⟩
  · have := h.above requests hr db.m_jobId hint hmem
    omega
  · simp [DataBase.newJob, hr, store]

theorem established_of_new {t : Tree} (h : t.jobs = none) (root repo : Bytes)
    (cloned : Option Repo) : Established (DataBase.construct root repo t cloned).1
      (DataBase.construct root repo t cloned).2 := by
  obtain ⟨hid, hr, hf⟩ := construct_new h root repo cloned
  have hinv : StoreInvariant (DataBase.construct root repo t cloned).1
      (DataBase.construct root repo t cloned).2 := by
    refine ⟨by simp [hr], by simp [hf], fun requests hrequests id _ hmem => ?_⟩
    rw [hr, Option.some.injEq] at hrequests
    exact absurd (hrequests ▸ hmem) (AList.notMem_empty _)
  exact ⟨hinv, hinv.nextJobFits (by rw [hid]; decide)⟩

/-- The requests the scan can number: those before the first gap, and no others. -/
theorem above_iff {t : Tree} {requests : Dir} (h : t.requests = some requests) :
    (∀ id, InInt id → decimal id ∈ requests → id < lastId t) ↔
      ∃ n : Nat, n < 2147483648 ∧ ∀ id, 0 ≤ id → InInt id → (decimal id ∈ requests ↔ id < n) := by
  constructor
  · intro habove
    have hmissing : ∃ k : Nat, k < 2147483648 ∧ decimal k ∉ requests := by
      by_contra hall
      have hlast := habove 2147483647 (by decide) (by
        by_contra hnot
        exact hall ⟨2147483647, by omega, hnot⟩)
      have hint := lastId_inInt t
      unfold InInt at hint
      omega
    have hfind : ∃ k : Nat, decimal k ∉ requests := hmissing.imp fun k hk => hk.2
    obtain ⟨k, hk, hknot⟩ := hmissing
    have hbelow : ∀ i : Nat, i < Nat.find hfind → decimal i ∈ requests := fun i hi =>
      not_not.mp (Nat.find_min hfind hi)
    have hle : Nat.find hfind ≤ k := Nat.find_min' hfind hknot
    have hlast := lastId_eq (by omega) (Nat.find_spec hfind) hbelow h
    refine ⟨Nat.find hfind, by omega, fun id h0 hint => ⟨fun hmem => ?_, fun hlt => ?_⟩⟩
    · exact hlast ▸ habove id hint hmem
    · obtain ⟨i, rfl⟩ := Int.eq_ofNat_of_zero_le h0
      exact hbelow i (by omega)
  · rintro ⟨n, hn, hmem⟩
    rw [(lastId_of_numbered h hn hmem).2]
    intro id hint hid
    by_cases h0 : 0 ≤ id
    · exact (hmem id h0 hint).mp hid
    · omega

/-- The constructor establishes the invariant from exactly the trees without a jobs directory, and
those with both directories and no gap in the numbers of the requests. -/
theorem construct_established_iff (root repo : Bytes) (t : Tree) (cloned : Option Repo) :
    Established (DataBase.construct root repo t cloned).1
      (DataBase.construct root repo t cloned).2 ↔ Startable t := by
  by_cases hjobs : t.jobs = none
  · exact iff_of_true (established_of_new hjobs root repo cloned) (Or.inl hjobs)
  · obtain ⟨hid, hr, hf⟩ := construct_old hjobs root repo cloned
    constructor
    · rintro ⟨hinv, _⟩
      obtain ⟨requests, hrequests⟩ := Option.ne_none_iff_exists'.mp hinv.requests
      have habove := hinv.above requests hrequests
      rw [hid] at habove
      rw [hr] at hrequests
      exact Or.inr ⟨hf ▸ hinv.finished, requests, hrequests, (above_iff hrequests).mp habove⟩
    · intro hstart
      cases hstart with
      | inl hnone => exact absurd hnone hjobs
      | inr hstart =>
        obtain ⟨hfinished, requests, hrequests, hn⟩ := hstart
        have hinv : StoreInvariant (DataBase.construct root repo t cloned).1
            (DataBase.construct root repo t cloned).2 := by
          refine ⟨by simp [hr, hrequests], by rwa [hf], fun requests' hrequests' => ?_⟩
          rw [hr, hrequests, Option.some.injEq] at hrequests'
          subst hrequests'
          rw [hid]
          exact (above_iff hrequests).mpr hn
        exact ⟨hinv, hinv.nextJobFits (by rw [hid]; exact lastId_inInt t)⟩

/- The volume of the jobs directory, mounted for the first time. -/
def freshVolume : Tree := ⟨some ⟨none, none⟩, ∅, none⟩

/-- On a fresh volume there is no directory for the request of a job, and its `newJob` leaves
nothing behind. -/
theorem fresh_volume_not_established :
    ¬ Established (DataBase.construct (text "/opt") (text "repo") freshVolume none).1
      (DataBase.construct (text "/opt") (text "repo") freshVolume none).2 ∧
    ((DataBase.construct (text "/opt") (text "repo") freshVolume none).1.newJob
      (DataBase.construct (text "/opt") (text "repo") freshVolume none).2
      (text "job") .stored).2.2.requests = none := by
  constructor
  · intro h
    exact h.1.requests rfl
  · rfl

end OpcUaTestTool.StoreStart
