import Mathlib.Data.Finset.Basic
import OpcUaTestTool.InfluxImporter

/-! The cursor of the InfluxDB importer beside the jobs of the service: what a poll may pass when
writes fail and jobs finish in any order. -/
namespace OpcUaTestTool.ImportCursor
open Numerals Transition

/- The jobs started so far have the ids below `next`. A job runs, is finished, or ended without a
result. -/
structure Jobs where
  next : Int
  running : Finset Int
  finished : Finset Int
  nonneg : 0 ≤ next
  bounds : ∀ id, id ∈ running ∨ id ∈ finished → 0 ≤ id ∧ id < next

def noJobs : Jobs := ⟨0, ∅, ∅, le_rfl, by simp⟩

/-- The next job of the queue is started. -/
def Jobs.start (j : Jobs) : Jobs where
  next := j.next + 1
  running := insert j.next j.running
  finished := j.finished
  nonneg := by have := j.nonneg; omega
  bounds := by
    intro id hid
    have hnonneg := j.nonneg
    rw [Finset.mem_insert, or_assoc] at hid
    cases hid with
    | inl hnew => omega
    | inr hold =>
      have := j.bounds id hold
      omega

/-- The result of a running job appears. -/
def Jobs.finish (j : Jobs) (id : Int) (h : id ∈ j.running) : Jobs where
  next := j.next
  running := j.running.erase id
  finished := insert id j.finished
  nonneg := j.nonneg
  bounds := by
    intro id' hid
    cases hid with
    | inl hrunning => exact j.bounds id' (Or.inl (Finset.mem_of_mem_erase hrunning))
    | inr hfinished =>
      cases Finset.mem_insert.mp hfinished with
      | inl hnew => exact j.bounds id' (Or.inl (hnew ▸ h))
      | inr hold => exact j.bounds id' (Or.inr hold)

/-- A test runner ends without a result. -/
def Jobs.lose (j : Jobs) (id : Int) : Jobs where
  next := j.next
  running := j.running.erase id
  finished := j.finished
  nonneg := j.nonneg
  bounds := fun id' hid => j.bounds id' (hid.imp_left Finset.mem_of_mem_erase)

/-- What `post_http` does with a job: the return code, or an exception. -/
inductive Post where
  | returned (code : Int)
  | threw
  deriving DecidableEq

abbrev Response := List (Int × Post)

/- The variable `fromId` of the importer, and the ids whose write returned 0, in order. -/
structure Cursor where
  fromId : Int := 0
  written : List Int := []

/-- The loop over the jobs of a response. The return code of `post_http` is not looked at. -/
def importJobs : Response → Cursor → Cursor
  | [], c => c
  | (_, .threw) :: _, c => c
  | (id, .returned code) :: jobs, c =>
    importJobs jobs
      { fromId := if c.fromId ≤ id then id + 1 else c.fromId
        written := if code = 0 then c.written ++ [id] else c.written }

structure State where
  jobs : Jobs
  cursor : Cursor := {}

inductive Action where
  | start
  | finish (id : Int)
  | lose (id : Int)
  | poll (response : Response)

/- The successor of an id is an `int`; the jobs of a response are finished. -/
def step (s : State) : Action → Option State
  | .start => if s.jobs.next < 2147483647 then some { s with jobs := s.jobs.start } else none
  | .finish id =>
    if h : id ∈ s.jobs.running then some { s with jobs := s.jobs.finish id h } else none
  | .lose id => if id ∈ s.jobs.running then some { s with jobs := s.jobs.lose id } else none
  | .poll response =>
    if ∀ p ∈ response, p.1 ∈ s.jobs.finished then
      some { s with cursor := importJobs response s.cursor }
    else none

/-- The jobs that are finished or may still be. -/
def Expected (j : Jobs) (id : Int) : Prop := id ∈ j.finished ∨ id ∈ j.running

/-- The cursor has passed no job that is finished or running and not written. -/
def Imported (s : State) : Prop :=
  ∀ id, id < s.cursor.fromId → Expected s.jobs id → id ∈ s.cursor.written

/-- The jobs before the first write that throws. -/
def passed (response : Response) : Response := response.takeWhile fun p => p.2 ≠ .threw

/-- With each job it passes, the loop writes every expected job from the cursor up to it. -/
def NoneSkipped (s : State) : Action → Prop
  | .poll response => ∀ p ∈ passed response, ∀ id, s.cursor.fromId ≤ id → id ≤ p.1 →
      Expected s.jobs id → (id, .returned 0) ∈ passed response
  | _ => True

/-! ### The loop -/

theorem passed_threw (id : Int) (jobs : Response) : passed ((id, .threw) :: jobs) = [] := by
  simp [passed]

theorem passed_returned (id code : Int) (jobs : Response) :
    passed ((id, .returned code) :: jobs) = (id, .returned code) :: passed jobs := by
  simp [passed]

theorem mem_written (response : Response) (c : Cursor) (id : Int) :
    id ∈ (importJobs response c).written ↔
      id ∈ c.written ∨ (id, .returned 0) ∈ passed response := by
  induction response generalizing c with
  | nil => simp [importJobs, passed]
  | cons p jobs ih =>
    obtain ⟨id', post⟩ := p
    cases post with
    | threw => simp [importJobs, passed_threw]
    | returned code =>
      rw [importJobs, ih, passed_returned, List.mem_cons]
      by_cases hcode : code = 0
      · simp [hcode, or_assoc]
      · simp [hcode, Ne.symm hcode]

/-- The cursor ends behind the ids it has passed, and no further. -/
theorem lt_fromId (response : Response) (c : Cursor) (id : Int) :
    id < (importJobs response c).fromId ↔ id < c.fromId ∨ ∃ p ∈ passed response, id ≤ p.1 := by
  induction response generalizing c with
  | nil => simp [importJobs, passed]
  | cons p jobs ih =>
    obtain ⟨id', post⟩ := p
    cases post with
    | threw => simp [importJobs, passed_threw]
    | returned code =>
      rw [importJobs, ih, passed_returned, List.exists_mem_cons_iff, ← or_assoc]
      refine or_congr_left ?_
      by_cases hle : c.fromId ≤ id'
      · simp only [if_pos hle]
        omega
      · simp only [if_neg hle]
        omega

/-- When every write returns 0, the loop is that of the import without failures. -/
theorem importJobs_returned_zero (ids : List Int) (s : InfluxImporter.Importer) :
    importJobs (ids.map fun id => (id, .returned 0)) ⟨s.fromId, s.written⟩ =
      ⟨(ids.foldl InfluxImporter.Importer.write s).fromId,
        (ids.foldl InfluxImporter.Importer.write s).written⟩ := by
  induction ids generalizing s with
  | nil => rfl
  | cons id ids ih =>
    rw [List.map_cons, importJobs, List.foldl_cons, ← ih (s.write id)]
    rfl

/-! ### Runs -/

/- What was written lies behind the cursor, and the cursor behind the jobs to come. -/
structure Sane (s : State) : Prop where
  written : ∀ id ∈ s.cursor.written, id < s.cursor.fromId
  fromId : s.cursor.fromId ≤ s.jobs.next

theorem mem_of_mem_passed {response : Response} {p : Int × Post} (h : p ∈ passed response) :
    p ∈ response :=
  (List.takeWhile_sublist _).subset h

theorem sane_init (jobs : Jobs) : Sane { jobs := jobs } := ⟨by simp, jobs.nonneg⟩

theorem sane_poll {s : State} {response : Response} (hi : Sane s)
    (hfinished : ∀ p ∈ response, p.1 ∈ s.jobs.finished) :
    Sane { s with cursor := importJobs response s.cursor } := by
  constructor
  · intro id hid
    rw [lt_fromId]
    cases (mem_written response s.cursor id).mp hid with
    | inl hold => exact Or.inl (hi.written id hold)
    | inr hnew => exact Or.inr ⟨_, hnew, le_rfl⟩
  · by_contra hover
    have hlt : s.jobs.next < (importJobs response s.cursor).fromId := not_le.mp hover
    cases (lt_fromId response s.cursor s.jobs.next).mp hlt with
    | inl hold =>
      have := hi.fromId
      omega
    | inr hnew =>
      obtain ⟨p, hp, hle⟩ := hnew
      have := (s.jobs.bounds p.1 (Or.inr (hfinished p (mem_of_mem_passed hp)))).2
      omega

/-- A poll keeps the cursor behind what is imported just if it skips no job. -/
theorem imported_poll {s : State} {response : Response} (hi : Sane s) (hs : Imported s) :
    Imported { s with cursor := importJobs response s.cursor } ↔
      NoneSkipped s (.poll response) := by
  constructor
  · intro ht p hp id hfrom hle hexpected
    have hmem := ht id ((lt_fromId response s.cursor id).mpr (Or.inr ⟨p, hp, hle⟩)) hexpected
    cases (mem_written response s.cursor id).mp hmem with
    | inl hold =>
      have := hi.written id hold
      omega
    | inr hnew => exact hnew
  · intro hnone id hlt hexpected
    rw [mem_written]
    by_cases hfrom : s.cursor.fromId ≤ id
    · cases (lt_fromId response s.cursor id).mp hlt with
      | inl hold => omega
      | inr hnew =>
        obtain ⟨p, hp, hle⟩ := hnew
        exact Or.inr (hnone p hp id hfrom hle hexpected)
    · exact Or.inl (hs id (by omega) hexpected)

/-- Everything a step can do. -/
theorem step_cases {s t : State} {a : Action} (h : step s a = some t) :
    (a = .start ∧ t = { s with jobs := s.jobs.start }) ∨
    (∃ id, ∃ hid : id ∈ s.jobs.running, a = .finish id ∧
      t = { s with jobs := s.jobs.finish id hid }) ∨
    (∃ id, a = .lose id ∧ t = { s with jobs := s.jobs.lose id }) ∨
    ∃ response, a = .poll response ∧ (∀ p ∈ response, p.1 ∈ s.jobs.finished) ∧
      t = { s with cursor := importJobs response s.cursor } := by
  cases a with
  | start =>
    simp only [step, Option.ite_none_right_eq_some, Option.some.injEq] at h
    exact Or.inl ⟨rfl, h.2.symm⟩
  | finish id =>
    by_cases hid : id ∈ s.jobs.running
    · simp only [step, dif_pos hid, Option.some.injEq] at h
      exact Or.inr (Or.inl ⟨id, hid, rfl, h.symm⟩)
    · simp [step, hid] at h
  | lose id =>
    simp only [step, Option.ite_none_right_eq_some, Option.some.injEq] at h
    exact Or.inr (Or.inr (Or.inl ⟨id, rfl, h.2.symm⟩))
  | poll response =>
    simp only [step, Option.ite_none_right_eq_some, Option.some.injEq] at h
    exact Or.inr (Or.inr (Or.inr ⟨response, rfl, h.1, h.2.symm⟩))

theorem sane_step {s t : State} {a : Action} (hi : Sane s) (h : step s a = some t) : Sane t := by
  obtain ⟨rfl, rfl⟩ | ⟨id, hid, rfl, rfl⟩ | ⟨id, rfl, rfl⟩ | ⟨response, rfl, hfinished, rfl⟩ :=
    step_cases h
  · have hfrom := hi.fromId
    refine ⟨hi.written, ?_⟩
    simp only [Jobs.start]
    omega
  · exact ⟨hi.written, hi.fromId⟩
  · exact ⟨hi.written, hi.fromId⟩
  · exact sane_poll hi hfinished

/-- Jobs that start, finish or get lost bring no expected job behind the cursor. -/
theorem imported_jobs {s : State} (hs : Imported s) {jobs : Jobs}
    (hjobs : ∀ id, id < s.cursor.fromId → Expected jobs id → Expected s.jobs id) :
    Imported { s with jobs := jobs } :=
  fun id hlt hexpected => hs id hlt (hjobs id hlt hexpected)

theorem imported_step {s t : State} {a : Action} (hi : Sane s) (hs : Imported s)
    (h : step s a = some t) : Imported t ↔ NoneSkipped s a := by
  obtain ⟨rfl, rfl⟩ | ⟨id, hid, rfl, rfl⟩ | ⟨id, rfl, rfl⟩ | ⟨response, rfl, _, rfl⟩ :=
    step_cases h
  · refine iff_of_true (imported_jobs hs fun id' hlt hexpected => ?_) trivial
    have hfrom := hi.fromId
    have hne : id' ≠ s.jobs.next := by omega
    simpa [Expected, Jobs.start, hne] using hexpected
  · refine iff_of_true (imported_jobs hs fun id' _ hexpected => ?_) trivial
    cases hexpected with
    | inl hfinished =>
      cases Finset.mem_insert.mp hfinished with
      | inl hnew => exact Or.inr (hnew ▸ hid)
      | inr hold => exact Or.inl hold
    | inr hrunning => exact Or.inr (Finset.mem_of_mem_erase hrunning)
  · refine iff_of_true (imported_jobs hs fun id' _ hexpected => ?_) trivial
    exact hexpected.imp_right Finset.mem_of_mem_erase
  · exact imported_poll hi hs

/-- The cursor stays behind what is imported in exactly the runs in which each poll, as far as its
writes do not throw, writes every expected job between the cursor and the jobs it passes. -/
theorem imported_iff (jobs : Jobs) (as : List Action) (s : State)
    (hrun : run step { jobs := jobs } as = some s) :
    Along step Imported { jobs := jobs } as ↔ Meets step NoneSkipped { jobs := jobs } as := by
  have h0 : Imported { jobs := jobs } := by
    intro id hlt hexpected
    have hid := (jobs.bounds id hexpected.symm).1
    simp only at hlt
    omega
  exact along_iff_meets (fun _ _ _ hi h => sane_step hi h)
    (fun _ _ _ hi hs hc h => (imported_step hi hs h).mpr hc)
    (fun _ _ _ hi hs h ht => (imported_step hi hs h).mp ht) (sane_init jobs) h0 hrun

/- Two jobs, in order, with one write that throws. -/
def inOrder : List Action :=
  [.start, .start, .finish 0, .poll [(0, .threw)], .finish 1,
    .poll [(0, .returned 0), (1, .returned 0)]]

theorem imported_sample : ∃ s, run step { jobs := noJobs } inOrder = some s ∧
    s.cursor.written = [0, 1] ∧
    (Along step Imported { jobs := noJobs } inOrder ↔
      Meets step NoneSkipped { jobs := noJobs } inOrder) :=
  ⟨_, rfl, rfl, imported_iff noJobs inOrder _ rfl⟩

/-- The service answers with job 1 while job 0 is running, and job 0 is never asked for again.
A write that is refused moves the cursor as well. -/
theorem unimported_jobs_passed :
    InfluxImporter.served [text "1"] ((∅ : Directory.Dir).insert (text "1") (text "one")) 0 = [1] ∧
    (∃ s, run step { jobs := noJobs }
        [.start, .start, .finish 1, .poll [(1, .returned 0)], .finish 0] = some s ∧
      s.cursor.fromId = 2 ∧ s.cursor.written = [1] ∧ 0 ∈ s.jobs.finished ∧ ¬ Imported s) ∧
    ∃ s, run step { jobs := noJobs } [.start, .finish 0, .poll [(0, .returned (-1))]] = some s ∧
      s.cursor.fromId = 1 ∧ s.cursor.written = [] ∧ 0 ∈ s.jobs.finished ∧ ¬ Imported s := by
  refine ⟨by decide, ⟨_, rfl, rfl, rfl, by decide, fun h => ?_⟩, _, rfl, rfl, rfl, by decide,
    fun h => ?_⟩
  · exact absurd (h 0 (by decide) (Or.inl (by decide))) (by decide)
  · exact absurd (h 0 (by decide) (Or.inl (by decide))) (by decide)

end OpcUaTestTool.ImportCursor
