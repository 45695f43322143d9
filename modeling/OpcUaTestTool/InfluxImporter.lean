import OpcUaTestTool.FinishedJobs
import OpcUaTestTool.Transition

/-! The polling loop of the InfluxDB importer against `getFinishedJobs`: the cursor `fromId`, and
what is written. -/
namespace OpcUaTestTool.InfluxImporter
open FiniteMap Numerals Directory FinishedJobs ResultFiles Transition

/- The results in the store, the variable `fromId` of the importer, and the ids it has written,
in order. -/
structure Importer where
  finished : Dir
  fromId : Int := 0
  written : List Int := []

/- A poll comes with the order in which the directory iterator yields the results. -/
inductive Action where
  | finish (id : Int) (record : Bytes)
  | poll (entries : List Bytes)

/-- The ids of the jobs the service answers with. The request has no `max`, which is 0 then. -/
def served (entries : List Bytes) (finished : Dir) (fromId : Int) : List Int :=
  (getFinishedJobs entries finished fromId 0).jobs.map Prod.fst

/-- One turn of the import loop. -/
def Importer.write (s : Importer) (id : Int) : Importer :=
  { s with
    written := s.written ++ [id]
    fromId := if s.fromId ≤ id then id + 1 else s.fromId }

/- Jobs have ids from 0 on whose successor is an `int`, and one result each. -/
def step (s : Importer) : Action → Option Importer
  | .finish id record =>
    if 0 ≤ id ∧ id < 2147483647 ∧ decimal id ∉ s.finished then
      some { s with finished := s.finished.insert (decimal id) record }
    else none
  | .poll entries =>
    if entries.Perm s.finished.keys then
      some ((served entries s.finished s.fromId).foldl Importer.write s)
    else none

def init (finished : Dir) : Importer := { finished := finished }

def WrittenOnce (s : Importer) : Prop := s.written.Nodup

/-- A poll finds no finished job, or that of the cursor finished, or one beyond the cursor. -/
def CursorAhead (s : Importer) : Action → Prop
  | .poll _ => (∀ name, name ∉ s.finished) ∨ decimal s.fromId ∈ s.finished ∨
      ∃ id, s.fromId < id ∧ decimal id ∈ s.finished
  | _ => True

/-- The files of a directory are the results of jobs. -/
def ResultNames (finished : Dir) : Prop :=
  ∀ name ∈ finished, ∃ id : Int, 0 ≤ id ∧ id < 2147483647 ∧ name = decimal id

theorem ResultNames.namedByIds {finished : Dir} (h : ResultNames finished) :
    NamedByIds finished := by
  intro name hname
  obtain ⟨id, h0, hlt, rfl⟩ := h name hname
  exact ⟨id, h0, ⟨by omega, by omega⟩, rfl⟩

/-- A request without `max` is answered with no job if `from` is finished, and otherwise with the
highest finished job. -/
theorem served_cases {finished : Dir} (hn : ResultNames finished) {entries : List Bytes}
    (he : entries.Perm finished.keys) {fromId : Int} (hfrom : InInt fromId) :
    (decimal fromId ∈ finished ∧ served entries finished fromId = []) ∨
    (decimal fromId ∉ finished ∧ (∀ name, name ∉ finished) ∧
      served entries finished fromId = []) ∨
    (decimal fromId ∉ finished ∧ ∃ h, 0 ≤ h ∧ h < 2147483647 ∧ decimal h ∈ finished ∧
      (∀ id, decimal id ∈ finished → id ≤ h) ∧ served entries finished fromId = [h]) := by
  have hfound : (scan fromId entries (-1)).2 = true ↔ decimal fromId ∈ finished := by
    rw [scan_found hn.namedByIds he, and_iff_right hfrom]
  cases hf : (scan fromId entries (-1)).2 with
  | true =>
    refine Or.inl ⟨hfound.mp hf, ?_⟩
    simp [served, getFinishedJobs, hf, jobs_forward, finishedIds, readable]
  | false =>
    have hnot : decimal fromId ∉ finished := by
      rw [← hfound, hf]
      simp
    obtain ⟨hbound, hreached⟩ := scan_highest hn.namedByIds he hf
    generalize hh : (scan fromId entries (-1)).1 = h at hbound hreached
    have hserved : served entries finished fromId =
        (finishedIds fromId 0 (.highestId h)).takeWhile fun id => decimal id ∈ finished := by
      simp [served, getFinishedJobs, hf, hh, jobs_reverse, readable_eq]
    refine Or.inr ?_
    cases hreached with
    | inl hnone =>
      refine Or.inl ⟨hnot, hnone.2, ?_⟩
      rw [hserved, hnone.1]
      rfl
    | inr hhigh =>
      obtain ⟨h0, _, hin⟩ := hhigh
      obtain ⟨id, _, hlt, heq⟩ := hn _ hin
      obtain rfl := decimal_injective heq
      refine Or.inr ⟨hnot, h, h0, hlt, hin, hbound, ?_⟩
      have hone : finishedIds fromId 0 (.highestId h) = [h] := by
        simp [finishedIds, min_eq_right h0]
      simp [hserved, hone, hin]

/- The cursor is one past the last id written, or at its start. -/
structure Sane (s : Importer) : Prop where
  names : ResultNames s.finished
  nonneg : 0 ≤ s.fromId
  isInt : s.fromId < 2147483648
  below : ∀ id ∈ s.written, id < s.fromId
  last : 0 < s.fromId → s.fromId - 1 ∈ s.written ∧ decimal (s.fromId - 1) ∈ s.finished

theorem sane_init {finished : Dir} (h : ResultNames finished) : Sane (init finished) :=
  ⟨h, by simp [init], by simp [init], by simp [init], by simp [init]⟩

theorem step_finish {s t : Importer} {id : Int} {record : Bytes}
    (h : step s (.finish id record) = some t) :
    0 ≤ id ∧ id < 2147483647 ∧ decimal id ∉ s.finished ∧
      t = { s with finished := s.finished.insert (decimal id) record } := by
  by_cases hc : 0 ≤ id ∧ id < 2147483647 ∧ decimal id ∉ s.finished
  · simp only [step, if_pos hc, Option.some.injEq] at h
    exact ⟨hc.1, hc.2.1, hc.2.2, h.symm⟩
  · simp [step, hc] at h

/-- Where the job of the cursor is not finished, the highest finished job is new exactly if it
lies beyond the cursor. -/
theorem Sane.cursorAhead_iff {s : Importer} (hi : Sane s) {id : Int} (h0 : 0 ≤ id)
    (hin : decimal id ∈ s.finished) (hmax : ∀ id', decimal id' ∈ s.finished → id' ≤ id)
    (hnot : decimal s.fromId ∉ s.finished) (entries : List Bytes) :
    CursorAhead s (.poll entries) ↔ id ∉ s.written := by
  by_cases hge : s.fromId ≤ id
  · have hne : id ≠ s.fromId := by
      rintro rfl
      exact hnot hin
    refine iff_of_true (Or.inr (Or.inr ⟨id, by omega, hin⟩)) ?_
    intro hw
    have hbelow := hi.below id hw
    omega
  · obtain ⟨hw, hf⟩ := hi.last (by omega)
    have hle := hmax _ hf
    have hid : id = s.fromId - 1 := by omega
    refine iff_of_false ?_ (not_not_intro (hid ▸ hw))
    intro hahead
    cases hahead with
    | inl hnone => exact hnone _ hin
    | inr hahead =>
      cases hahead with
      | inl hcursor => exact hnot hcursor
      | inr hbeyond =>
        obtain ⟨id', hlt', hin'⟩ := hbeyond
        have hle' := hmax id' hin'
        omega

/-- A poll writes nothing, or the highest finished job; the cursor tells whether that is new. -/
theorem poll_cases {s t : Importer} {entries : List Bytes} (hi : Sane s)
    (h : step s (.poll entries) = some t) :
    (t = s ∧ CursorAhead s (.poll entries)) ∨
    ∃ id, 0 ≤ id ∧ id < 2147483647 ∧ decimal id ∈ s.finished ∧ t = s.write id ∧
      (CursorAhead s (.poll entries) ↔ id ∉ s.written) := by
  have hfrom : InInt s.fromId := by
    have := hi.nonneg
    have := hi.isInt
    exact ⟨by omega, by omega⟩
  by_cases he : entries.Perm s.finished.keys
  · simp only [step, if_pos he, Option.some.injEq] at h
    cases served_cases hi.names he hfrom with
    | inl hc =>
      rw [hc.2] at h
      exact Or.inl ⟨h.symm, Or.inr (Or.inl hc.1)⟩
    | inr hc =>
      cases hc with
      | inl hc =>
        rw [hc.2.2] at h
        exact Or.inl ⟨h.symm, Or.inl hc.2.1⟩
      | inr hc =>
        obtain ⟨hnot, id, h0, hlt, hin, hmax, hserved⟩ := hc
        rw [hserved] at h
        exact Or.inr ⟨id, h0, hlt, hin, h.symm, hi.cursorAhead_iff h0 hin hmax hnot entries⟩
  · simp [step, he] at h

theorem Sane.write {s : Importer} (hi : Sane s) {id : Int} (h0 : 0 ≤ id) (hlt : id < 2147483647)
    (hin : decimal id ∈ s.finished) : Sane (s.write id) := by
  have hnonneg := hi.nonneg
  have hint := hi.isInt
  by_cases hge : s.fromId ≤ id
  · refine ⟨hi.names, ?_, ?_, ?_, ?_⟩
    · simp only [Importer.write, if_pos hge]
      omega
    · simp only [Importer.write, if_pos hge]
      omega
    · intro id' hmem
      simp only [Importer.write, if_pos hge, List.mem_append, List.mem_singleton] at hmem ⊢
      cases hmem with
      | inl hmem =>
        have := hi.below id' hmem
        omega
      | inr heq => omega
    · intro _
      simp [Importer.write, hge, hin]
  · refine ⟨hi.names, ?_, ?_, ?_, ?_⟩
    · simp only [Importer.write, if_neg hge]
      omega
    · simp only [Importer.write, if_neg hge]
      omega
    · intro id' hmem
      simp only [Importer.write, if_neg hge, List.mem_append, List.mem_singleton] at hmem ⊢
      cases hmem with
      | inl hmem => exact hi.below id' hmem
      | inr heq => omega
    · intro hpos
      simp only [Importer.write, if_neg hge] at hpos ⊢
      exact ⟨List.mem_append_left _ (hi.last hpos).1, (hi.last hpos).2⟩

theorem sane_step {s t : Importer} {a : Action} (hi : Sane s) (h : step s a = some t) :
    Sane t := by
  cases a with
  | finish id record =>
    obtain ⟨h0, hlt, _, rfl⟩ := step_finish h
    refine ⟨?_, hi.nonneg, hi.isInt, hi.below, ?_⟩
    · intro name hname
      cases (AList.mem_insert _).mp hname with
      | inl heq => exact ⟨id, h0, hlt, heq⟩
      | inr hname => exact hi.names name hname
    · intro hpos
      exact ⟨(hi.last hpos).1, (AList.mem_insert _).mpr (Or.inr (hi.last hpos).2)⟩
  | poll entries =>
    cases poll_cases hi h with
    | inl hc => exact hc.1 ▸ hi
    | inr hc =>
      obtain ⟨id, h0, hlt, hin, rfl, _⟩ := hc
      exact hi.write h0 hlt hin

theorem writtenOnce_write (s : Importer) (id : Int) :
    WrittenOnce (s.write id) ↔ WrittenOnce s ∧ id ∉ s.written := by
  have hperm : (s.written ++ [id]).Perm (id :: s.written) := List.perm_append_singleton id s.written
  rw [WrittenOnce, WrittenOnce, Importer.write, hperm.nodup_iff, List.nodup_cons]
  exact and_comm

/-- A poll writes a job again exactly if the cursor has passed every finished job. -/
theorem writtenOnce_step {s t : Importer} {a : Action} (hi : Sane s) (h : step s a = some t) :
    WrittenOnce t ↔ WrittenOnce s ∧ CursorAhead s a := by
  cases a with
  | finish id record =>
    obtain ⟨_, _, _, rfl⟩ := step_finish h
    exact (and_iff_left trivial).symm
  | poll entries =>
    cases poll_cases hi h with
    | inl hc => rw [hc.1, and_iff_left hc.2]
    | inr hc =>
      obtain ⟨id, _, _, _, rfl, hahead⟩ := hc
      rw [writtenOnce_write, hahead]

/-- No job is written twice in exactly the runs in which each poll finds no finished job, or the
job of the cursor finished, or a finished job beyond the cursor. -/
theorem written_once_iff (finished : Dir) (hn : ResultNames finished) (as : List Action)
    (s : Importer) (hrun : run step (init finished) as = some s) :
    Along step WrittenOnce (init finished) as ↔ Meets step CursorAhead (init finished) as := by
  have hsane : ∀ s a t, Sane s → step s a = some t → Sane t := fun _ _ _ hi h => sane_step hi h
  have h0 : WrittenOnce (init finished) := by simp [WrittenOnce, init]
  have hkeep : ∀ s a t, Sane s → WrittenOnce s → CursorAhead s a → step s a = some t →
      WrittenOnce t := fun _ _ _ hi hs hc h => (writtenOnce_step hi h).mpr ⟨hs, hc⟩
  have hcond : ∀ s a t, Sane s → WrittenOnce s → step s a = some t → WrittenOnce t →
      CursorAhead s a := fun _ _ _ hi _ h ht => ((writtenOnce_step hi h).mp ht).2
  exact along_iff_meets hsane hkeep hcond (sane_init hn) h0 hrun

/- Job 1 finishes before job 0 and is polled, then job 2. -/
def sampleRun : List Action :=
  [.finish 1 (text "one"), .poll [text "1"], .finish 0 (text "zero"), .finish 2 (text "two"),
    .poll [text "2", text "0", text "1"]]

theorem written_once_sample : ∃ s, run step (init ∅) sampleRun = some s ∧ s.written = [1] ∧
    (Along step WrittenOnce (init ∅) sampleRun ↔ Meets step CursorAhead (init ∅) sampleRun) := by
  refine ⟨_, rfl, rfl, written_once_iff ∅ ?_ sampleRun _ rfl⟩
  intro name hname
  exact absurd hname (AList.notMem_empty name)

/-- With the cursor one past the newest finished job, that job is written again. -/
theorem newest_job_written_again : ∃ s,
    run step (init ∅) [.finish 1 (text "one"), .poll [text "1"], .poll [text "1"]] = some s ∧
    s.written = [1, 1] ∧ ¬ WrittenOnce s :=
  ⟨_, rfl, rfl, by unfold WrittenOnce; decide⟩

end OpcUaTestTool.InfluxImporter
