import OpcUaTestTool.FinishedJobs
import OpcUaTestTool.FirstGap

/-! Which finished jobs a request lists. The jobs of the directory are any finite set of ids, with
the gaps that jobs leave which are still running or have no result. -/
namespace OpcUaTestTool.FinishedRange
open FiniteMap Numerals Directory FinishedJobs ResultFiles FirstGap

/- A directory with the results of a set of jobs, and nothing else. -/
structure ResultDir where
  files : Dir
  ids : Finset Int
  isInt : ∀ id ∈ ids, 0 ≤ id ∧ id < 2147483648
  names : ∀ name, name ∈ files ↔ ∃ id ∈ ids, name = decimal id

/-- The ids of the jobs that are read, in order. -/
def ResultDir.listed (d : ResultDir) (entries : List Bytes) (fromId max : Int) : List Int :=
  (getFinishedJobs entries d.files fromId max).jobs.map Prod.fst

/-- The ids of the range of `max` ids that begins with `from`, ascending. -/
def inRange (S : Finset Int) (fromId max : Int) : List Int :=
  (S.filter fun id => fromId ≤ id ∧ id < fromId + max).sort

/-- The `max` greatest ids, descending. -/
def newest (S : Finset Int) (max : Int) : List Int := (S.sort (· ≥ ·)).take max.toNat

/-- No id between `from` and a finished job of the range is missing. -/
def Unbroken (S : Finset Int) (fromId max : Int) : Prop :=
  ∀ id ∈ S, id < fromId + max → ∀ j, fromId ≤ j → j ≤ id → j ∈ S

/-- Below the greatest id, the job `max` places down is not finished, and no id of those places is
missing above a finished job. -/
def NewestTogether (S : Finset Int) (max : Int) : Prop :=
  ∀ h ∈ S, (∀ id ∈ S, id ≤ h) →
    h - max ∉ S ∧ ∀ id ∈ S, ∀ j, id ≤ j → h - max < j → j ≤ h → j ∈ S

/- The results of jobs 1, 3 and 4. -/
def sampleDir : ResultDir where
  files := [text "4", text "3", text "1"].foldl (fun d name => d.insert name (text "\x7b\x7d")) ∅
  ids := {1, 3, 4}
  isInt := by decide
  names := by
    intro name
    simp only [List.foldl_cons, List.foldl_nil, AList.mem_insert, AList.notMem_empty, or_false,
      Finset.mem_insert, Finset.mem_singleton, exists_eq_or_imp, exists_eq_left]
    exact Iff.rfl

def sampleEntries : List Bytes := [text "3", text "1", text "4"]

/-! ### The listings -/

section
variable (d : ResultDir) {entries : List Bytes} (he : entries.Perm d.files.keys)

theorem ResultDir.mem_files (id : Int) : decimal id ∈ d.files ↔ id ∈ d.ids := by
  rw [d.names]
  constructor
  · rintro ⟨id', hmem, heq⟩
    exact decimal_injective heq ▸ hmem
  · exact fun h => ⟨id, h, rfl⟩

theorem ResultDir.namedByIds : NamedByIds d.files := by
  intro name hname
  obtain ⟨id, hid, rfl⟩ := (d.names name).mp hname
  obtain ⟨h0, hlt⟩ := d.isInt id hid
  exact ⟨id, h0, ⟨by omega, hlt⟩, rfl⟩

include he

theorem ResultDir.scan_found {fromId : Int} :
    (scan fromId entries (-1)).2 = true ↔ fromId ∈ d.ids := by
  rw [FinishedJobs.scan_found d.namedByIds he, d.mem_files]
  refine and_iff_right_of_imp fun hid => ?_
  have := d.isInt fromId hid
  exact ⟨by omega, by omega⟩

/-- With `from` finished, the loop goes up from there. -/
theorem ResultDir.listed_of_mem {fromId : Int} (hfrom : fromId ∈ d.ids) (max : Int) :
    d.listed entries fromId max =
      (finishedIds fromId max .fromFound).takeWhile fun id => id ∈ d.ids := by
  have hfound : (scan fromId entries (-1)).2 = true := (d.scan_found he).mpr hfrom
  simp only [listed, getFinishedJobs, hfound, if_true, jobs_forward, List.nil_append, readable_eq,
    d.mem_files]

/-- With `from` not finished, the loop goes down from the highest id. -/
theorem ResultDir.listed_of_notMem {fromId : Int} (hfrom : fromId ∉ d.ids) (max : Int) :
    (d.ids = ∅ ∧ d.listed entries fromId max = []) ∨
    ∃ h ∈ d.ids, (∀ id ∈ d.ids, id ≤ h) ∧ d.listed entries fromId max =
      (finishedIds fromId max (.highestId h)).takeWhile fun id => id ∈ d.ids := by
  have hnot : (scan fromId entries (-1)).2 = false := by
    rw [← Bool.not_eq_true, d.scan_found he]
    exact hfrom
  obtain ⟨hbound, hreached⟩ := scan_highest d.namedByIds he hnot
  simp only [d.mem_files] at hbound hreached
  generalize hh : (scan fromId entries (-1)).1 = h at hbound hreached
  have hlisted : d.listed entries fromId max =
      (finishedIds fromId max (.highestId h)).takeWhile fun id => id ∈ d.ids := by
    simp only [listed, getFinishedJobs, hnot, hh, Bool.false_eq_true, if_false, jobs_reverse,
      List.nil_append, readable_eq, d.mem_files]
  cases hreached with
  | inl hnone =>
    refine Or.inl ⟨Finset.eq_empty_of_forall_notMem fun id hid => ?_, ?_⟩
    · exact hnone.2 _ ((d.mem_files id).mpr hid)
    · have hempty : (min h max + 1).toNat = 0 := by omega
      simp [hlisted, finishedIds, hempty]
  | inr hhigh => exact Or.inr ⟨h, hhigh.2.2, hbound, hlisted⟩

end

/-! ### Counting down -/

/-- The ids from the highest one down to 0. -/
def downwards (h : Int) : List Int := (List.range (h + 1).toNat).map fun k : Nat => h - k

section
variable {S : Finset Int} {h : Int} (hbound : ∀ id ∈ S, 0 ≤ id ∧ id ≤ h)
include hbound

theorem newest_eq (n : Nat) :
    newest S n = ((downwards h).filter fun id => id ∈ S).take n := by
  have hsorted : (downwards h).Pairwise (· ≥ ·) := by
    rw [downwards, List.pairwise_map]
    exact List.pairwise_lt_range.imp fun {i j} hij => by omega
  have hnodup : (downwards h).Nodup := by
    simpa [finishedIds, downwards] using nodup_finishedIds 0 h (.highestId h)
  rw [newest, Int.toNat_natCast, filter_eq_sort hsorted hnodup]
  intro id
  simp only [downwards, List.mem_map, List.mem_range, decide_eq_true_eq]
  constructor
  · exact fun hid => hid.2
  · intro hid
    have := hbound id hid
    exact ⟨⟨(h - id).toNat, by omega, by omega⟩, hid⟩

/-- How many finished jobs follow each other from the highest one down. -/
theorem lt_length_downwards_iff (hh : h ∈ S) (i : Nat) :
    i < ((downwards h).takeWhile fun id => id ∈ S).length ↔ ∀ j : Nat, j ≤ i → h - j ∈ S := by
  have h0 := hbound h hh
  rw [lt_length_takeWhile_iff, downwards, ← List.map_take, List.take_range]
  simp only [List.length_map, List.length_range, List.mem_map, List.mem_range, decide_eq_true_eq,
    forall_exists_index, and_imp, forall_apply_eq_imp_iff₂]
  constructor
  · intro hall j hj
    exact hall.2 j (by omega)
  · intro hall
    have := hbound _ (hall i (by omega))
    exact ⟨by omega, fun j hj => hall j (by omega)⟩

/-- Nothing is missing from the highest job down to the lowest. -/
theorem takeWhile_downwards_iff :
    ((downwards h).takeWhile fun id => id ∈ S) = (downwards h).filter (fun id => id ∈ S) ↔
      ∀ id ∈ S, ∀ j, id ≤ j → j ≤ h → j ∈ S := by
  rw [downwards, takeWhile_row_iff]
  simp only [decide_eq_true_eq]
  constructor
  · intro hrow id hid j hlo hhi
    have h0 := (hbound id hid).1
    by_cases heq : j = id
    · exact heq ▸ hid
    · have hj := hrow (h - j).toNat (h - id).toNat (by omega) (by omega)
      rw [Int.toNat_of_nonneg (by omega), Int.toNat_of_nonneg (by omega), sub_sub_cancel,
        sub_sub_cancel] at hj
      exact hj hid
  · intro hall i j hij _ hid
    exact hall (h - j) hid (h - i) (by omega) (by omega)

theorem newestTogether_iff (hh : h ∈ S) (n : Nat) :
    NewestTogether S n ↔ ((downwards h).takeWhile fun id => id ∈ S).length ≤ n ∧
      (((downwards h).takeWhile fun id => id ∈ S).length = n ∨
        ∀ id ∈ S, ∀ j, id ≤ j → j ≤ h → j ∈ S) := by
  have hlt := lt_length_downwards_iff hbound hh
  generalize ((downwards h).takeWhile fun id => id ∈ S).length = k at hlt
  constructor
  · intro htogether
    obtain ⟨hnot, hnear⟩ := htogether h hh fun id hid => (hbound id hid).2
    have hle : k ≤ n := by
      by_contra hgt
      exact hnot ((hlt n).mp (by omega) n le_rfl)
    refine ⟨hle, ?_⟩
    by_cases heq : k = n
    · exact Or.inl heq
    · refine Or.inr fun id hid j hlo hhi => ?_
      by_cases hj : h - n < j
      · exact hnear id hid j hlo hj hhi
      · -- with a job below the places, all of them are finished
        have hall : k < k := (hlt k).mpr fun i hi => hnear id hid (h - i) (by omega) (by omega)
          (by omega)
        omega
  · rintro ⟨hle, hcase⟩ h' hh' hbound'
    obtain rfl : h' = h := le_antisymm (hbound h' hh').2 (hbound' h hh)
    cases hcase with
    | inl heq =>
      subst heq
      have hnear : ∀ j : Nat, j < k → h' - j ∈ S := fun j hj => (hlt j).mp hj j le_rfl
      refine ⟨fun hin => ?_, fun id hid j hlo hj hhi => ?_⟩
      · have hall : k < k := (hlt k).mpr fun j hj => by
          by_cases hjk : j = k
          · exact hjk ▸ hin
          · exact hnear j (by omega)
        omega
      · have := hnear (h' - j).toNat (by omega)
        rwa [Int.toNat_of_nonneg (by omega), sub_sub_cancel] at this
    | inr hall =>
      refine ⟨fun hin => ?_, fun id hid j hlo _ hhi => hall id hid j hlo hhi⟩
      have : n < k := (hlt n).mpr fun j hj => hall _ hin _ (by omega) (by omega)
      omega

end

/-! ### The two branches -/

/-- With `from` finished, the jobs of the range are listed exactly if no id of the range is missing
below one of them. -/
theorem range_listed_iff (d : ResultDir) (entries : List Bytes) (he : entries.Perm d.files.keys)
    (fromId : Int) (hfrom : fromId ∈ d.ids) (max : Int) (hmax : 0 ≤ max) :
    d.listed entries fromId max = inRange d.ids fromId max ↔ Unbroken d.ids fromId max := by
  obtain ⟨n, rfl⟩ := Int.eq_ofNat_of_zero_le hmax
  have hsorted : (finishedIds fromId n .fromFound).Pairwise (· ≤ ·) := by
    rw [finishedIds, List.pairwise_map]
    exact List.pairwise_lt_range.imp fun {i j} hij => by omega
  have hfilter : (finishedIds fromId n .fromFound).filter (fun id => id ∈ d.ids) =
      inRange d.ids fromId n := by
    apply filter_eq_sort hsorted (nodup_finishedIds fromId n .fromFound)
    intro id
    rw [mem_finishedIds, decide_eq_true_eq, Finset.mem_filter]
    exact and_comm
  rw [d.listed_of_mem he hfrom, ← hfilter, finishedIds, Int.toNat_natCast, takeWhile_row_iff]
  simp only [decide_eq_true_eq]
  constructor
  · intro hrow id hid hlt j hlo hhi
    by_cases heq : j = id
    · exact heq ▸ hid
    · have hj := hrow (j - fromId).toNat (id - fromId).toNat (by omega) (by omega)
      rw [Int.toNat_of_nonneg (by omega), Int.toNat_of_nonneg (by omega), add_sub_cancel,
        add_sub_cancel] at hj
      exact hj hid
  · intro hgap i j hij hj hid
    exact hgap (fromId + j) hid (by omega) (fromId + i) (by omega) (by omega)

theorem range_listed_sample :
    sampleDir.listed sampleEntries 3 2 = inRange sampleDir.ids 3 2 := by
  refine (range_listed_iff sampleDir _ (by decide) 3 (by decide) 2 (by decide)).mpr ?_
  intro id _ hid j hlo hhi
  have hj : j = 3 ∨ j = 4 := by omega
  cases hj with
  | inl h => exact h ▸ (by decide)
  | inr h => exact h ▸ (by decide)

/-- Jobs 3 and 4 are in the range of four ids from 1 on, and not listed, since job 2 is missing. -/
theorem finished_jobs_hidden :
    sampleDir.listed sampleEntries 1 4 = [1] ∧ 4 ∈ inRange sampleDir.ids 1 4 ∧
    sampleDir.listed sampleEntries 1 4 ≠ inRange sampleDir.ids 1 4 := by
  have hlisted : sampleDir.listed sampleEntries 1 4 = [1] := by decide
  have hmem : 4 ∈ inRange sampleDir.ids 1 4 := (Finset.mem_sort _).mpr (by decide)
  refine ⟨hlisted, hmem, fun heq => ?_⟩
  rw [← heq, hlisted] at hmem
  revert hmem
  decide

/-- With `from` not finished, the `max` newest jobs are listed exactly if the job `max` places below
the newest is not finished, and nothing is missing on the way to the last one listed. -/
theorem newest_listed_iff (d : ResultDir) (entries : List Bytes) (he : entries.Perm d.files.keys)
    (fromId : Int) (hfrom : fromId ∉ d.ids) (max : Int) (hmax : 0 ≤ max) :
    d.listed entries fromId max = newest d.ids max ↔ NewestTogether d.ids max := by
  obtain ⟨n, rfl⟩ := Int.eq_ofNat_of_zero_le hmax
  cases d.listed_of_notMem he hfrom n with
  | inl hempty =>
    rw [hempty.2, hempty.1]
    simp [newest, NewestTogether]
  | inr hex =>
    obtain ⟨h, hh, hbound, hlisted⟩ := hex
    have hids : ∀ id ∈ d.ids, 0 ≤ id ∧ id ≤ h := fun id hid => ⟨(d.isInt id hid).1, hbound id hid⟩
    have htake : finishedIds fromId n (.highestId h) = (downwards h).take (n + 1) := by
      have h0 := (hids h hh).1
      rw [finishedIds, downwards, ← List.map_take, List.take_range]
      congr 2
      omega
    rw [hlisted, htake, ← List.take_takeWhile, newest_eq hids, take_takeWhile_eq_take_filter_iff,
      newestTogether_iff hids hh, takeWhile_downwards_iff hids]

theorem newest_listed_sample :
    sampleDir.listed sampleEntries 2 2 = newest sampleDir.ids 2 := by
  refine (newest_listed_iff sampleDir _ (by decide) 2 (by decide) 2 (by decide)).mpr ?_
  intro h hh hbound
  have h4 := hbound 4 (by decide)
  simp only [sampleDir, Finset.mem_insert, Finset.mem_singleton] at hh
  obtain rfl : h = 4 := by omega
  refine ⟨by decide, fun id _ j _ hlo hhi => ?_⟩
  have hj : j = 3 ∨ j = 4 := by omega
  cases hj with
  | inl h => exact h ▸ (by decide)
  | inr h => exact h ▸ (by decide)

/-- A request for the newest job is answered with two; one for three jobs as well, although three
have finished. -/
theorem newest_job_not_alone :
    sampleDir.listed sampleEntries 2 1 = [4, 3] ∧
    sampleDir.listed sampleEntries 2 1 ≠ newest sampleDir.ids 1 ∧
    sampleDir.listed sampleEntries 2 3 = [4, 3] ∧
    sampleDir.listed sampleEntries 2 3 ≠ newest sampleDir.ids 3 := by
  have hlength (max : Int) : (newest sampleDir.ids max).length = Nat.min max.toNat 3 := by
    rw [newest, List.length_take, Finset.length_sort]
    rfl
  refine ⟨by decide, fun heq => ?_, by decide, fun heq => ?_⟩
  · have := congrArg List.length heq
    rw [hlength] at this
    revert this
    decide
  · have := congrArg List.length heq
    rw [hlength] at this
    revert this
    decide

/-! ### The order of the directory -/

/-- The scan comes to the same end in every order of the names, where its end is used. -/
theorem scan_perm {entries entries' : List Bytes} (h : entries.Perm entries') (fromId : Int) :
    (scan fromId entries (-1)).2 = (scan fromId entries' (-1)).2 ∧
      ((scan fromId entries (-1)).2 = false →
        (scan fromId entries (-1)).1 = (scan fromId entries' (-1)).1) := by
  obtain ⟨hfound, hend⟩ := scan_spec fromId entries (-1)
  obtain ⟨hfound', hend'⟩ := scan_spec fromId entries' (-1)
  have hsame : (scan fromId entries (-1)).2 = (scan fromId entries' (-1)).2 := by
    rw [Bool.eq_iff_iff, hfound, hfound']
    simp only [h.mem_iff]
  refine ⟨hsame, fun hnot => ?_⟩
  obtain ⟨hle, hall, hreached⟩ := hend hnot
  obtain ⟨hle', hall', hreached'⟩ := hend' (hsame ▸ hnot)
  apply le_antisymm
  · cases hreached with
    | inl hr => exact hr.trans_le hle'
    | inr hr =>
      obtain ⟨e, he, hs⟩ := hr
      exact hall' e (h.mem_iff.mp he) _ hs
  · cases hreached' with
    | inl hr => exact hr.trans_le hle
    | inr hr =>
      obtain ⟨e, he, hs⟩ := hr
      exact hall e (h.mem_iff.mpr he) _ hs

/-- The order in which the directory is enumerated does not matter. -/
theorem getFinishedJobs_perm (finished : Dir) (fromId max : Int) (entries entries' : List Bytes)
    (h : entries.Perm entries') :
    getFinishedJobs entries finished fromId max = getFinishedJobs entries' finished fromId max := by
  obtain ⟨hfound, hhighest⟩ := scan_perm h fromId
  cases hf : (scan fromId entries (-1)).2 with
  | true =>
    rw [hf] at hfound
    simp only [getFinishedJobs, hf, ← hfound, if_true]
  | false =>
    have hhighest := hhighest hf
    rw [hf] at hfound
    simp only [getFinishedJobs, hf, ← hfound, ← hhighest, Bool.false_eq_true, if_false]

theorem getFinishedJobs_perm_sample :
    getFinishedJobs [text "4", text "x", text "12abc", text "1"] sampleDir.files 12 2 =
      getFinishedJobs [text "12abc", text "1", text "4", text "x"] sampleDir.files 12 2 :=
  getFinishedJobs_perm sampleDir.files 12 2 _ _ (by decide)

end OpcUaTestTool.FinishedRange
