import OpcUaTestTool.FileSystem
import OpcUaTestTool.ResultFiles

/-! `DataBase::getFinishedJobs`: the scan of the directory for `from` and for the highest id, and
the two loops that put the result files together. -/
namespace OpcUaTestTool.FinishedJobs
open FiniteMap Numerals Directory FileSystem ResultFiles

/-- The scan, over the names in the order of the directory iterator. A name that `std::stoi`
refuses is passed over. -/
def scan (fromId : Int) : List Bytes → Int → Int × Bool
  | [], highestId => (highestId, false)
  | entry :: entries, highestId =>
    match stoi entry with
    | none => scan fromId entries highestId
    | some fileId =>
      let highestId := if highestId < fileId then fileId else highestId
      if fileId = fromId then (highestId, true) else scan fromId entries highestId

/-- What `getline` returns until the end of the file. -/
def lines (content : Bytes) : List Bytes :=
  let pieces := content.splitOn 10
  if pieces.getLast? = some [] then pieces.dropLast else pieces

/-- A file on the stream: every line as a C string, with a line feed. -/
def emit (content : Bytes) : Bytes := (lines content).flatMap fun line => cString line ++ [10]

/- The stream, and the files read into it; `cnt` is their number. -/
structure Listing where
  stream : Bytes
  jobs : List (Int × Bytes) := []

def Listing.separate (l : Listing) : Listing :=
  if 0 < l.jobs.length then { l with stream := l.stream ++ text ",\n" } else l

def Listing.add (l : Listing) (id : Int) (content : Bytes) : Listing :=
  { stream := l.stream ++ emit content, jobs := l.jobs ++ [(id, content)] }

/-- The loop from `from` upwards: the separator is written before the file is opened. -/
def forward (finished : Dir) : List Int → Listing → Listing
  | [], l => l
  | id :: ids, l =>
    match finished.lookup (decimal id) with
    | none => l.separate
    | some content => forward finished ids (l.separate.add id content)

/-- The loop from the highest id downwards. -/
def reverse (finished : Dir) : List Int → Listing → Listing
  | [], l => l
  | id :: ids, l =>
    match finished.lookup (decimal id) with
    | none => l
    | some content => reverse finished ids (l.separate.add id content)

/-- `DataBase::getFinishedJobs`, where the directory iterator yields the entries. -/
def getFinishedJobs (entries : List Bytes) (finished : Dir) (fromId max : Int) : Listing :=
  let (highestId, fromFound) := scan fromId entries (-1)
  let stream : Listing := { stream := text "[\n" }
  let stream :=
    if fromFound then forward finished (finishedIds fromId max .fromFound) stream
    else reverse finished (finishedIds fromId max (.highestId highestId)) stream
  { stream with stream := stream.stream ++ text "]\n" }

/-- The files a loop reads: those before the first missing one. -/
def readable (finished : Dir) : List Int → List (Int × Bytes)
  | [] => []
  | id :: ids =>
    match finished.lookup (decimal id) with
    | none => []
    | some content => (id, content) :: readable finished ids

theorem readable_eq (finished : Dir) (ids : List Int) :
    (readable finished ids).map Prod.fst = ids.takeWhile fun id => decimal id ∈ finished := by
  induction ids with
  | nil => rfl
  | cons id ids ih =>
    cases h : finished.lookup (decimal id) with
    | none =>
      have hmem : decimal id ∉ finished := AList.lookup_eq_none.mp h
      simp [readable, h, hmem]
    | some content =>
      have hmem : decimal id ∈ finished := AList.lookup_isSome.mp (by simp [h])
      simp [readable, h, hmem, ih]

/-- No id is tried twice. -/
theorem nodup_finishedIds (fromId max : Int) (s : Scan) : (finishedIds fromId max s).Nodup := by
  cases s with
  | fromFound =>
    apply List.Nodup.map _ List.nodup_range
    intro i j hij
    simpa using hij
  | highestId h =>
    apply List.Nodup.map _ List.nodup_range
    intro i j hij
    simpa using hij

theorem mem_finishedIds {fromId max id : Int} :
    id ∈ finishedIds fromId max .fromFound ↔ fromId ≤ id ∧ id < fromId + max := by
  simp only [finishedIds, List.mem_map, List.mem_range]
  constructor
  · rintro ⟨k, hk, rfl⟩
    omega
  · intro h
    exact ⟨(id - fromId).toNat, by omega, by omega⟩

theorem jobs_separate (l : Listing) : l.separate.jobs = l.jobs := by
  unfold Listing.separate
  split
  · rfl
  · rfl

theorem jobs_forward (finished : Dir) (ids : List Int) (l : Listing) :
    (forward finished ids l).jobs = l.jobs ++ readable finished ids := by
  induction ids generalizing l with
  | nil => simp [forward, readable]
  | cons id ids ih =>
    cases h : finished.lookup (decimal id) with
    | none => simp [forward, readable, h, jobs_separate]
    | some content => simp [forward, readable, h, ih, Listing.add, jobs_separate]

theorem jobs_reverse (finished : Dir) (ids : List Int) (l : Listing) :
    (reverse finished ids l).jobs = l.jobs ++ readable finished ids := by
  induction ids generalizing l with
  | nil => simp [reverse, readable]
  | cons id ids ih =>
    cases h : finished.lookup (decimal id) with
    | none => simp [reverse, readable, h]
    | some content => simp [reverse, readable, h, ih, Listing.add, jobs_separate]

/-- The scan finds `from` just if a name reads as it; otherwise it ends with the greatest number
among the names. -/
theorem scan_spec (fromId : Int) (entries : List Bytes) (highestId : Int) :
    ((scan fromId entries highestId).2 = true ↔ ∃ e ∈ entries, stoi e = some fromId) ∧
    ((scan fromId entries highestId).2 = false →
      highestId ≤ (scan fromId entries highestId).1 ∧
      (∀ e ∈ entries, ∀ id, stoi e = some id → id ≤ (scan fromId entries highestId).1) ∧
      ((scan fromId entries highestId).1 = highestId ∨
        ∃ e ∈ entries, stoi e = some (scan fromId entries highestId).1)) := by
  induction entries generalizing highestId with
  | nil => simp [scan]
  | cons entry entries ih =>
    cases h : stoi entry with
    | none =>
      have ih := ih highestId
      simpa [scan, h] using ih
    | some fileId =>
      by_cases hf : fileId = fromId
      · simp [scan, h, hf]
      · simp only [scan, h, if_neg hf]
        generalize hm : (if highestId < fileId then fileId else highestId) = m
        have hmax : highestId ≤ m ∧ fileId ≤ m ∧ (m = highestId ∨ m = fileId) := by
          split at hm <;> omega
        obtain ⟨hfound, hend⟩ := ih m
        refine ⟨?_, ?_⟩
        · rw [hfound]
          simp [h, hf]
        · intro hnot
          obtain ⟨hle, hall, hreached⟩ := hend hnot
          refine ⟨by omega, ?_, ?_⟩
          · intro e he id hid
            cases List.mem_cons.mp he with
            | inl heq =>
              subst e
              rw [h, Option.some.injEq] at hid
              omega
            | inr he => exact hall e he id hid
          · cases hreached with
            | inr hr =>
              obtain ⟨e, he, hs⟩ := hr
              exact Or.inr ⟨e, List.mem_cons_of_mem _ he, hs⟩
            | inl hr =>
              rw [hr]
              cases hmax.2.2 with
              | inl heq => exact Or.inl heq
              | inr heq => exact Or.inr ⟨entry, List.mem_cons_self, heq ▸ h⟩

/-! ### Directories of results -/

/-- Every file is named by the id of a job. -/
def NamedByIds (finished : Dir) : Prop :=
  ∀ name ∈ finished, ∃ id : Int, 0 ≤ id ∧ InInt id ∧ name = decimal id

section
variable {finished : Dir} (hn : NamedByIds finished) {entries : List Bytes}
  (he : entries.Perm finished.keys)
include hn he

/-- The names in the directory read as the ids of the jobs. -/
theorem stoi_iff (id : Int) :
    (∃ e ∈ entries, stoi e = some id) ↔ InInt id ∧ decimal id ∈ finished := by
  constructor
  · rintro ⟨e, hmem, hs⟩
    have hin : e ∈ finished := AList.mem_keys.mpr (he.mem_iff.mp hmem)
    obtain ⟨id', _, hint, rfl⟩ := hn e hin
    rw [stoi_decimal hint, Option.some.injEq] at hs
    exact hs ▸ ⟨hint, hin⟩
  · rintro ⟨hint, hin⟩
    exact ⟨decimal id, he.mem_iff.mpr (AList.mem_keys.mp hin), stoi_decimal hint⟩

theorem scan_found {fromId : Int} :
    (scan fromId entries (-1)).2 = true ↔ InInt fromId ∧ decimal fromId ∈ finished := by
  rw [(scan_spec fromId entries (-1)).1, stoi_iff hn he]

/-- A scan that does not find `from` ends with the highest id of the jobs, if there is one. -/
theorem scan_highest {fromId : Int} (hfrom : (scan fromId entries (-1)).2 = false) :
    (∀ id, decimal id ∈ finished → id ≤ (scan fromId entries (-1)).1) ∧
    ((scan fromId entries (-1)).1 = -1 ∧ (∀ name, name ∉ finished) ∨
      0 ≤ (scan fromId entries (-1)).1 ∧ InInt (scan fromId entries (-1)).1 ∧
        decimal (scan fromId entries (-1)).1 ∈ finished) := by
  obtain ⟨_, hall, hreached⟩ := (scan_spec fromId entries (-1)).2 hfrom
  generalize (scan fromId entries (-1)).1 = h at hall hreached
  have hbound : ∀ id, decimal id ∈ finished → id ≤ h := by
    intro id hid
    obtain ⟨id', _, hint, heq⟩ := hn _ hid
    obtain rfl := decimal_injective heq
    obtain ⟨e, hmem, hs⟩ := (stoi_iff hn he id).mpr ⟨hint, hid⟩
    exact hall e hmem id hs
  refine ⟨hbound, ?_⟩
  cases hreached with
  | inl hnone =>
    refine Or.inl ⟨hnone, fun name hname => ?_⟩
    obtain ⟨id, h0, _, rfl⟩ := hn name hname
    have := hbound id hname
    omega
  | inr hex =>
    obtain ⟨hint, hin⟩ := (stoi_iff hn he h).mp hex
    obtain ⟨id, h0, _, heq⟩ := hn _ hin
    exact Or.inr ⟨decimal_injective heq ▸ h0, hint, hin⟩

end

end OpcUaTestTool.FinishedJobs
