import OpcUaTestTool.FinishedBounds
import OpcUaTestTool.JsonArrays

/-! The text of `DataBase::getFinishedJobs` as the handler of GET /api/jobs reads it. The loop
upwards writes its separator before it knows whether there is a file behind it. -/
namespace OpcUaTestTool.FinishedArray
open FiniteMap Numerals Directory FileSystem JsonValues JsonText JsonArrays FinishedJobs ResultFiles
open FinishedBounds (BoundIsInt)

/-- The text is an array of the values of the files that were read, in their order. -/
def ArrayOfRead (l : Listing) : Prop :=
  ∃ vs, l.jobs.map (fun p => parse p.2) = vs.map some ∧ parse l.stream = some (.array vs)

/-- A file named by an id holds one value. -/
def HoldValues (finished : Dir) : Prop :=
  ∀ (id : Int) content, finished.lookup (decimal id) = some content → ∃ v, parse content = some v

/-- Where `from` is found, either its own file is missing, or those of the whole range are there;
the end of the range is computed as an `int`. -/
def RangeComplete (entries : List Bytes) (finished : Dir) (fromId max : Int) : Prop :=
  (∃ e ∈ entries, stoi e = some fromId) → decimal fromId ∈ finished →
    ∀ id, fromId ≤ id → id < int32 (fromId + max) → decimal id ∈ finished

/-! ### Files on the stream -/

theorem flatMap_pieces {pieces : List Bytes} (hne : pieces ≠ []) :
    (pieces.flatMap fun line => line ++ [10]) = [10].intercalate pieces ++ [10] := by
  induction pieces with
  | nil => exact absurd rfl hne
  | cons line pieces ih =>
    cases pieces with
    | nil => simp
    | cons next pieces =>
      rw [List.flatMap_cons, ih (List.cons_ne_nil _ _), List.intercalate_cons_cons]
      simp

/-- A file without a NUL is put on the stream as it is, with a line feed at its end. -/
theorem emit_cases {content : Bytes} (h0 : 0 ∉ content) :
    emit content = content ∨ emit content = content ++ [10] := by
  have hsplit := flatMap_pieces (List.splitOn_ne_nil 10 content)
  rw [List.intercalate_splitOn] at hsplit
  have hplain : ∀ line ∈ content.splitOn 10, cString line = line := by
    intro line hline
    apply cString_eq_self
    intro hmem
    have : 0 ∈ (content.splitOn 10).flatMap fun line => line ++ [10] :=
      List.mem_flatMap.mpr ⟨line, hline, List.mem_append_left _ hmem⟩
    rw [hsplit] at this
    simp [h0] at this
  by_cases hlast : (content.splitOn 10).getLast? = some []
  · obtain ⟨front, hfront⟩ := List.getLast?_eq_some_iff.mp hlast
    simp only [emit, lines, if_pos hlast]
    rw [hfront] at hsplit hplain ⊢
    rw [List.flatMap_append, List.flatMap_singleton, List.nil_append] at hsplit
    refine Or.inl ?_
    rw [List.dropLast_concat, ← List.append_cancel_right hsplit]
    exact List.flatMap_congr fun line hline => by
      rw [hplain line (List.mem_append_left _ hline)]
  · simp only [emit, lines, if_neg hlast]
    refine Or.inr ?_
    rw [← hsplit]
    exact List.flatMap_congr fun line hline => by rw [hplain line hline]

theorem parse_emit {content : Bytes} {v : Json} (h : parse content = some v) :
    parse (10 :: emit content) = some v := by
  apply parse_cons_white (by decide)
  cases emit_cases (no_zero_of_parse h) with
  | inl heq => rwa [heq]
  | inr heq =>
    rw [heq]
    exact parse_append_newline h

/-! ### The stream of a loop -/

/-- The stream after some files: the bracket, the texts with commas between them. -/
def Begun (l : Listing) : Prop :=
  (l.jobs = [] ∧ l.stream = [91, 10]) ∨
  ∃ done p, l.jobs = done ++ [p] ∧
    l.stream = 91 :: ((done.flatMap fun q => 10 :: (emit q.2 ++ [44])) ++ 10 :: emit p.2)

theorem begun_start : Begun { stream := text "[\n" } := Or.inl ⟨rfl, rfl⟩

theorem Begun.separate {l : Listing} (h : Begun l) (hne : l.jobs ≠ []) :
    l.separate.stream = 91 :: ((l.jobs.flatMap fun q => 10 :: (emit q.2 ++ [44])) ++ [10]) := by
  have htext : text ",\n" = [44, 10] := by decide
  cases h with
  | inl hnone => exact absurd hnone.1 hne
  | inr hsome =>
    obtain ⟨done, p, hjobs, hstream⟩ := hsome
    simp [Listing.separate, hjobs, hstream, htext]

theorem separate_of_nil {l : Listing} (h : l.jobs = []) : l.separate = l := by
  simp [Listing.separate, h]

theorem Begun.add {l : Listing} (h : Begun l) (id : Int) (content : Bytes) :
    Begun (l.separate.add id content) := by
  refine Or.inr ⟨l.jobs, (id, content), ?_, ?_⟩
  · simp [Listing.add, jobs_separate]
  · by_cases hne : l.jobs = []
    · cases h with
      | inl hnone => simp [Listing.add, separate_of_nil hne, hne, hnone.2]
      | inr hsome =>
        obtain ⟨done, p, hjobs, _⟩ := hsome
        simp [hjobs] at hne
    · simp [Listing.add, h.separate hne]

/-- The loop upwards leaves a separator behind, unless all of its files are there. -/
theorem begun_forward (finished : Dir) (ids : List Int) {l : Listing} (h : Begun l) :
    ∃ l', Begun l' ∧ l'.jobs = l.jobs ++ readable finished ids ∧
      forward finished ids l =
        if ∀ id ∈ ids, decimal id ∈ finished then l' else l'.separate := by
  induction ids generalizing l with
  | nil => exact ⟨l, h, by simp [readable], by simp [forward]⟩
  | cons id ids ih =>
    cases hl : finished.lookup (decimal id) with
    | none =>
      have hmem : decimal id ∉ finished := AList.lookup_eq_none.mp hl
      exact ⟨l, h, by simp [readable, hl], by simp [forward, hl, hmem]⟩
    | some content =>
      have hmem : decimal id ∈ finished := AList.lookup_isSome.mp (by simp [hl])
      obtain ⟨l', hl', hjobs, hforward⟩ := ih (h.add id content)
      refine ⟨l', hl', ?_, ?_⟩
      · simp [hjobs, readable, hl, Listing.add, jobs_separate]
      · simp [forward, hl, hforward, hmem]

/-- The loop downwards writes a separator with each file that follows another. -/
theorem begun_reverse (finished : Dir) (ids : List Int) {l : Listing} (h : Begun l) :
    Begun (reverse finished ids l) := by
  induction ids generalizing l with
  | nil => exact h
  | cons id ids ih =>
    cases hl : finished.lookup (decimal id) with
    | none => simpa [reverse, hl] using h
    | some content => simpa [reverse, hl] using ih (h.add id content)

/-! ### Reading the text -/

/-- The value a file holds. -/
def fileValue (p : Int × Bytes) : Json := (parse p.2).getD .null

def fileTexts (jobs : List (Int × Bytes)) : List (Bytes × Json) :=
  jobs.map fun p => (10 :: emit p.2, fileValue p)

def Parsed (jobs : List (Int × Bytes)) : Prop := ∀ p ∈ jobs, parse p.2 = some (fileValue p)

theorem texts_fileTexts {jobs : List (Int × Bytes)} (h : Parsed jobs) : Texts (fileTexts jobs) := by
  intro p hp
  obtain ⟨q, hq, rfl⟩ := List.mem_map.mp hp
  exact parse_emit (h q hq)

theorem withCommas_fileTexts (jobs : List (Int × Bytes)) :
    withCommas (fileTexts jobs) = jobs.flatMap fun q => 10 :: (emit q.2 ++ [44]) := by
  simp [withCommas, fileTexts, List.flatMap_map]

theorem arrayOfRead_of_begun {l : Listing} (h : Begun l) (hp : Parsed l.jobs) :
    ArrayOfRead { l with stream := l.stream ++ text "]\n" } := by
  have htext : text "]\n" = [93, 10] := by decide
  refine ⟨l.jobs.map fileValue, ?_, ?_⟩
  · rw [List.map_map]
    exact List.map_congr_left hp
  · cases h with
    | inl hnone =>
      simp only [hnone.1, hnone.2]
      rfl
    | inr hsome =>
      obtain ⟨done, p, hjobs, hstream⟩ := hsome
      have hdone : Parsed done := fun q hq => hp q (by simp [hjobs, hq])
      have harray := parse_array (texts_fileTexts hdone) (parse_emit (hp p (by simp [hjobs])))
        (w := [10]) (by decide)
      rw [withCommas_fileTexts] at harray
      simp only [hstream, hjobs, htext]
      simpa [fileTexts, Function.comp_def] using harray

theorem not_arrayOfRead {l : Listing} (h : Begun l) (hp : Parsed l.jobs) (hne : l.jobs ≠ []) :
    parse (l.separate.stream ++ text "]\n") = none := by
  have htext : text "]\n" = [93, 10] := by decide
  have hbracket : expect 93 [10, 93, 10] = some [10] := by decide
  have hnone := parse_array_comma (texts_fileTexts hp) (by simpa [fileTexts] using hne) hbracket
  rw [withCommas_fileTexts] at hnone
  rw [h.separate hne, htext]
  simpa using hnone

theorem parsed_readable {finished : Dir} (h : HoldValues finished) (ids : List Int) :
    Parsed (readable finished ids) := by
  induction ids with
  | nil => simp [readable, Parsed]
  | cons id ids ih =>
    cases hl : finished.lookup (decimal id) with
    | none => simp [readable, hl, Parsed]
    | some content =>
      obtain ⟨v, hv⟩ := h id content hl
      simp only [Parsed, readable, hl, List.forall_mem_cons]
      exact ⟨by simp [fileValue, hv], ih⟩

/-- The loop upwards reads no file just if that of `from` is missing. -/
theorem readable_range_eq_nil (finished : Dir) (fromId : Int) {n : Nat} (hn : 0 < n) :
    readable finished ((List.range n).map fun k : Nat => fromId + k) = [] ↔
      decimal fromId ∉ finished := by
  obtain ⟨m, rfl⟩ := Nat.exists_eq_add_of_lt hn
  rw [List.range_succ_eq_map, List.map_cons, Nat.cast_zero, add_zero, readable]
  cases hl : finished.lookup (decimal fromId) with
  | none => simpa using AList.lookup_eq_none.mp hl
  | some content => simpa using AList.lookup_isSome.mp (by simp [hl])

/-- The text after the branch upwards: a separator behind the last file that was read is left if
the loop stops at a missing one. -/
theorem arrayOfRead_upwards_iff {finished : Dir} (h : HoldValues finished) (fromId max : Int)
    {l : Listing}
    (hl : l = forward finished (finishedIds fromId max .fromFound) { stream := text "[\n" }) :
    ArrayOfRead { l with stream := l.stream ++ text "]\n" } ↔
      (decimal fromId ∈ finished →
        ∀ id, fromId ≤ id → id < fromId + max → decimal id ∈ finished) := by
  obtain ⟨l', hbegun, hjobs, hforward⟩ :=
    begun_forward finished (finishedIds fromId max .fromFound) begun_start
  rw [List.nil_append] at hjobs
  have hparsed : Parsed l'.jobs := hjobs ▸ parsed_readable h _
  rw [hl, hforward]
  by_cases hall : ∀ id ∈ finishedIds fromId max .fromFound, decimal id ∈ finished
  · rw [if_pos hall]
    refine iff_of_true (arrayOfRead_of_begun hbegun hparsed) fun _ id hlo hhi => ?_
    exact hall id (mem_finishedIds.mpr ⟨hlo, hhi⟩)
  · rw [if_neg hall]
    have hpos : 0 < max.toNat := by
      by_contra hzero
      obtain hzero : max.toNat = 0 := by omega
      simp [finishedIds, hzero] at hall
    have hnil := readable_range_eq_nil finished fromId hpos
    by_cases hne : l'.jobs = []
    · rw [separate_of_nil hne]
      refine iff_of_true (arrayOfRead_of_begun hbegun hparsed) fun hmem => ?_
      exact absurd hmem (hnil.mp (hjobs ▸ hne))
    · refine iff_of_false ?_ fun hcomplete => hall fun id hid => ?_
      · rintro ⟨vs, _, hparse⟩
        rw [not_arrayOfRead hbegun hparsed hne] at hparse
        cases hparse
      · have hmem : decimal fromId ∈ finished := by
          by_contra hmissing
          exact hne (hjobs.trans (hnil.mpr hmissing))
        obtain ⟨hlo, hhi⟩ := mem_finishedIds.mp hid
        exact hcomplete hmem id hlo hhi

/-- Where no bound of the loops overflows, the text is the array of the files that were read exactly
if the branch upwards finds a file for every id of its range, or none for the first. -/
theorem array_of_read_iff (entries : List Bytes) (finished : Dir) (h : HoldValues finished)
    (fromId max : Int) (hbound : BoundIsInt entries fromId max) :
    ArrayOfRead (getFinishedJobs entries finished fromId max) ↔
      RangeComplete entries finished fromId max := by
  have hfound := (scan_spec fromId entries (-1)).1
  cases hf : (scan fromId entries (-1)).2 with
  | false =>
    have hnot : ¬ ∃ e ∈ entries, stoi e = some fromId := fun hex => by simp [hfound.mpr hex] at hf
    refine iff_of_true ?_ fun hex => absurd hex hnot
    simp only [getFinishedJobs, hf, Bool.false_eq_true, if_false]
    apply arrayOfRead_of_begun (begun_reverse _ _ begun_start)
    rw [jobs_reverse]
    exact parsed_readable h _
  | true =>
    have hread := hfound.mp hf
    simp only [getFinishedJobs, hf, if_true]
    rw [arrayOfRead_upwards_iff h fromId max rfl, RangeComplete, forall_prop_of_true hread,
      int32_eq_self (hbound.1 hread)]

/- The results of jobs 3 and 4. -/
def sampleFinished : Dir :=
  ((∅ : Dir).insert (text "4") (text "\x7b\"id\": 4\x7d\n")).insert (text "3") (text "[true]")

theorem sampleFinished_values : HoldValues sampleFinished := by
  intro id content hl
  cases lookup_insert_eq_some.mp hl with
  | inl h => exact h.2 ▸ ⟨.array [.boolean true], rfl⟩
  | inr h =>
    cases lookup_insert_eq_some.mp h.2 with
    | inl h => exact h.2 ▸ ⟨.object [(text "id", .integer 4)], rfl⟩
    | inr h => cases h.2

theorem array_of_read_sample :
    ArrayOfRead (getFinishedJobs [text "4", text "3"] sampleFinished 3 2) := by
  have hread : FinishedBounds.Reads [text "4", text "3"] 3 := by decide
  refine (array_of_read_iff [text "4", text "3"] sampleFinished sampleFinished_values 3 2
    ⟨fun _ => by decide, fun hnot => absurd hread hnot⟩).mpr ?_
  intro _ _ id hlo hhi
  have hend : int32 (3 + 2) = 5 := by decide
  have hid : id = 3 ∨ id = 4 := by omega
  cases hid with
  | inl h => exact h ▸ (by decide)
  | inr h => exact h ▸ (by decide)

/-- One more place than there are jobs from the first on: the text ends with a comma. -/
theorem comma_before_bracket :
    (getFinishedJobs [text "4", text "3"] sampleFinished 3 3).stream =
      text "[\n[true]\n,\n\x7b\"id\": 4\x7d\n,\n]\n" ∧
    parse (getFinishedJobs [text "4", text "3"] sampleFinished 3 3).stream = none ∧
    ¬ ArrayOfRead (getFinishedJobs [text "4", text "3"] sampleFinished 3 3) := by
  have hstream : (getFinishedJobs [text "4", text "3"] sampleFinished 3 3).stream =
      text "[\n[true]\n,\n\x7b\"id\": 4\x7d\n,\n]\n" := by decide
  have hnone : parse (getFinishedJobs [text "4", text "3"] sampleFinished 3 3).stream = none := by
    rw [hstream]
    rfl
  refine ⟨hstream, hnone, ?_⟩
  rintro ⟨vs, _, hparse⟩
  rw [hnone] at hparse
  cases hparse

end OpcUaTestTool.FinishedArray
