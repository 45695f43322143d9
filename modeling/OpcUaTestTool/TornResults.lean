import OpcUaTestTool.FinishedArray
import OpcUaTestTool.JsonLibrary
import OpcUaTestTool.TestRunner

/-! Result files that are read while a test runner writes them: what the handlers of GET /api/jobs
and GET /api/jobs/{id} make of the bytes they have got. -/
namespace OpcUaTestTool.TornResults
open FiniteMap Numerals Directory JsonValues JsonText JsonArrays JsonDump JsonSound JsonBrackets
open JsonLibrary FinishedJobs FinishedArray ResultFiles TestRunner Transition

/-- What the loops put together from the files they have read. -/
def listing (jobs : List (Int × Bytes)) : Listing :=
  jobs.foldl (fun l p => l.separate.add p.1 p.2) { stream := text "[\n" }

/-- The text of a listing. Where the loop upwards ends at a missing file, it has written a
separator behind the last one. -/
def IsListing (jobs : List (Int × Bytes)) (bytes : Bytes) : Prop :=
  bytes = (listing jobs).stream ++ text "]\n" ∨
    bytes = (listing jobs).separate.stream ++ text "]\n"

variable (L : Library)

/-- The times of a job are values of their types. -/
structure Timed (job : Job) : Prop where
  start : L.Value (.integer job.start)
  stop : L.Value (.integer job.stop)
  runtime : L.Value (.float job.totalRuntime_ms)

/-- A record that `Job::addResult` writes for a request it has read. -/
def Recorded (id : Int) (record : Bytes) : Prop :=
  ∃ (job : Job) (requestText : Bytes) (request : Json), L.parse requestText = some request ∧
    Timed L job ∧ InInt id ∧ record = L.dump (job.output id request)

/-- The runners write such records. -/
def Records : Action → Prop
  | .openResult _ id record => Recorded L id record
  | _ => True

theorem jobs_listing_from (jobs : List (Int × Bytes)) (l : Listing) :
    (jobs.foldl (fun l p => l.separate.add p.1 p.2) l).jobs = l.jobs ++ jobs := by
  induction jobs generalizing l with
  | nil => simp
  | cons p jobs ih =>
    rw [List.foldl_cons, ih]
    simp [Listing.add, jobs_separate]

theorem jobs_listing (jobs : List (Int × Bytes)) : (listing jobs).jobs = jobs := by
  rw [listing, jobs_listing_from, List.nil_append]

theorem begun_listing (jobs : List (Int × Bytes)) : Begun (listing jobs) := by
  have hfold : ∀ (jobs : List (Int × Bytes)) (l : Listing), Begun l →
      Begun (jobs.foldl (fun l p => l.separate.add p.1 p.2) l) := by
    intro jobs
    induction jobs with
    | nil => exact fun l h => h
    | cons p jobs ih => exact fun l h => ih _ (h.add p.1 p.2)
  exact hfold jobs _ begun_start

theorem reverse_eq (finished : Dir) (ids : List Int) (l : Listing) :
    reverse finished ids l =
      (readable finished ids).foldl (fun l p => l.separate.add p.1 p.2) l := by
  induction ids generalizing l with
  | nil => rfl
  | cons id ids ih =>
    cases h : finished.lookup (decimal id) with
    | none => simp [reverse, readable, h]
    | some content => simp [reverse, readable, h, ih]

theorem forward_eq (finished : Dir) (ids : List Int) (l : Listing) :
    forward finished ids l =
        (readable finished ids).foldl (fun l p => l.separate.add p.1 p.2) l ∨
      forward finished ids l =
        ((readable finished ids).foldl (fun l p => l.separate.add p.1 p.2) l).separate := by
  induction ids generalizing l with
  | nil => exact Or.inl rfl
  | cons id ids ih =>
    cases h : finished.lookup (decimal id) with
    | none => exact Or.inr (by simp [forward, readable, h])
    | some content => simpa [forward, readable, h] using ih (l.separate.add id content)

/-- `getFinishedJobs` makes such a text of the files it reads. -/
theorem isListing_getFinishedJobs (entries : List Bytes) (finished : Dir) (fromId max : Int) :
    IsListing (getFinishedJobs entries finished fromId max).jobs
      (getFinishedJobs entries finished fromId max).stream := by
  cases hf : (scan fromId entries (-1)).2 with
  | false =>
    simp only [getFinishedJobs, hf, Bool.false_eq_true, if_false, jobs_reverse, List.nil_append]
    exact Or.inl (by rw [reverse_eq, listing])
  | true =>
    simp only [getFinishedJobs, hf, if_true, jobs_forward, List.nil_append]
    cases forward_eq finished (finishedIds fromId max .fromFound) { stream := text "[\n" } with
    | inl h => exact Or.inl (by rw [h, listing])
    | inr h => exact Or.inr (by rw [h, listing])

/-- A listing begins with a bracket, and has no zero byte: the lines are put on it as C strings. -/
theorem plain_of_isListing {jobs : List (Int × Bytes)} {bytes : Bytes} (hl : IsListing jobs bytes) :
    Plain bytes := by
  have hline (line : Bytes) : 0 ∉ FileSystem.cString line := fun h0 => by
    simpa using List.mem_takeWhile_imp h0
  have hemit (content : Bytes) : 0 ∉ emit content := by
    simp [emit, hline]
  have hstream : 0 ∉ (listing jobs).stream ∧ (listing jobs).stream.head? = some 91 := by
    cases begun_listing jobs with
    | inl hnone => exact hnone.2 ▸ by decide
    | inr hsome =>
      obtain ⟨done, p, _, hstream⟩ := hsome
      simp [hstream, hemit]
  have hseparate : 0 ∉ (listing jobs).separate.stream ∧
      (listing jobs).separate.stream.head? = some 91 := by
    unfold Listing.separate
    split
    · exact ⟨by simp [hstream.1, (by decide : 0 ∉ text ",\n")], by simp [hstream.2]⟩
    · exact hstream
  have hend : 0 ∉ text "]\n" := by decide
  cases hl with
  | inl hl => exact ⟨by simp [hl, hstream.1, hend], by simp [hl, hstream.2]⟩
  | inr hl => exact ⟨by simp [hl, hseparate.1, hend], by simp [hl, hseparate.2]⟩

/-! ### Records -/

variable {L}

theorem value_result {job : Job} (h : Timed L job) {id : Int} (hid : InInt id) :
    L.Value (job.result id) := by
  have hcode : utf8 (statusCode job.m_status) = true := by
    unfold statusCode
    split
    · rfl
    · rfl
  refine sound_setMember rfl (.string hcode) (sound_ofPairs ?_)
  simp only [List.forall_mem_cons]
  exact ⟨⟨rfl, L.value_int hid⟩, ⟨rfl, h.start⟩, ⟨rfl, h.stop⟩, ⟨rfl, h.runtime⟩,
    List.forall_mem_nil _⟩

theorem value_output {job : Job} (h : Timed L job) {id : Int} (hid : InInt id) {request : Json}
    (hrequest : L.Value request) : L.Value (job.output id request) :=
  sound_setMember rfl hrequest (sound_setMember rfl (value_result h hid) sound_empty)

theorem Recorded.whole {id : Int} {record : Bytes} (h : Recorded L id record) : Whole L record := by
  obtain ⟨job, requestText, request, hrequest, hjob, hid, rfl⟩ := h
  exact whole_dump L (value_output hjob hid (L.parse_sound hrequest))

/-! ### Pieces of records -/

theorem emit_ends (content : Bytes) : emit content = [] ∨ ∃ e, emit content = e ++ [10] := by
  unfold emit
  induction lines content using List.reverseRecOn with
  | nil => exact Or.inl rfl
  | append_singleton front line _ =>
    refine Or.inr ⟨(front.flatMap fun line => FileSystem.cString line ++ [10]) ++
      FileSystem.cString line, ?_⟩
    rw [List.flatMap_append, List.flatMap_singleton, List.append_assoc]

theorem emit_nil : emit [] = [] := by decide

section
variable {c p : Bytes} (hc : Whole L c) (hp : p <+: c)
include hc hp

/-- A piece that is cut leaves a bracket open, or ends in a string. -/
theorem rises_emit_torn (hne : p ≠ []) (hcut : p ≠ c) : Rises 1 (emit p) := by
  cases emit_cases (hc.plain.of_piece hp).1 with
  | inr h =>
    rw [h]
    exact rises_torn hc.enclosed hp hne hcut
  | inl h =>
    cases emit_ends p with
    | inl hnil => exact absurd (h.symm.trans hnil) hne
    | inr hend =>
      obtain ⟨e, he⟩ := hend
      rw [he]
      rw [h] at he
      subst he
      have hprefix : e <+: c := (List.prefix_append e [10]).trans hp
      refine rises_torn hc.enclosed hprefix ?_ ?_
      · rintro rfl
        obtain ⟨body, rfl, _⟩ := hc.enclosed
        exact absurd (List.cons_prefix_cons.mp hp).1 (by decide)
      · rintro rfl
        have := hp.length_le
        simp at this

/-- No piece closes a bracket that was open before. -/
theorem rises_emit : Rises 0 (10 :: emit p) := by
  by_cases hcut : p = c
  · obtain ⟨v, hv⟩ := hc.value
    obtain ⟨v', hv'⟩ := L.parse_strict hc.plain hv
    have hbalanced : Balanced (10 :: emit p) := scan_of_parse (parse_emit (hcut ▸ hv'))
    exact hbalanced.rises
  · have hfeed : Balanced [10] := balanced_inert (forall_bytes (by decide))
    by_cases hne : p = []
    · rw [hne, emit_nil]
      exact hfeed.rises
    · exact (hfeed.rises.append (rises_emit_torn hc hp hne hcut)).mono (by omega)

end

variable (L) in
/-- A piece of a record that is neither empty nor complete is no value. -/
def torn (p : Int × Bytes) : Bool := p.2 ≠ [] && (L.parse p.2).isNone

variable (L) in
/-- Every file that was read holds a piece of a record. -/
def Pieces (jobs : List (Int × Bytes)) : Prop := ∀ p ∈ jobs, ∃ c, Whole L c ∧ p.2 <+: c

theorem torn_eq_true {p : Int × Bytes} : torn L p = true ↔ p.2 ≠ [] ∧ L.parse p.2 = none := by
  simp [torn]

theorem torn_eq_false {p : Int × Bytes} (h : torn L p = false) (hne : p.2 ≠ []) :
    ∃ v, L.parse p.2 = some v := by
  cases hv : L.parse p.2 with
  | none => simp [torn, hne, hv] at h
  | some v => exact ⟨v, rfl⟩

theorem Pieces.plain {jobs : List (Int × Bytes)} (h : Pieces L jobs) {p : Int × Bytes}
    (hp : p ∈ jobs) : Plain p.2 := by
  obtain ⟨c, hc, hprefix⟩ := h p hp
  exact hc.plain.of_piece hprefix

theorem Pieces.rises {c : Bytes} {p : Int × Bytes} (hc : Whole L c) (hp : p.2 <+: c) :
    Rises (if torn L p then 1 else 0) (10 :: emit p.2) := by
  by_cases ht : torn L p = true
  · obtain ⟨hne, hnone⟩ := torn_eq_true.mp ht
    have hcut : p.2 ≠ c := by
      rintro rfl
      obtain ⟨v, hv⟩ := hc.value
      rw [hv] at hnone
      cases hnone
    have hfeed : Balanced [10] := balanced_inert (forall_bytes (by decide))
    rw [if_pos ht]
    exact hfeed.rises.append (rises_emit_torn hc hp hne hcut)
  · rw [if_neg ht]
    exact rises_emit hc hp

theorem Pieces.rises_flatMap {jobs : List (Int × Bytes)} (h : Pieces L jobs) :
    Rises (jobs.countP (torn L)) (jobs.flatMap fun q => 10 :: (emit q.2 ++ [44])) := by
  induction jobs with
  | nil => exact (balanced_inert (List.forall_mem_nil _)).rises
  | cons p jobs ih =>
    obtain ⟨c, hc, hp⟩ := h p List.mem_cons_self
    have ih := ih fun q hq => h q (List.mem_cons_of_mem p hq)
    have hcomma : Balanced [44] := balanced_inert (forall_bytes (by decide))
    have hrises := ((Pieces.rises hc hp).append hcomma.rises).append ih
    rw [List.flatMap_cons, List.countP_cons]
    exact hrises.mono (by omega)

/-- Brackets around a text that leaves a bracket open. -/
theorem rises_bracketed {body w : Bytes} (hbody : Rises 1 body) (hw : Balanced w) :
    Rises 1 (91 :: (body ++ 93 :: w)) := by
  intro d q hq
  rw [scan_cons (next_open (Or.inl rfl) d), scan_append, Option.bind_eq_some_iff] at hq
  obtain ⟨⟨d', place⟩, hd', hq⟩ := hq
  obtain ⟨hplace, hdepth⟩ := hbody (d + 1) _ hd'
  obtain rfl : place = .outside := hplace
  obtain ⟨d', rfl⟩ : ∃ m, d' = m + 1 := ⟨d' - 1, by dsimp only at hdepth; omega⟩
  rw [scan_cons (next_close (Or.inl rfl) d'), hw d', Option.some.injEq] at hq
  subst hq
  dsimp only at hdepth ⊢
  exact ⟨rfl, by omega⟩

/-- With a piece that is cut there is no value. -/
theorem parse_of_torn {jobs : List (Int × Bytes)} (h : Pieces L jobs)
    (htorn : ∃ p ∈ jobs, torn L p = true) {bytes : Bytes} (hl : IsListing jobs bytes) :
    L.parse bytes = none := by
  have htext : text "]\n" = [93, 10] := by decide
  have hfeed : Balanced [10] := balanced_inert (forall_bytes (by decide))
  have hcount : 0 < jobs.countP (torn L) := List.countP_pos_iff.mpr htorn
  have hbegun := begun_listing jobs
  have hne : (listing jobs).jobs ≠ [] := by
    rw [jobs_listing]
    rintro rfl
    simp at hcount
  apply L.parse_none (plain_of_isListing hl)
  apply parse_of_rises
  cases hl with
  | inl hl =>
    cases hbegun with
    | inl hnone => exact absurd hnone.1 hne
    | inr hsome =>
      obtain ⟨done, p, hjobs, hstream⟩ := hsome
      rw [jobs_listing] at hjobs
      subst hjobs
      rw [hl, hstream, htext]
      obtain ⟨c, hc, hp⟩ := h p (by simp)
      have hdone : Pieces L done := fun q hq => h q (by simp [hq])
      rw [List.countP_append, List.countP_singleton] at hcount
      exact rises_bracketed ((hdone.rises_flatMap.append (Pieces.rises hc hp)).mono hcount) hfeed
  | inr hl =>
    rw [hl, hbegun.separate hne, jobs_listing, htext]
    exact rises_bracketed ((h.rises_flatMap.append hfeed.rises).mono hcount) hfeed

/-! ### Pieces that are empty -/

/-- The text of a listing around one of the files. -/
theorem isListing_split {before after : List (Int × Bytes)} {p : Int × Bytes} {bytes : Bytes}
    (hl : IsListing (before ++ p :: after) bytes) :
    ∃ b t, (b = 44 ∨ b = 93 ∧ after = [] ∧ t = [10]) ∧
      bytes = 91 :: ((before.flatMap fun q => 10 :: (emit q.2 ++ [44])) ++
        10 :: (emit p.2 ++ b :: t)) := by
  have htext : text "]\n" = [93, 10] := by decide
  have hbegun := begun_listing (before ++ p :: after)
  have hne : (listing (before ++ p :: after)).jobs ≠ [] := by simp [jobs_listing]
  cases hl with
  | inr hl =>
    refine ⟨44, (after.flatMap fun q => 10 :: (emit q.2 ++ [44])) ++ [10, 93, 10],
      Or.inl rfl, ?_⟩
    rw [hl, hbegun.separate hne, jobs_listing, htext]
    simp
  | inl hl =>
    cases hbegun with
    | inl hnone => exact absurd hnone.1 hne
    | inr hsome =>
      obtain ⟨done, last, hjobs, hstream⟩ := hsome
      rw [jobs_listing] at hjobs
      rw [hl, hstream, htext]
      induction after using List.reverseRecOn with
      | nil =>
        obtain ⟨rfl, hlast⟩ := List.append_inj' hjobs rfl
        obtain rfl := List.singleton_inj.mp hlast
        exact ⟨93, [10], Or.inr ⟨rfl, rfl, rfl⟩, by simp⟩
      | append_singleton after q _ =>
        have hsplit : before ++ p :: after ++ [q] = done ++ [last] := by simpa using hjobs
        obtain ⟨rfl, hlast⟩ := List.append_inj' hsplit rfl
        obtain rfl := List.singleton_inj.mp hlast
        refine ⟨44, (after.flatMap fun q => 10 :: (emit q.2 ++ [44])) ++
          10 :: (emit q.2 ++ [93, 10]), Or.inl rfl, by simp⟩

/-- What the library reads is in the grammar. -/
theorem parsed_of_value {jobs : List (Int × Bytes)} (hplain : ∀ p ∈ jobs, Plain p.2)
    (h : ∀ p ∈ jobs, ∃ v, L.parse p.2 = some v) : Parsed jobs := by
  intro p hp
  obtain ⟨v, hv⟩ := h p hp
  obtain ⟨v', hv'⟩ := L.parse_strict (hplain p hp) hv
  rw [fileValue, hv', Option.getD_some]

/-- An empty piece is no value; it is passed over only where nothing else has been read. -/
theorem parse_of_empty {jobs : List (Int × Bytes)} (h : Pieces L jobs)
    (hempty : ∃ p ∈ jobs, p.2 = []) (hwhole : ∀ p ∈ jobs, torn L p = false) {bytes : Bytes}
    (hl : IsListing jobs bytes) {j : Json} (hj : L.parse bytes = some j) :
    (∃ id, jobs = [(id, [])]) ∧ j = .array [] := by
  have hfound : (jobs.find? fun p => decide (p.2 = [])).isSome := by
    simpa only [List.find?_isSome, decide_eq_true_eq] using hempty
  obtain ⟨p, hfind⟩ := Option.isSome_iff_exists.mp hfound
  obtain ⟨hp, before, after, rfl, hbefore⟩ := List.find?_eq_some_iff_append.mp hfind
  simp only [decide_eq_true_eq, Bool.not_eq_true', decide_eq_false_iff_not] at hp hbefore
  have hplain := plain_of_isListing hl
  obtain ⟨b, t, hb, hbytes⟩ := isListing_split hl
  have hcomplete : Parsed before := by
    apply parsed_of_value (L := L) fun q hq => h.plain (by simp [hq])
    intro q hq
    exact torn_eq_false (hwhole q (by simp [hq])) (hbefore q hq)
  rw [hp, emit_nil, List.nil_append, ← withCommas_fileTexts] at hbytes
  have htexts := texts_fileTexts hcomplete
  have hcomma (hopen : fileTexts before ≠ [] ∨ expect 93 (10 :: b :: t) = none) : False := by
    have hvalue (m : Nat) : value m (10 :: b :: t) = none := by
      rw [value_white (by decide)]
      cases hb with
      | inl hb => exact hb ▸ value_comma m t
      | inr hb =>
        rw [hb.1]
        exact value_of_expect (expect_self (by decide) t) m
    rw [L.parse_none hplain (hbytes ▸ parse_array_none htexts hvalue hopen)] at hj
    cases hj
  cases hb with
  | inl hb =>
    refine (hcomma (Or.inr ?_)).elim
    rw [expect_white (by decide), hb]
    exact expect_ne (by decide) (by decide) t
  | inr hb =>
    obtain ⟨rfl, rfl, rfl⟩ := hb
    by_cases hne : before = []
    · subst hne
      obtain ⟨id, content⟩ := p
      obtain rfl : content = [] := hp
      refine ⟨⟨id, rfl⟩, ?_⟩
      have hbrackets : bytes = text "[\n]\n" := hbytes.trans (by decide)
      rw [hbrackets, L.parse_empty] at hj
      exact (Option.some.inj hj).symm
    · exact (hcomma (Or.inl (by simpa [fileTexts] using hne))).elim

/-- Complete texts are read as the array of their values. -/
theorem parse_listing {jobs : List (Int × Bytes)} (hplain : ∀ p ∈ jobs, Plain p.2)
    (h : ∀ p ∈ jobs, ∃ v, L.parse p.2 = some v) :
    ∃ vs, jobs.map (fun p => L.parse p.2) = vs.map some ∧
      L.parse ((listing jobs).stream ++ text "]\n") = some (.array vs) := by
  have htext : text "]\n" = [93, 10] := by decide
  let fileText (p : Int × Bytes) : Bytes × Json := (10 :: emit p.2, (L.parse p.2).getD .null)
  have hvalue : ∀ p ∈ jobs, L.parse p.2 = some (fileText p).2 := by
    intro p hp
    obtain ⟨v, hv⟩ := h p hp
    simp only [fileText, hv, Option.getD_some]
  have hitem : ∀ p ∈ jobs, Plain (fileText p).1 ∧ L.parse (fileText p).1 = some (fileText p).2 := by
    intro p hp
    obtain ⟨hbefore, hbehind⟩ := L.parse_feed (hplain p hp) (hvalue p hp)
    cases emit_cases (hplain p hp).1 with
    | inl heq =>
      simp only [fileText, heq]
      exact ⟨⟨by simp [(hplain p hp).1], by simp⟩, hbefore⟩
    | inr heq =>
      have hends : Plain (p.2 ++ [10]) := by
        refine ⟨by simp [(hplain p hp).1], ?_⟩
        cases hp2 : p.2 with
        | nil => simp
        | cons b rest => simpa [hp2] using (hplain p hp).2
      simp only [fileText, heq]
      exact ⟨⟨by simp [(hplain p hp).1], by simp⟩, (L.parse_feed hends hbehind).1⟩
  refine ⟨jobs.map fun p => (fileText p).2, ?_, ?_⟩
  · rw [List.map_map]
    exact List.map_congr_left hvalue
  · cases begun_listing jobs with
    | inl hnone =>
      obtain rfl : jobs = [] := (jobs_listing jobs).symm.trans hnone.1
      exact L.parse_empty
    | inr hsome =>
      obtain ⟨done, p, hjobs, hstream⟩ := hsome
      rw [jobs_listing] at hjobs
      subst hjobs
      have hdone : ∀ t ∈ done.map fileText, Plain t.1 ∧ L.parse t.1 = some t.2 := by
        intro t ht
        obtain ⟨q, hq, rfl⟩ := List.mem_map.mp ht
        exact hitem q (by simp [hq])
      have hlast := hitem p (by simp)
      have harray := L.parse_array hdone hlast.1 hlast.2
      rw [hstream, htext]
      simpa [withCommas, List.flatMap_map, fileText, Function.comp_def] using harray

/-- What is read of pieces of records is the array of the records, unless nothing was read but one
file that is still empty. -/
theorem parse_pieces {jobs : List (Int × Bytes)} (h : Pieces L jobs) {bytes : Bytes}
    (hl : IsListing jobs bytes) {j : Json} (hj : L.parse bytes = some j) :
    (∃ vs, jobs.map (fun p => L.parse p.2) = vs.map some ∧ j = .array vs) ∨
      (∃ id, jobs = [(id, [])]) ∧ j = .array [] := by
  by_cases htorn : ∃ p ∈ jobs, torn L p = true
  · rw [parse_of_torn h htorn hl] at hj
    cases hj
  · have hwhole : ∀ p ∈ jobs, torn L p = false := fun p hp => by
      simpa using fun ht => htorn ⟨p, hp, ht⟩
    by_cases hempty : ∃ p ∈ jobs, p.2 = []
    · exact Or.inr (parse_of_empty h hempty hwhole hl hj)
    · have hplain : ∀ p ∈ jobs, Plain p.2 := fun p hp => h.plain hp
      have hvalues : ∀ p ∈ jobs, ∃ v, L.parse p.2 = some v := fun p hp =>
        torn_eq_false (hwhole p hp) fun hnil => hempty ⟨p, hp, hnil⟩
      obtain ⟨vs, hvs, hparse⟩ := parse_listing hplain hvalues
      have hsame (hbytes : bytes = (listing jobs).stream ++ text "]\n") : j = .array vs := by
        rw [hbytes, hparse] at hj
        exact (Option.some.inj hj).symm
      cases hl with
      | inl hl => exact Or.inl ⟨vs, hvs, hsame hl⟩
      | inr hl =>
        by_cases hne : (listing jobs).jobs = []
        · rw [separate_of_nil hne] at hl
          exact Or.inl ⟨vs, hvs, hsame hl⟩
        · have hparsed : Parsed (listing jobs).jobs :=
            (jobs_listing jobs).symm ▸ parsed_of_value hplain hvalues
          have hnone := not_arrayOfRead (begun_listing jobs) hparsed hne
          rw [L.parse_none (plain_of_isListing (Or.inr hl)) (hl ▸ hnone)] at hj
          cases hj

/-! ### Runs -/

/-- What a request has used of a file is a piece of a record that was begun for its id. -/
def UsesPieces (records : List (Bytes × Bytes)) (q : Request) : Prop :=
  ∀ p ∈ q.used, ∃ record, (decimal p.1, record) ∈ records ∧ p.2 <+: record

variable (L) in
structure Traced (s : Results) : Prop where
  tidy : Tidy s
  whole : ∀ id record, (decimal id, record) ∈ s.records → Whole L record
  used : ∀ i q, s.requests i = some q → UsesPieces s.records q

/-- A file holds a piece of the record that was begun last for it. -/
theorem prefix_record {s : Results} (h : Filled s) {name content : Bytes}
    (hl : s.finished.lookup name = some content) :
    ∃ record, s.records.lookup name = some record ∧ content <+: record := by
  by_cases hopen : ∃ k w, s.writers.lookup k = some w ∧ decimal w.id = name
  · obtain ⟨k, w, hw, rfl⟩ := hopen
    obtain ⟨written, hwritten, _, hrecord⟩ := h.writing k w hw
    obtain rfl : content = written := Option.some.inj (hl.symm.trans hwritten)
    exact ⟨_, hrecord, List.prefix_append _ _⟩
  · exact ⟨content, h.closed name content (fun k w hw heq => hopen ⟨k, w, hw, heq⟩) hl,
      List.prefix_rfl⟩

theorem Traced.start {s t : Results} {i : Nat} {ids : List Int} (h : Traced L s) (ht : Tidy t)
    (hs : s.start i ids = some t) : Traced L t := by
  obtain ⟨_, rfl⟩ := start_eq_some hs
  have hnew : UsesPieces s.records { ids := ids } := List.forall_mem_nil _
  exact ⟨ht, h.whole, fun j q hq => requests_set hnew h.used hq⟩

theorem Traced.step {s t : Results} {a : Action} (h : Traced L s) (hu : Undisturbed s a)
    (ha : Records L a) (hs : ResultFiles.step s a = some t) : Traced L t := by
  have ht := h.tidy.step hu hs
  cases a with
  | openResult k id record =>
    obtain ⟨_, rfl⟩ := step_openResult hs
    refine ⟨ht, ?_, ?_⟩
    · intro id' record' hmem
      cases List.mem_cons.mp hmem with
      | inl hnew =>
        obtain ⟨_, rfl⟩ := Prod.mk.inj hnew
        exact Recorded.whole ha
      | inr hold => exact h.whole id' record' hold
    · intro i q hq p hp
      obtain ⟨record', hmem, hprefix⟩ := h.used i q hq p hp
      exact ⟨record', List.mem_cons_of_mem _ hmem, hprefix⟩
  | write k n =>
    obtain ⟨w, _, rfl⟩ := step_write hs
    exact ⟨ht, h.whole, h.used⟩
  | close k =>
    obtain ⟨id, pos, _, rfl⟩ := step_close hs
    exact ⟨ht, h.whole, h.used⟩
  | getFinishedJob i jobId => exact h.start ht hs
  | getFinishedJobs i fromId max scan => exact h.start ht hs
  | openFile i =>
    obtain ⟨q, hq, _, rfl⟩ := step_openFile hs
    have hopen : UsesPieces s.records (q.open s.finished) := by
      rw [UsesPieces, used_open]
      exact h.used i q hq
    exact ⟨ht, h.whole, fun j q' hq' => requests_set hopen h.used hq'⟩
  | read i n =>
    obtain ⟨q, r, content, hq, hr, hl, rfl⟩ := step_read hs
    have hread : UsesPieces s.records (q.read r content n) := by
      obtain ⟨content', hl', hgot⟩ := h.tidy.follows i q hq r hr
      obtain rfl : content = content' := Option.some.inj (hl.symm.trans hl')
      obtain ⟨record, hrecord, hprefix⟩ := prefix_record h.tidy.filled hl
      rw [UsesPieces, used_read]
      split
      · rw [List.forall_mem_append, List.forall_mem_singleton]
        exact ⟨h.used i q hq, record, mem_of_lookup hrecord, hgot.trans hprefix⟩
      · exact h.used i q hq
    exact ⟨ht, h.whole, fun j q' hq' => requests_set hread h.used hq'⟩

/-- Where no runner opens a result file that is being written or read, the handlers take no part of
a record for a result, whatever they have read of the files. The bytes are a piece of a record that
was begun for the id; a single file is refused unless it is complete, and a listing unless all its
files are, or one file that is still empty is all of it. -/
theorem torn_reads_refused (finished : Dir)
    (hfinished : ∀ id record, finished.lookup (decimal id) = some record →
      Recorded L id record)
    (as : List Action) (has : ∀ a ∈ as, Records L a)
    (hundisturbed : Meets step Undisturbed (init finished) as) (s : Results)
    (hrun : run step (init finished) as = some s) (i : Nat) (q : Request)
    (hq : s.requests i = some q) :
    (∀ p ∈ q.used, ∃ record, (decimal p.1, record) ∈ s.records ∧ p.2 <+: record) ∧
    (∀ p ∈ q.used, ∀ j, L.parse p.2 = some j → (decimal p.1, p.2) ∈ s.records) ∧
    ∀ bytes j, IsListing q.used bytes → L.parse bytes = some j →
      (∃ vs, q.used.map (fun p => L.parse p.2) = vs.map some ∧
          (∀ p ∈ q.used, (decimal p.1, p.2) ∈ s.records) ∧ j = .array vs) ∨
        (∃ id, q.used = [(id, [])]) ∧ j = .array [] := by
  have hinit : Traced L (init finished) := by
    refine ⟨tidy_init finished, ?_, ?_⟩
    · intro id record hmem
      obtain ⟨e, he, heq⟩ := List.mem_map.mp hmem
      obtain ⟨hname, rfl⟩ := Prod.mk.inj heq
      exact (hfinished id e.2 (hname ▸ AList.mem_lookup_iff.mpr he)).whole
    · intro i q hq
      simp [init] at hq
  have htraced : Traced L s :=
    run_invariant_of_meets (fun s a t h hc hs => Traced.step h hc.1 hc.2 hs) hinit
      (hundisturbed.and_actions has) hrun
  have hused := htraced.used i q hq
  have hcomplete : ∀ p ∈ q.used, ∀ j, L.parse p.2 = some j → (decimal p.1, p.2) ∈ s.records := by
    intro p hp j hj
    obtain ⟨record, hmem, hprefix⟩ := hused p hp
    by_cases hcut : p.2 = record
    · exact hcut ▸ hmem
    · rw [(htraced.whole p.1 record hmem).torn hprefix hcut] at hj
      cases hj
  refine ⟨hused, hcomplete, ?_⟩
  intro bytes j hl hj
  have hpieces : Pieces L q.used := by
    intro p hp
    obtain ⟨record, hmem, hprefix⟩ := hused p hp
    exact ⟨record, htraced.whole p.1 record hmem, hprefix⟩
  cases parse_pieces hpieces hl hj with
  | inl h =>
    obtain ⟨vs, hvs, hvalue⟩ := h
    refine Or.inl ⟨vs, hvs, fun p hp => ?_, hvalue⟩
    have hmem : L.parse p.2 ∈ vs.map some := hvs ▸ List.mem_map_of_mem hp
    obtain ⟨v, _, hv⟩ := List.mem_map.mp hmem
    exact hcomplete p hp v hv.symm
  | inr h => exact Or.inr h

/- A job that took 1.5 ms. -/
def sampleRequestText : Bytes := text "\x7b\"name\":\"a\",\"script\":\"b\",\"serverUri\":\"c\"\x7d"

def sampleRequest : Json := .object [(text "name", .string (text "a")),
  (text "script", .string (text "b")), (text "serverUri", .string (text "c"))]

theorem parse_sampleRequest : sampleLibrary.parse sampleRequestText = some sampleRequest :=
  parse_sampleLibrary rfl rfl

def sampleJob : Job :=
  { m_status := .finished, m_name := text "a", m_serverUri := text "c", totalRuntime_ms := 3 / 2,
    start := 7, stop := 9, m_scriptDir := text "/opt/repo/scripts", m_script := text "b" }

def sampleRecordText : Bytes := sampleLibrary.dump (sampleJob.output 5 sampleRequest)

theorem recorded_sample : Recorded sampleLibrary 5 sampleRecordText := by
  refine ⟨sampleJob, sampleRequestText, sampleRequest, parse_sampleRequest, ⟨?_, ?_, ?_⟩,
    by decide, rfl⟩
  · exact sampleLibrary.value_int (by decide)
  · exact sampleLibrary.value_int (by decide)
  · exact .float (Or.inr rfl)

/- A listing reads the file of job 5 when one byte of it is written. -/
def earlyListing : List Action :=
  [.openResult 0 5 sampleRecordText, .write 0 1, .getFinishedJobs 0 5 10 .fromFound, .openFile 0,
    .read 0 8, .read 0 8, .openFile 0]

theorem torn_reads_refused_sample : ∃ s q, run step (init ∅) earlyListing = some s ∧
    s.requests 0 = some q ∧ q.used = [(5, text "\x7b")] ∧
    ∀ bytes, IsListing q.used bytes → sampleLibrary.parse bytes = none := by
  have hrecords : ∀ a ∈ earlyListing, Records sampleLibrary a := by
    intro a ha
    cases a with
    | openResult k id record =>
      obtain ⟨_, rfl, rfl⟩ : k = 0 ∧ id = 5 ∧ record = sampleRecordText := by
        simpa [earlyListing] using ha
      exact recorded_sample
    | _ => trivial
  have hundisturbed : Meets step Undisturbed (init ∅) earlyListing := by
    refine ⟨⟨fun _ _ hw => (by cases hw), fun _ _ _ hq => (by cases hq)⟩, fun _ _ => ?_⟩
    simp only [Meets, Undisturbed, true_and, implies_true]
  obtain ⟨_, _, hlisting⟩ := torn_reads_refused (L := sampleLibrary) ∅
    (fun id record hl => by cases hl) earlyListing hrecords hundisturbed _ rfl 0 _ rfl
  refine ⟨_, _, rfl, rfl, rfl, fun bytes hl => ?_⟩
  cases hj : sampleLibrary.parse bytes with
  | none => rfl
  | some j =>
    cases hlisting bytes j hl hj with
    | inl h =>
      obtain ⟨vs, _, hcomplete, _⟩ := h
      exact absurd (hcomplete (5, text "\x7b") (by decide)) (by decide +kernel)
    | inr h =>
      obtain ⟨⟨id, hid⟩, _⟩ := h
      cases hid

end OpcUaTestTool.TornResults
