import OpcUaTestTool.Directory
import OpcUaTestTool.Transition
import Mathlib.Logic.Function.Basic

/-! Result files under concurrent access. Test runners write `finished/<id>` in pieces, and
requests of the service read the same files in pieces; no lock is shared by the processes. -/
namespace OpcUaTestTool.ResultFiles
open FiniteMap Numerals Directory Transition

/- What the scan of `getFinishedJobs` over the directory comes to. -/
inductive Scan where
  | fromFound
  | highestId (id : Int)

/-- The ids whose files the loops of `DataBase::getFinishedJobs` try to read, in order, where the
bounds of the loops are values of `int`. -/
def finishedIds (fromId max : Int) : Scan → List Int
  | .fromFound => (List.range max.toNat).map fun k : Nat => fromId + k
  | .highestId highestId =>
    (List.range (Min.min highestId max + 1).toNat).map fun k : Nat => highestId - k

/- A file that is being read, with the bytes read so far. -/
structure Reading where
  id : Int
  got : Bytes := []

/- A request: the files still to be read, and those read to their end. -/
structure Request where
  ids : List Int
  reading : Option Reading := none
  used : List (Int × Bytes) := []

/- The open stream of a test runner: where it writes next, and the bytes still to come. -/
structure Writer where
  id : Int
  pos : Nat
  rest : Bytes

/- The result files, the complete records that were begun so far, the newest first, the streams of
the runners, and the requests. -/
structure Results where
  finished : Dir
  records : List (Bytes × Bytes)
  writers : Map Nat Writer := ∅
  requests : Nat → Option Request := fun _ => none

inductive Action where
  | openResult (k : Nat) (id : Int) (record : Bytes)
  | write (k : Nat) (n : Nat)
  | close (k : Nat)
  | getFinishedJob (i : Nat) (jobId : Int)
  | getFinishedJobs (i : Nat) (fromId max : Int) (scan : Scan)
  | openFile (i : Nat)
  | read (i : Nat) (n : Nat)

def Results.setRequest (s : Results) (i : Nat) (q : Request) : Results :=
  { s with requests := Function.update s.requests i (some q) }

def Results.start (s : Results) (i : Nat) (ids : List Int) : Option Results :=
  match s.requests i with
  | some _ => none
  | none => some (s.setRequest i { ids := ids })

/-- Opening the next file; the loops, and the request for one job, end at a missing one. -/
def Request.open (q : Request) (finished : Dir) : Request :=
  match q.ids with
  | [] => q
  | id :: ids =>
    if decimal id ∈ finished then { q with ids := ids, reading := some { id := id } }
    else { q with ids := [] }

/-- A read of at most `n` bytes. Where the file has no more bytes it reports the end of the file,
and what was read is used. -/
def Request.read (q : Request) (r : Reading) (content : Bytes) (n : Nat) : Request :=
  if content.length ≤ r.got.length then
    { q with reading := none, used := q.used ++ [(r.id, r.got)] }
  else { q with reading := some { r with got := r.got ++ (content.drop r.got.length).take n } }

/-- A piece that is written at an offset. Behind the end of the file zeros come before it. -/
def writeAt (content : Bytes) (pos : Nat) (piece : Bytes) : Bytes :=
  if piece = [] then content
  else content.take pos ++ List.replicate (pos - content.length) 0 ++ piece ++
    content.drop (pos + piece.length)

/- Runner `k` opens the result file of its job, which may be there already: ids come back. -/
def step (s : Results) : Action → Option Results
  | .openResult k id record =>
    if k ∈ s.writers then none
    else some { s with
      finished := openTruncate s.finished (decimal id)
      records := (decimal id, record) :: s.records
      writers := s.writers.insert k ⟨id, 0, record⟩ }
  | .write k n =>
    match s.writers.lookup k with
    | none => none
    | some w => some { s with
        finished := s.finished.insert (decimal w.id)
          (writeAt (Directory.read s.finished (decimal w.id)) w.pos (w.rest.take n))
        writers := s.writers.insert k ⟨w.id, w.pos + (w.rest.take n).length, w.rest.drop n⟩ }
  | .close k =>
    match s.writers.lookup k with
    | some ⟨_, _, []⟩ => some { s with writers := s.writers.erase k }
    | _ => none
  | .getFinishedJob i jobId => s.start i [jobId]
  | .getFinishedJobs i fromId max scan => s.start i (finishedIds fromId max scan)
  | .openFile i =>
    match s.requests i with
    | some q => if q.reading.isNone then some (s.setRequest i (q.open s.finished)) else none
    | none => none
  | .read i n =>
    match s.requests i with
    | some q =>
      match q.reading with
      | some r =>
        match s.finished.lookup (decimal r.id) with
        | some content => some (s.setRequest i (q.read r content n))
        | none => none
      | none => none
    | none => none

/-- The complete results of earlier jobs, before any runner or request. -/
def init (finished : Dir) : Results :=
  { finished := finished, records := finished.entries.map fun e => (e.1, e.2) }

/-- Every file used by a request is a complete record. -/
def AllComplete (s : Results) : Prop :=
  ∀ i q, s.requests i = some q → ∀ p ∈ q.used, (decimal p.1, p.2) ∈ s.records

/-- A read that reports the end of a file has got the record that was begun last for it. -/
def UsesRecord (s : Results) : Action → Prop
  | .read i _ => ∀ q r content, s.requests i = some q → q.reading = some r →
      s.finished.lookup (decimal r.id) = some content → content.length ≤ r.got.length →
      s.records.lookup (decimal r.id) = some r.got
  | _ => True

/-- No runner opens a file that another one is writing, or of which a request has read a part. -/
def Undisturbed (s : Results) : Action → Prop
  | .openResult _ id _ => (∀ k w, s.writers.lookup k = some w → w.id ≠ id) ∧
      ∀ i q r, s.requests i = some q → q.reading = some r → r.id = id → r.got = []
  | _ => True

/-- A read reports the end of a file only when its runner has no bytes left to write. -/
def Settled (s : Results) : Action → Prop
  | .read i _ => ∀ q r content k w, s.requests i = some q → q.reading = some r →
      s.finished.lookup (decimal r.id) = some content → content.length ≤ r.got.length →
      s.writers.lookup k = some w → w.id = r.id → w.rest = []
  | _ => True

/-! ### Steps -/

theorem step_openResult {s t : Results} {k : Nat} {id : Int} {record : Bytes}
    (h : step s (.openResult k id record) = some t) :
    s.writers.lookup k = none ∧ t = { s with
      finished := openTruncate s.finished (decimal id)
      records := (decimal id, record) :: s.records
      writers := s.writers.insert k ⟨id, 0, record⟩ } := by
  by_cases hk : k ∈ s.writers
  · simp [step, hk] at h
  · simp only [step, if_neg hk, Option.some.injEq] at h
    exact ⟨AList.lookup_eq_none.mpr hk, h.symm⟩

theorem step_write {s t : Results} {k n : Nat} (h : step s (.write k n) = some t) :
    ∃ w, s.writers.lookup k = some w ∧ t = { s with
      finished := s.finished.insert (decimal w.id)
        (writeAt (Directory.read s.finished (decimal w.id)) w.pos (w.rest.take n))
      writers := s.writers.insert k ⟨w.id, w.pos + (w.rest.take n).length, w.rest.drop n⟩ } := by
  cases hl : s.writers.lookup k with
  | none => simp [step, hl] at h
  | some w =>
    simp only [step, hl, Option.some.injEq] at h
    exact ⟨w, rfl, h.symm⟩

theorem step_close {s t : Results} {k : Nat} (h : step s (.close k) = some t) :
    ∃ id pos, s.writers.lookup k = some ⟨id, pos, []⟩ ∧
      t = { s with writers := s.writers.erase k } := by
  cases hl : s.writers.lookup k with
  | none => simp [step, hl] at h
  | some w =>
    obtain ⟨id, pos, rest⟩ := w
    cases rest with
    | nil =>
      simp only [step, hl, Option.some.injEq] at h
      exact ⟨id, pos, rfl, h.symm⟩
    | cons b rest => simp [step, hl] at h

theorem start_eq_some {s t : Results} {i : Nat} {ids : List Int} (h : s.start i ids = some t) :
    s.requests i = none ∧ t = s.setRequest i { ids := ids } := by
  cases hq : s.requests i with
  | some q => simp [Results.start, hq] at h
  | none =>
    simp only [Results.start, hq, Option.some.injEq] at h
    exact ⟨rfl, h.symm⟩

theorem step_openFile {s t : Results} {i : Nat} (h : step s (.openFile i) = some t) :
    ∃ q, s.requests i = some q ∧ q.reading = none ∧
      t = s.setRequest i (q.open s.finished) := by
  cases hq : s.requests i with
  | none => simp [step, hq] at h
  | some q =>
    cases hr : q.reading with
    | some r => simp [step, hq, hr] at h
    | none =>
      simp only [step, hq, hr, Option.isNone_none, if_true, Option.some.injEq] at h
      exact ⟨q, rfl, hr, h.symm⟩

theorem step_read {s t : Results} {i n : Nat} (h : step s (.read i n) = some t) :
    ∃ q r content, s.requests i = some q ∧ q.reading = some r ∧
      s.finished.lookup (decimal r.id) = some content ∧
      t = s.setRequest i (q.read r content n) := by
  cases hq : s.requests i with
  | none => simp [step, hq] at h
  | some q =>
    cases hr : q.reading with
    | none => simp [step, hq, hr] at h
    | some r =>
      cases hl : s.finished.lookup (decimal r.id) with
      | none => simp [step, hq, hr, hl] at h
      | some content =>
        simp only [step, hq, hr, hl, Option.some.injEq] at h
        exact ⟨q, r, content, rfl, hr, hl, h.symm⟩

/-- A request after one of its own steps, or another one, unchanged. -/
theorem requests_set {s : Results} {i : Nat} {q : Request} {P : Request → Prop} (hi : P q)
    (hs : ∀ j q', s.requests j = some q' → P q') {j : Nat} {q' : Request}
    (hq : (s.setRequest i q).requests j = some q') : P q' := by
  by_cases h : j = i
  · subst j
    simp only [Results.setRequest, Function.update_self, Option.some.injEq] at hq
    exact hq ▸ hi
  · simp only [Results.setRequest, Function.update_of_ne h] at hq
    exact hs j q' hq

/-! ### Files and streams -/

theorem writeAt_end (content piece : Bytes) :
    writeAt content content.length piece = content ++ piece := by
  by_cases h : piece = []
  · simp [writeAt, h]
  · simp [writeAt, h]

/- A file holds the record begun last, or the part of it that its only stream has written. -/
structure Filled (s : Results) : Prop where
  closed : ∀ name content, (∀ k w, s.writers.lookup k = some w → decimal w.id ≠ name) →
    s.finished.lookup name = some content → s.records.lookup name = some content
  writing : ∀ k w, s.writers.lookup k = some w → ∃ content,
    s.finished.lookup (decimal w.id) = some content ∧ w.pos = content.length ∧
      s.records.lookup (decimal w.id) = some (content ++ w.rest)
  single : ∀ k k' w w', s.writers.lookup k = some w → s.writers.lookup k' = some w' →
    w.id = w'.id → k = k'

theorem Filled.setRequest {s : Results} (h : Filled s) (i : Nat) (q : Request) :
    Filled (s.setRequest i q) :=
  ⟨h.closed, h.writing, h.single⟩

theorem lookup_cons_ne {records : List (Bytes × Bytes)} {name other record : Bytes}
    (h : other ≠ name) : ((name, record) :: records).lookup other = records.lookup other := by
  rw [List.lookup_cons, beq_eq_false_iff_ne.mpr h]

theorem Filled.openResult {s : Results} (h : Filled s) {k : Nat} {id : Int} (record : Bytes)
    (hk : s.writers.lookup k = none) (hid : ∀ k w, s.writers.lookup k = some w → w.id ≠ id) :
    Filled { s with
      finished := openTruncate s.finished (decimal id)
      records := (decimal id, record) :: s.records
      writers := s.writers.insert k ⟨id, 0, record⟩ } := by
  refine ⟨?_, ?_, ?_⟩
  · intro other content hother hl
    have hne : other ≠ decimal id := fun heq =>
      hother k ⟨id, 0, record⟩ (AList.lookup_insert _) heq.symm
    rw [lookup_openTruncate_ne hne] at hl
    refine (lookup_cons_ne hne).trans (h.closed other content (fun k' w hw => ?_) hl)
    exact hother k' w (lookup_insert_fresh (AList.lookup_eq_none.mp hk) hw)
  · intro k' w hw
    cases lookup_insert_eq_some.mp hw with
    | inl hnew =>
      obtain ⟨_, rfl⟩ := hnew
      exact ⟨[], AList.lookup_insert _, rfl, by simp⟩
    | inr hold =>
      obtain ⟨content, hl, hpos, hrecord⟩ := h.writing k' w hold.2
      have hne : decimal w.id ≠ decimal id := fun heq =>
        hid k' w hold.2 (decimal_injective heq)
      exact ⟨content, (lookup_openTruncate_ne hne).trans hl, hpos,
        (lookup_cons_ne hne).trans hrecord⟩
  · intro k₁ k₂ w₁ w₂ h₁ h₂ heq
    cases lookup_insert_eq_some.mp h₁ with
    | inl hnew₁ =>
      cases lookup_insert_eq_some.mp h₂ with
      | inl hnew₂ => exact hnew₁.1.trans hnew₂.1.symm
      | inr hold₂ =>
        rw [← hnew₁.2] at heq
        exact absurd heq.symm (hid k₂ w₂ hold₂.2)
    | inr hold₁ =>
      cases lookup_insert_eq_some.mp h₂ with
      | inl hnew₂ =>
        rw [← hnew₂.2] at heq
        exact absurd heq (hid k₁ w₁ hold₁.2)
      | inr hold₂ => exact h.single k₁ k₂ w₁ w₂ hold₁.2 hold₂.2 heq

/-- The only stream of a file writes at its end. -/
theorem Filled.written {s : Results} (h : Filled s) {k : Nat} {w : Writer}
    (hw : s.writers.lookup k = some w) (n : Nat) : ∃ content,
    s.finished.lookup (decimal w.id) = some content ∧ w.pos = content.length ∧
      s.records.lookup (decimal w.id) = some (content ++ w.rest) ∧
      writeAt (Directory.read s.finished (decimal w.id)) w.pos (w.rest.take n) =
        content ++ w.rest.take n := by
  obtain ⟨content, hl, hpos, hrecord⟩ := h.writing k w hw
  refine ⟨content, hl, hpos, hrecord, ?_⟩
  rw [Directory.read, hl, Option.getD_some, hpos, writeAt_end]

theorem Filled.write {s : Results} (h : Filled s) {k : Nat} {w : Writer} (n : Nat)
    (hw : s.writers.lookup k = some w) :
    Filled { s with
      finished := s.finished.insert (decimal w.id)
        (writeAt (Directory.read s.finished (decimal w.id)) w.pos (w.rest.take n))
      writers := s.writers.insert k ⟨w.id, w.pos + (w.rest.take n).length, w.rest.drop n⟩ } := by
  obtain ⟨content, hl, hpos, hrecord, hwritten⟩ := h.written hw n
  rw [hwritten]
  refine ⟨?_, ?_, ?_⟩
  · intro other content' hother hl'
    have hne : other ≠ decimal w.id := fun heq =>
      hother k _ (AList.lookup_insert _) heq.symm
    dsimp only at hl'
    rw [lookup_insert_ne hne] at hl'
    refine h.closed other content' (fun k' w' hw' => ?_) hl'
    by_cases hk : k' = k
    · subst hk
      rw [hw, Option.some.injEq] at hw'
      exact hw' ▸ hne.symm
    · exact hother k' w' ((lookup_insert_ne hk).trans hw')
  · intro k' w' hw'
    cases lookup_insert_eq_some.mp hw' with
    | inl hnew =>
      obtain ⟨_, rfl⟩ := hnew
      refine ⟨content ++ w.rest.take n, AList.lookup_insert _, ?_, ?_⟩
      · rw [List.length_append, hpos]
      · rw [List.append_assoc, List.take_append_drop]
        exact hrecord
    | inr hold =>
      obtain ⟨content', hl', hpos', hrecord'⟩ := h.writing k' w' hold.2
      have hne : decimal w'.id ≠ decimal w.id := fun heq =>
        hold.1 (h.single k' k w' w hold.2 hw (decimal_injective heq))
      exact ⟨content', (lookup_insert_ne hne).trans hl', hpos', hrecord'⟩
  · have hsame : ∀ k' w', (s.writers.insert k
        ⟨w.id, w.pos + (w.rest.take n).length, w.rest.drop n⟩).lookup k' = some w' →
        ∃ w'', s.writers.lookup k' = some w'' ∧ w''.id = w'.id := by
      intro k' w' hw'
      cases lookup_insert_eq_some.mp hw' with
      | inl hnew => exact ⟨w, hnew.1 ▸ hw, by rw [← hnew.2]⟩
      | inr hold => exact ⟨w', hold.2, rfl⟩
    intro k₁ k₂ w₁ w₂ h₁ h₂ heq
    obtain ⟨v₁, hv₁, hid₁⟩ := hsame k₁ w₁ h₁
    obtain ⟨v₂, hv₂, hid₂⟩ := hsame k₂ w₂ h₂
    exact h.single k₁ k₂ v₁ v₂ hv₁ hv₂ (by rw [hid₁, hid₂, heq])

theorem Filled.close {s : Results} (h : Filled s) {k : Nat} {id : Int} {pos : Nat}
    (hw : s.writers.lookup k = some ⟨id, pos, []⟩) :
    Filled { s with writers := s.writers.erase k } := by
  refine ⟨?_, ?_, ?_⟩
  · intro other content hother hl
    by_cases hne : other = decimal id
    · subst hne
      obtain ⟨content', hl', _, hrecord⟩ := h.writing k _ hw
      rw [List.append_nil] at hrecord
      rw [hrecord, ← hl']
      exact hl
    · refine h.closed other content (fun k' w hw' => ?_) hl
      by_cases hk : k' = k
      · subst hk
        rw [hw, Option.some.injEq] at hw'
        exact hw' ▸ Ne.symm hne
      · exact hother k' w (lookup_erase_eq_some.mpr ⟨hk, hw'⟩)
  · intro k' w hw'
    exact h.writing k' w (lookup_erase_eq_some.mp hw').2
  · intro k₁ k₂ w₁ w₂ h₁ h₂
    exact h.single k₁ k₂ w₁ w₂ (lookup_erase_eq_some.mp h₁).2 (lookup_erase_eq_some.mp h₂).2

/-! ### Reading -/

/-- What a request has read of an open file is the beginning of what the file holds. -/
def Follows (finished : Dir) (q : Request) : Prop :=
  ∀ r, q.reading = some r →
    ∃ content, finished.lookup (decimal r.id) = some content ∧ r.got <+: content

/-- The files of a directory keep what they hold and only get longer. -/
def Grows (d d' : Dir) : Prop :=
  ∀ name content, d.lookup name = some content → ∃ more, d'.lookup name = some (content ++ more)

theorem Follows.grow {d d' : Dir} {q : Request} (h : Follows d q) (hg : Grows d d') :
    Follows d' q := by
  intro r hr
  obtain ⟨content, hl, hpre⟩ := h r hr
  obtain ⟨more, hmore⟩ := hg _ content hl
  exact ⟨content ++ more, hmore, hpre.trans (List.prefix_append _ _)⟩

theorem grows_insert {d : Dir} {name content : Bytes} (h : d.lookup name = some content)
    (piece : Bytes) : Grows d (d.insert name (content ++ piece)) := by
  intro other content' hl
  by_cases hne : other = name
  · subst hne
    obtain rfl : content = content' := Option.some.inj (h.symm.trans hl)
    exact ⟨piece, AList.lookup_insert _⟩
  · exact ⟨[], by rw [List.append_nil, lookup_insert_ne hne, hl]⟩

/-- Cutting a file of which nothing has been read. -/
theorem Follows.openTruncate {d : Dir} {q : Request} (h : Follows d q) {id : Int}
    (hid : ∀ r, q.reading = some r → r.id = id → r.got = []) :
    Follows (openTruncate d (decimal id)) q := by
  intro r hr
  by_cases heq : r.id = id
  · rw [heq, hid r hr heq]
    exact ⟨[], AList.lookup_insert _, List.nil_prefix⟩
  · obtain ⟨content, hl, hpre⟩ := h r hr
    have hne : decimal r.id ≠ decimal id := fun h => heq (decimal_injective h)
    exact ⟨content, (lookup_openTruncate_ne hne).trans hl, hpre⟩

theorem Follows.openFile {d : Dir} {q : Request} (hq : q.reading = none) :
    Follows d (q.open d) := by
  intro r hr
  cases hids : q.ids with
  | nil => simp [Request.open, hids, hq] at hr
  | cons id ids =>
    by_cases hmem : decimal id ∈ d
    · simp only [Request.open, hids, if_pos hmem, Option.some.injEq] at hr
      subst r
      obtain ⟨content, hl⟩ := Option.isSome_iff_exists.mp (AList.lookup_isSome.mpr hmem)
      exact ⟨content, hl, List.nil_prefix⟩
    · simp [Request.open, hids, if_neg hmem, hq] at hr

theorem Follows.read {d : Dir} {q : Request} {r : Reading} {content : Bytes} (h : Follows d q)
    (hr : q.reading = some r) (hl : d.lookup (decimal r.id) = some content) (n : Nat) :
    Follows d (q.read r content n) := by
  obtain ⟨content', hl', hpre⟩ := h r hr
  obtain rfl : content = content' := Option.some.inj (hl.symm.trans hl')
  intro r' hr'
  by_cases hle : content.length ≤ r.got.length
  · simp [Request.read, if_pos hle] at hr'
  · simp only [Request.read, if_neg hle, Option.some.injEq] at hr'
    subst r'
    obtain ⟨more, rfl⟩ := hpre
    refine ⟨r.got ++ more, hl, ?_⟩
    rw [List.drop_left]
    exact (List.prefix_append_right_inj _).mpr (List.take_prefix _ _)

structure Tidy (s : Results) : Prop where
  filled : Filled s
  follows : ∀ i q, s.requests i = some q → Follows s.finished q

theorem lookup_entries (d : Dir) (name : Bytes) :
    (d.entries.map fun e => (e.1, e.2)).lookup name = d.lookup name := by
  obtain ⟨entries, hnodup⟩ := d
  change (entries.map fun e => (e.1, e.2)).lookup name = entries.dlookup name
  induction entries with
  | nil => rfl
  | cons e entries ih =>
    obtain ⟨other, content⟩ := e
    by_cases hne : name = other
    · subst hne
      simp
    · have htail := ih (List.nodupKeys_cons.mp hnodup).2
      rw [List.map_cons, lookup_cons_ne hne, htail]
      exact (List.dlookup_cons_ne entries ⟨other, content⟩ hne).symm

theorem tidy_init (finished : Dir) : Tidy (init finished) := by
  refine ⟨⟨?_, ?_, ?_⟩, ?_⟩
  · intro name content _ hl
    exact (lookup_entries finished name).trans hl
  · simp [init]
  · simp [init]
  · simp [init]

theorem Tidy.start {s t : Results} {i : Nat} {ids : List Int} (h : Tidy s)
    (hs : s.start i ids = some t) : Tidy t := by
  obtain ⟨_, rfl⟩ := start_eq_some hs
  refine ⟨h.filled.setRequest _ _, ?_⟩
  intro j q hq
  exact requests_set (P := Follows s.finished) (by simp [Follows]) h.follows hq

theorem Tidy.step {s t : Results} {a : Action} (h : Tidy s) (hu : Undisturbed s a)
    (hs : ResultFiles.step s a = some t) : Tidy t := by
  cases a with
  | openResult k id record =>
    obtain ⟨hk, rfl⟩ := step_openResult hs
    refine ⟨h.filled.openResult record hk hu.1, ?_⟩
    intro i q hq
    exact (h.follows i q hq).openTruncate fun r hr => hu.2 i q r hq hr
  | write k n =>
    obtain ⟨w, hw, rfl⟩ := step_write hs
    refine ⟨h.filled.write n hw, ?_⟩
    intro i q hq
    obtain ⟨content, hl, _, _, hwritten⟩ := h.filled.written hw n
    rw [hwritten]
    exact (h.follows i q hq).grow (grows_insert hl _)
  | close k =>
    obtain ⟨id, pos, hw, rfl⟩ := step_close hs
    exact ⟨h.filled.close hw, h.follows⟩
  | getFinishedJob i jobId => exact h.start hs
  | getFinishedJobs i fromId max scan => exact h.start hs
  | openFile i =>
    obtain ⟨q, _, hr, rfl⟩ := step_openFile hs
    refine ⟨h.filled.setRequest _ _, ?_⟩
    intro j q' hq
    exact requests_set (P := Follows s.finished) (Follows.openFile hr) h.follows hq
  | read i n =>
    obtain ⟨q, r, content, hq, hr, hl, rfl⟩ := step_read hs
    refine ⟨h.filled.setRequest _ _, ?_⟩
    intro j q' hq'
    exact requests_set (P := Follows s.finished) ((h.follows i q hq).read hr hl n) h.follows hq'

/-- At the end of a file, the bytes read are the record just if the runner has written it all. -/
theorem Tidy.read_end_iff {s : Results} (h : Tidy s) {i : Nat} {q : Request} {r : Reading}
    {content : Bytes} (hq : s.requests i = some q) (hr : q.reading = some r)
    (hl : s.finished.lookup (decimal r.id) = some content)
    (hle : content.length ≤ r.got.length) :
    s.records.lookup (decimal r.id) = some r.got ↔
      ∀ k w, s.writers.lookup k = some w → w.id = r.id → w.rest = [] := by
  obtain ⟨content', hl', hpre⟩ := h.follows i q hq r hr
  obtain rfl : content = content' := Option.some.inj (hl.symm.trans hl')
  rw [hpre.eq_of_length_le hle]
  by_cases hopen : ∃ k w, s.writers.lookup k = some w ∧ w.id = r.id
  · obtain ⟨k, w, hw, hid⟩ := hopen
    obtain ⟨written, hwritten, _, hrecord⟩ := h.filled.writing k w hw
    rw [hid] at hwritten hrecord
    obtain rfl : content = written := Option.some.inj (hl.symm.trans hwritten)
    rw [hrecord, Option.some.injEq, List.append_right_eq_self]
    constructor
    · intro hrest k' w' hw' hid'
      obtain rfl := h.filled.single k' k w' w hw' hw (hid'.trans hid.symm)
      rw [hw, Option.some.injEq] at hw'
      exact hw' ▸ hrest
    · exact fun hall => hall k w hw hid
  · refine iff_of_true (h.filled.closed _ content (fun k w hw heq => ?_) hl) ?_
    · exact hopen ⟨k, w, hw, decimal_injective heq⟩
    · exact fun k w hw hid => absurd ⟨k, w, hw, hid⟩ hopen

/-! ### Complete records -/

theorem used_open (q : Request) (finished : Dir) : (q.open finished).used = q.used := by
  cases hids : q.ids with
  | nil => simp [Request.open, hids]
  | cons id ids =>
    by_cases hmem : decimal id ∈ finished
    · simp [Request.open, hids, hmem]
    · simp [Request.open, hids, hmem]

theorem used_read (q : Request) (r : Reading) (content : Bytes) (n : Nat) :
    (q.read r content n).used =
      if content.length ≤ r.got.length then q.used ++ [(r.id, r.got)] else q.used := by
  by_cases hle : content.length ≤ r.got.length
  · simp [Request.read, hle]
  · simp [Request.read, hle]

/-- A read uses a complete record just if it does not end in an unfinished file. -/
theorem Tidy.usesRecord_iff {s : Results} (h : Tidy s) (a : Action) :
    UsesRecord s a ↔ Settled s a := by
  cases a with
  | read i n =>
    constructor
    · intro hu q r content k w hq hr hl hle hw hid
      exact (h.read_end_iff hq hr hl hle).mp (hu q r content hq hr hl hle) k w hw hid
    · intro hs q r content hq hr hl hle
      exact (h.read_end_iff hq hr hl hle).mpr fun k w => hs q r content k w hq hr hl hle
  | _ => exact Iff.rfl

theorem mem_of_lookup {records : List (Bytes × Bytes)} {name record : Bytes}
    (h : records.lookup name = some record) : (name, record) ∈ records := by
  obtain ⟨before, behind, rfl, _⟩ := List.lookup_eq_some_iff.mp h
  simp

def UsesComplete (records : List (Bytes × Bytes)) (q : Request) : Prop :=
  ∀ p ∈ q.used, (decimal p.1, p.2) ∈ records

theorem allComplete_start {s t : Results} {i : Nat} {ids : List Int} (h : AllComplete s)
    (hs : s.start i ids = some t) : AllComplete t := by
  obtain ⟨_, rfl⟩ := start_eq_some hs
  have hnew : UsesComplete s.records { ids := ids } := List.forall_mem_nil _
  intro j q hq
  exact requests_set hnew h hq

theorem allComplete_step {s t : Results} {a : Action} (h : AllComplete s) (hu : UsesRecord s a)
    (hs : step s a = some t) : AllComplete t := by
  cases a with
  | openResult k id record =>
    obtain ⟨_, rfl⟩ := step_openResult hs
    intro i q hq p hp
    exact List.mem_cons_of_mem _ (h i q hq p hp)
  | write k n =>
    obtain ⟨w, _, rfl⟩ := step_write hs
    exact h
  | close k =>
    obtain ⟨id, pos, _, rfl⟩ := step_close hs
    exact h
  | getFinishedJob i jobId => exact allComplete_start h hs
  | getFinishedJobs i fromId max scan => exact allComplete_start h hs
  | openFile i =>
    obtain ⟨q, hq, _, rfl⟩ := step_openFile hs
    intro j q' hq'
    apply requests_set (P := UsesComplete s.records) _ h hq'
    rw [UsesComplete, used_open]
    exact h i q hq
  | read i n =>
    obtain ⟨q, r, content, hq, hr, hl, rfl⟩ := step_read hs
    intro j q' hq'
    apply requests_set (P := UsesComplete s.records) _ h hq'
    rw [UsesComplete, used_read]
    by_cases hle : content.length ≤ r.got.length
    · rw [if_pos hle, List.forall_mem_append, List.forall_mem_singleton]
      exact ⟨h i q hq, mem_of_lookup (hu q r content hq hr hl hle)⟩
    · rw [if_neg hle]
      exact h i q hq

/-- Where no runner opens a file that is being written or read, and no read reports the end of a
file while its runner has bytes left to write, requests use complete records only. In the runs of
the first kind, the reads that report the end of a file get its record exactly if they are of the
second kind. -/
theorem complete_results_iff (finished : Dir) (as : List Action) :
    (Meets step (fun s a => Undisturbed s a ∧ Settled s a) (init finished) as →
      Along step AllComplete (init finished) as) ∧
    (Meets step Undisturbed (init finished) as →
      (Meets step UsesRecord (init finished) as ↔ Meets step Settled (init finished) as)) := by
  refine ⟨?_, ?_⟩
  · intro hm
    have hstep : ∀ s a t, Tidy s ∧ AllComplete s → Undisturbed s a ∧ Settled s a →
        step s a = some t → Tidy t ∧ AllComplete t := by
      intro s a t h hc hs
      exact ⟨h.1.step hc.1 hs, allComplete_step h.2 ((h.1.usesRecord_iff a).mpr hc.2) hs⟩
    have h0 : AllComplete (init finished) := fun i q hq => by simp [init] at hq
    exact along_of_invariant hstep (fun _ h => h.2) ⟨tidy_init finished, h0⟩ hm
  · intro hm
    exact meets_congr (fun _ _ _ h hu hs => Tidy.step h hu hs)
      (fun _ a h => Tidy.usesRecord_iff h a) (tidy_init finished) hm

theorem run_writes {s : Results} {d : Dir} {k : Nat} {id : Int} (ns : List Nat)
    (written rest : Bytes) (hd : s.finished = d.insert (decimal id) written)
    (hs : s.writers.lookup k = some ⟨id, written.length, rest⟩) :
    ∃ writers, run step s (ns.map (.write k)) = some { s with
        finished := d.insert (decimal id) (written ++ rest.take ns.sum)
        writers := writers } ∧
      (∃ pos, writers.lookup k = some ⟨id, pos, rest.drop ns.sum⟩) ∧
      writers.erase k = s.writers.erase k := by
  induction ns generalizing s written rest with
  | nil =>
    refine ⟨s.writers, ?_, ⟨written.length, by simpa using hs⟩, rfl⟩
    simp [← hd]
  | cons n ns ih =>
    have hstep : step s (.write k n) = some { s with
        finished := d.insert (decimal id) (written ++ rest.take n)
        writers := s.writers.insert k
          ⟨id, (written ++ rest.take n).length, rest.drop n⟩ } := by
      simp [step, hs, hd, Directory.read, writeAt_end]
    obtain ⟨writers, hrun, hlookup, herase⟩ := ih (s := { s with
      finished := d.insert (decimal id) (written ++ rest.take n)
      writers := s.writers.insert k ⟨id, (written ++ rest.take n).length, rest.drop n⟩ })
      (written ++ rest.take n) (rest.drop n) rfl (AList.lookup_insert _)
    refine ⟨writers, ?_, ?_, ?_⟩
    · rw [List.map_cons, run, hstep, Option.bind_some, hrun, List.sum_cons, List.append_assoc,
        List.take_add]
    · rw [List.sum_cons, ← List.drop_drop]
      exact hlookup
    · rw [herase, erase_insert_self]

/-- A runner that nobody watches stores its record as a single write would. -/
theorem run_addResult {s : Results} {k : Nat} {id : Int} {record : Bytes} (ns : List Nat)
    (hk : k ∉ s.writers) (hns : record.length ≤ ns.sum) :
    run step s ([.openResult k id record] ++ ns.map (.write k) ++ [.close k]) = some { s with
      finished := store s.finished (decimal id) record .stored
      records := (decimal id, record) :: s.records
      writers := s.writers.erase k } := by
  have hopen : run step s [.openResult k id record] = some { s with
      finished := s.finished.insert (decimal id) []
      records := (decimal id, record) :: s.records
      writers := s.writers.insert k ⟨id, 0, record⟩ } := by
    simp [run, step, hk, openTruncate]
  obtain ⟨writers, hrun, ⟨pos, hlookup⟩, herase⟩ := run_writes (s := { s with
    finished := s.finished.insert (decimal id) []
    records := (decimal id, record) :: s.records
    writers := s.writers.insert k ⟨id, 0, record⟩ }) ns [] record rfl (AList.lookup_insert _)
  rw [List.drop_eq_nil_of_le hns] at hlookup
  rw [run_append, run_append, hopen, Option.bind_some, hrun, Option.bind_some]
  simp [run, step, hlookup, herase, erase_insert_self, List.take_of_length_le hns, store]

/- The file of job 5 is opened while it is written, and read to its end when it is complete. -/
def patientRequest : List Action :=
  [.openResult 0 5 (text "abc"), .write 0 1, .getFinishedJob 0 5, .openFile 0, .read 0 8,
    .write 0 8, .read 0 8, .read 0 8]

theorem complete_results_sample : ∃ s, run step (init ∅) patientRequest = some s ∧
    (∃ q, s.requests 0 = some q ∧ q.used = [(5, text "abc")]) ∧
    Along step AllComplete (init ∅) patientRequest := by
  refine ⟨_, rfl, ⟨_, rfl, rfl⟩, (complete_results_iff ∅ patientRequest).1 ?_⟩
  have hopen : Undisturbed (init ∅) (.openResult 0 5 (text "abc")) :=
    ⟨fun _ _ hw => (by cases hw), fun _ _ _ hq => (by cases hq)⟩
  -- the first read gets a byte, the others come when all is written
  have hearly : ∀ (s : Results) q r content, s.requests 0 = some q → q.reading = some r →
      s.finished.lookup (decimal r.id) = some content → r.got.length < content.length →
      Settled s (.read 0 8) := by
    intro s q r content hq hr hl hlt q' r' content' k w hq' hr' hl' hle
    obtain rfl := Option.some.inj (hq.symm.trans hq')
    obtain rfl := Option.some.inj (hr.symm.trans hr')
    obtain rfl := Option.some.inj (hl.symm.trans hl')
    omega
  have hlate : ∀ (s : Results) w, s.writers = (∅ : Map Nat Writer).insert 0 w → w.rest = [] →
      Settled s (.read 0 8) := by
    intro s w hs hrest q r content k w' _ _ _ _ hw _
    rw [hs] at hw
    cases lookup_insert_eq_some.mp hw with
    | inl heq => exact heq.2 ▸ hrest
    | inr hnone => cases hnone.2
  refine ⟨⟨hopen, trivial⟩, fun t ht => ?_⟩
  obtain rfl := Option.some.inj ht
  refine ⟨⟨trivial, trivial⟩, fun t ht => ?_⟩
  obtain rfl := Option.some.inj ht
  refine ⟨⟨trivial, trivial⟩, fun t ht => ?_⟩
  obtain rfl := Option.some.inj ht
  refine ⟨⟨trivial, trivial⟩, fun t ht => ?_⟩
  obtain rfl := Option.some.inj ht
  refine ⟨⟨trivial, hearly _ _ _ _ rfl rfl rfl (by decide)⟩, fun t ht => ?_⟩
  obtain rfl := Option.some.inj ht
  refine ⟨⟨trivial, trivial⟩, fun t ht => ?_⟩
  obtain rfl := Option.some.inj ht
  refine ⟨⟨trivial, hlate _ ⟨5, 3, []⟩ rfl rfl⟩, fun t ht => ?_⟩
  obtain rfl := Option.some.inj ht
  exact ⟨⟨trivial, hlate _ ⟨5, 3, []⟩ rfl rfl⟩, fun t ht => trivial⟩

/- Both routes read the file of job 5 after it is created and before it is complete. -/
def earlyReaders : List Action :=
  [.openResult 0 5 (text "abc"), .getFinishedJob 0 5, .openFile 0, .read 0 8, .write 0 1,
    .getFinishedJobs 1 5 10 .fromFound, .openFile 1, .read 1 8, .read 1 8, .write 0 8, .close 0]

/-- One request uses an empty result, another one the first byte of it. -/
theorem early_readers_see_partial_result : ∃ s, run step (init ∅) earlyReaders = some s ∧
    s.records = [(decimal 5, text "abc")] ∧
    (∃ q, s.requests 0 = some q ∧ q.used = [(5, [])]) ∧
    (∃ q, s.requests 1 = some q ∧ q.used = [(5, text "a")]) ∧ ¬ AllComplete s := by
  refine ⟨_, rfl, rfl, ⟨_, rfl, rfl⟩, ⟨_, rfl, rfl⟩, ?_⟩
  intro h
  exact absurd (h 0 _ rfl (5, []) (by decide)) (by decide)

/- The file of job 5 is cut under a request that has read a part of it. No read ends too early, and
what it uses is made of two records. -/
def cutUnderReader : List Action :=
  [.openResult 0 5 (text "abc"), .write 0 8, .close 0, .getFinishedJob 0 5, .openFile 0, .read 0 1,
    .openResult 1 5 (text "xyz"), .write 1 8, .close 1, .read 0 8, .read 0 8]

example : ((run step (init ∅) cutUnderReader).bind fun s =>
    (s.requests 0).map Request.used) = some [(5, text "ayz")] := by decide

end OpcUaTestTool.ResultFiles
