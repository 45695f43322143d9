import OpcUaTestTool.CriticalSections
import OpcUaTestTool.Numerals
import OpcUaTestTool.Transition

/-! `Repl::newLine` in the worker threads of the HTTP server: each puts its message into the input
queue of the terminal one character at a time. -/
namespace OpcUaTestTool.ReplInput
open FiniteMap Numerals CriticalSections Transition

/-- The message of a line: the line and a newline. -/
def message (line : Bytes) : Bytes := line ++ text "\n"

/- A call of `newLine`: what the iterator has passed, and what is left. -/
structure Thread where
  line : Bytes
  injected : Bytes
  rest : Bytes
  whole : injected ++ rest = message line

def Thread.start (line : Bytes) : Thread := ⟨line, [], message line, rfl⟩

def Thread.advance (t : Thread) (c : UInt8) (rest : Bytes) (h : t.rest = c :: rest) : Thread :=
  ⟨t.line, t.injected ++ [c], rest, by
    rw [List.append_assoc, List.singleton_append, ← h]
    exact t.whole⟩

/-- A part of the message is in the queue, and a part is not. -/
def Thread.Busy (t : Thread) : Prop := t.injected ≠ [] ∧ t.rest ≠ []

instance : DecidablePred Thread.Busy :=
  fun t => inferInstanceAs (Decidable (t.injected ≠ [] ∧ t.rest ≠ []))

def Thread.unfinished (t : Thread) : Option Bytes := if t.rest = [] then none else some t.line

/- The lines submitted so far, and those of them that are in the queue whole, are kept for the
statements below. -/
structure Terminal where
  queue : Bytes := []
  threads : Map Nat Thread := ∅
  submitted : List Bytes := []
  completed : List Bytes := []

inductive Action where
  | newLine (i : Nat) (line : Bytes)
  | ioctl (i : Nat)
  | answer (i : Nat)

def step (s : Terminal) : Action → Option Terminal
  | .newLine i line =>
    if i ∈ s.threads then none
    else some { s with
      threads := s.threads.insert i (.start line)
      submitted := line :: s.submitted }
  | .ioctl i =>
    match s.threads.lookup i with
    | none => none
    | some t =>
      match h : t.rest with
      | [] => none
      | c :: rest =>
        some { s with
          queue := s.queue ++ [c]
          threads := s.threads.insert i (t.advance c rest h)
          completed := if rest = [] then s.completed ++ [t.line] else s.completed }
  | .answer i =>
    match s.threads.lookup i with
    | none => none
    | some t => if t.rest = [] then some { s with threads := s.threads.erase i } else none

def init : Terminal := {}

/-- The lines that end in a stretch of input, of which the first has begun already. -/
def linesRead : Bytes → Bytes → List Bytes
  | _, [] => []
  | begun, c :: rest =>
    if c = 10 then begun :: linesRead [] rest else linesRead (begun ++ [c]) rest

/-- The queue holds the completed messages in some order and at most a part of one more. When no
call is left, those are all that were submitted. Each line read is one of a single message. -/
structure Unmixed (s : Terminal) : Prop where
  queue : ∃ (order : List Bytes) (part : Bytes), order.Perm s.completed ∧
    s.queue = order.flatMap message ++ part ∧
    (part = [] ∨ ∃ i t, s.threads.lookup i = some t ∧ t.Busy ∧ part = t.injected)
  all : s.threads = ∅ → s.completed.Perm s.submitted
  read : ∀ l ∈ linesRead [] s.queue, ∃ line ∈ s.submitted, l ∈ linesRead [] (message line)

/-- No character of a message comes between those of another one. -/
def InTurn (s : Terminal) : Action → Prop
  | .ioctl i => Alone Thread.Busy s.threads i
  | _ => True

instance (s : Terminal) : (a : Action) → Decidable (InTurn s a)
  | .newLine _ _ => isTrue trivial
  | .ioctl i => inferInstanceAs (Decidable (Alone Thread.Busy s.threads i))
  | .answer _ => isTrue trivial

theorem linesRead_append (begun a b : Bytes) :
    linesRead begun (a ++ [10] ++ b) = linesRead begun (a ++ [10]) ++ linesRead [] b := by
  induction a generalizing begun with
  | nil => simp [linesRead]
  | cons c a ih =>
    by_cases hc : c = 10
    · simp [linesRead, hc, ← ih]
    · simp [linesRead, hc, ← ih]

theorem linesRead_prefix (begun a b : Bytes) : linesRead begun a <+: linesRead begun (a ++ b) := by
  induction a generalizing begun with
  | nil => exact List.nil_prefix
  | cons c a ih =>
    by_cases hc : c = 10
    · simpa [linesRead, hc] using ih []
    · simpa [linesRead, hc] using ih (begun ++ [c])

theorem linesRead_flatMap (order : List Bytes) (part : Bytes) :
    linesRead [] (order.flatMap message ++ part) =
      (order.flatMap fun line => linesRead [] (message line)) ++ linesRead [] part := by
  induction order with
  | nil => rfl
  | cons line order ih =>
    have hsplit : (line :: order).flatMap message ++ part =
        line ++ [10] ++ (order.flatMap message ++ part) := by
      simp [message, text]
    have hmessage : message line = line ++ [10] := rfl
    rw [hsplit, linesRead_append, ih, List.flatMap_cons, List.append_assoc, hmessage]

def unfinished (threads : Map Nat Thread) : List Bytes :=
  (values threads).filterMap Thread.unfinished

/- What holds while the messages take turns. -/
structure Sane (s : Terminal) : Prop where
  exclusive : Exclusive Thread.Busy s.threads
  idle : Idle Thread.Busy s.threads → s.queue = s.completed.flatMap message
  busy : ∀ i t, s.threads.lookup i = some t → t.Busy →
    s.queue = s.completed.flatMap message ++ t.injected
  submitted : s.submitted.Perm (s.completed ++ unfinished s.threads)

theorem sane_init : Sane init := by
  refine ⟨idle_empty.exclusive, fun _ => rfl, ?_, List.Perm.refl _⟩
  intro i t hl
  cases hl

theorem unfinished_cons (t : Thread) (ts : List Thread) :
    (t :: ts).filterMap Thread.unfinished =
      t.unfinished.toList ++ ts.filterMap Thread.unfinished := by
  cases h : t.unfinished with
  | none => simp [h]
  | some line => simp [h]

theorem unfinished_of_rest {t : Thread} (h : t.rest ≠ []) : t.unfinished = some t.line := by
  simp [Thread.unfinished, h]

theorem unfinished_lookup {threads : Map Nat Thread} {i : Nat} {t : Thread}
    (h : threads.lookup i = some t) :
    (unfinished threads).Perm (t.unfinished.toList ++ unfinished (threads.erase i)) := by
  rw [unfinished, unfinished, ← unfinished_cons]
  exact (values_erase h).filterMap _

theorem Sane.mem_submitted {s : Terminal} (hs : Sane s) {i : Nat} {t : Thread}
    (hl : s.threads.lookup i = some t) (hrest : t.rest ≠ []) : t.line ∈ s.submitted := by
  refine hs.submitted.mem_iff.mpr (List.mem_append_right _ ?_)
  exact List.mem_filterMap.mpr ⟨t, mem_values_of_lookup hl, unfinished_of_rest hrest⟩

/-- The completed messages, and the part of the message whose turn it is. -/
theorem Sane.parts {s : Terminal} (hs : Sane s) :
    ∃ part, s.queue = s.completed.flatMap message ++ part ∧
      (part = [] ∨ ∃ i t, s.threads.lookup i = some t ∧ t.Busy ∧ part = t.injected) := by
  by_cases hi : Idle Thread.Busy s.threads
  · exact ⟨[], by rw [hs.idle hi, List.append_nil], Or.inl rfl⟩
  · simp only [Idle, not_forall, not_not] at hi
    obtain ⟨i, t, hl, hb⟩ := hi
    exact ⟨t.injected, hs.busy i t hl hb, Or.inr ⟨i, t, hl, hb, rfl⟩⟩

theorem Sane.unmixed {s : Terminal} (hs : Sane s) : Unmixed s := by
  obtain ⟨part, hqueue, hpart⟩ := hs.parts
  refine ⟨⟨s.completed, part, List.Perm.refl _, hqueue, hpart⟩, ?_, ?_⟩
  · intro hempty
    have hperm := hs.submitted
    rw [hempty] at hperm
    simpa [unfinished] using hperm.symm
  · intro l hl
    rw [hqueue, linesRead_flatMap] at hl
    cases List.mem_append.mp hl with
    | inl hl =>
      obtain ⟨line, hline, hl⟩ := List.mem_flatMap.mp hl
      exact ⟨line, hs.submitted.mem_iff.mpr (List.mem_append_left _ hline), hl⟩
    | inr hl =>
      cases hpart with
      | inl hnil =>
        rw [hnil] at hl
        cases hl
      | inr hsome =>
        obtain ⟨i, t, hlookup, hb, rfl⟩ := hsome
        have hprefix := linesRead_prefix [] t.injected t.rest
        rw [t.whole] at hprefix
        exact ⟨t.line, hs.mem_submitted hlookup hb.2, hprefix.subset hl⟩

theorem step_newLine {s t : Terminal} {i : Nat} {line : Bytes}
    (h : step s (.newLine i line) = some t) : i ∉ s.threads ∧ t = { s with
      threads := s.threads.insert i (.start line)
      submitted := line :: s.submitted } := by
  simp only [step] at h
  split at h
  · cases h
  · rename_i hi
    exact ⟨hi, (Option.some.inj h).symm⟩

theorem step_ioctl {s t : Terminal} {i : Nat} (h : step s (.ioctl i) = some t) :
    ∃ (u : Thread) (c : UInt8) (rest : Bytes) (hrest : u.rest = c :: rest),
      s.threads.lookup i = some u ∧ t = { s with
        queue := s.queue ++ [c]
        threads := s.threads.insert i (u.advance c rest hrest)
        completed := if rest = [] then s.completed ++ [u.line] else s.completed } := by
  simp only [step] at h
  split at h
  · cases h
  · rename_i u hl
    split at h
    · cases h
    · rename_i c rest hrest
      exact ⟨u, c, rest, hrest, hl, (Option.some.inj h).symm⟩

theorem step_answer {s t : Terminal} {i : Nat} (h : step s (.answer i) = some t) :
    ∃ u, s.threads.lookup i = some u ∧ u.rest = [] ∧
      t = { s with threads := s.threads.erase i } := by
  simp only [step] at h
  split at h
  · cases h
  · rename_i u hl
    split at h
    · rename_i hrest
      exact ⟨u, hl, hrest, (Option.some.inj h).symm⟩
    · cases h

theorem sane_newLine {s t : Terminal} {i : Nat} {line : Bytes} (hs : Sane s)
    (h : step s (.newLine i line) = some t) : Sane t := by
  obtain ⟨hi, rfl⟩ := step_newLine h
  have hstart : ¬ (Thread.start line).Busy := fun hb => hb.1 rfl
  refine ⟨hs.exclusive.insert_outside hstart,
    fun hidle => hs.idle (hidle.of_insert (outside_of_notMem hi)), ?_, ?_⟩
  · intro k u hl hb
    cases lookup_insert_eq_some.mp hl with
    | inl hl => exact absurd (hl.2 ▸ hb) hstart
    | inr hl => exact hs.busy k u hl.2 hb
  · have hnew : unfinished (s.threads.insert i (.start line)) = line :: unfinished s.threads := by
      rw [unfinished, values_insert _ hi, unfinished_cons,
        unfinished_of_rest (by simp [Thread.start, message, text])]
      rfl
    rw [hnew]
    exact (hs.submitted.cons line).trans List.perm_middle.symm

/-- What stands in the queue before the next character of a message whose turn it is. -/
theorem Sane.before {s : Terminal} (hs : Sane s) {i : Nat} {u : Thread}
    (hl : s.threads.lookup i = some u) (hrest : u.rest ≠ [])
    (ha : Alone Thread.Busy s.threads i) :
    s.queue = s.completed.flatMap message ++ u.injected := by
  by_cases hnil : u.injected = []
  · have hidle : Idle Thread.Busy s.threads := by
      refine (Idle.erase ha).of_erase ?_
      intro v hv hb
      obtain rfl : u = v := Option.some.inj (hl.symm.trans hv)
      exact hb.1 hnil
    rw [hs.idle hidle, hnil, List.append_nil]
  · exact hs.busy i u hl ⟨hnil, hrest⟩

theorem sane_ioctl {s t : Terminal} {i : Nat} (hs : Sane s) (ha : Alone Thread.Busy s.threads i)
    (h : step s (.ioctl i) = some t) : Sane t := by
  obtain ⟨u, c, rest, hrest, hl, rfl⟩ := step_ioctl h
  have hne : u.rest ≠ [] := by simp [hrest]
  have hqueue := hs.before hl hne ha
  have hsubmitted := hs.submitted.trans ((unfinished_lookup hl).append_left _)
  rw [unfinished_of_rest hne] at hsubmitted
  have hupdate : unfinished (s.threads.insert i (u.advance c rest hrest)) =
      (u.advance c rest hrest).unfinished.toList ++ unfinished (s.threads.erase i) := by
    rw [unfinished, values_update, unfinished_cons]
    rfl
  by_cases hlast : rest = []
  · subst hlast
    have hdone : ¬ (u.advance c [] hrest).Busy := fun hb => hb.2 rfl
    have hidle : Idle Thread.Busy (s.threads.insert i (u.advance c [] hrest)) :=
      Idle.insert ha hdone
    refine ⟨hidle.exclusive, ?_, fun k v hv hb => absurd hb (hidle k v hv), ?_⟩
    · intro _
      have hwhole := (u.advance c [] hrest).whole
      simp only [Thread.advance, List.append_nil] at hwhole
      simp [hqueue, hwhole]
    · rw [hupdate]
      simpa [Thread.unfinished, Thread.advance] using hsubmitted
  · have hb : (u.advance c rest hrest).Busy := ⟨by simp [Thread.advance], hlast⟩
    refine ⟨Exclusive.insert ha _, ?_, ?_, ?_⟩
    · intro hidle
      exact absurd hb (hidle i _ (AList.lookup_insert _))
    · intro k v hv hbv
      have hk : k = i := by
        by_contra hk
        exact ha.insert _ k v hk hv hbv
      subst hk
      simp only [AList.lookup_insert, Option.some.injEq] at hv
      subst hv
      simp [hqueue, hlast, Thread.advance]
    · rw [hupdate, if_neg hlast, unfinished_of_rest hb.2]
      exact hsubmitted

theorem sane_answer {s t : Terminal} {i : Nat} (hs : Sane s) (h : step s (.answer i) = some t) :
    Sane t := by
  obtain ⟨u, hl, hrest, rfl⟩ := step_answer h
  have hdone : ∀ v, s.threads.lookup i = some v → ¬ v.Busy := by
    intro v hv hb
    obtain rfl : u = v := Option.some.inj (hl.symm.trans hv)
    exact hb.2 hrest
  refine ⟨hs.exclusive.erase i, fun hidle => hs.idle (hidle.of_erase hdone), ?_, ?_⟩
  · intro k v hv hb
    exact hs.busy k v (lookup_erase_eq_some.mp hv).2 hb
  · have hnone : u.unfinished = none := by simp [Thread.unfinished, hrest]
    have hperm := unfinished_lookup hl
    rw [hnone] at hperm
    exact hs.submitted.trans (hperm.append_left _)

theorem sane_step {s t : Terminal} {a : Action} (hs : Sane s) (hc : InTurn s a)
    (h : step s a = some t) : Sane t := by
  cases a with
  | newLine i line => exact sane_newLine hs h
  | ioctl i => exact sane_ioctl hs hc h
  | answer i => exact sane_answer hs h

/-- In a run in which no character of a message comes between those of another one, the input is
the messages one after another. -/
theorem input_unmixed (as : List Action) (hm : Meets step InTurn init as) :
    Along step Unmixed init as := by
  have hkeep : ∀ s a t, Sane s → InTurn s a → step s a = some t → Sane t :=
    fun _ _ _ hs hc h => sane_step hs hc h
  exact along_of_invariant hkeep (fun _ h => h.unmixed) sane_init hm

/- Two calls at a time; the one that comes second is the first to send. -/
def sampleRun : List Action :=
  [.newLine 0 (text "a"), .newLine 1 (text "b"), .ioctl 1, .ioctl 1, .ioctl 0, .answer 1,
    .ioctl 0, .answer 0]

theorem input_unmixed_sample : ∃ s, run step init sampleRun = some s ∧
    s.queue = text "b\na\n" ∧ Along step Unmixed init sampleRun :=
  ⟨_, rfl, by decide, input_unmixed sampleRun (by decide)⟩

/- The characters of the two messages alternate. -/
def mixedRun : List Action :=
  [.newLine 0 (text "a"), .newLine 1 (text "b"), .ioctl 0, .ioctl 1, .ioctl 0, .ioctl 1,
    .answer 0, .answer 1]

theorem messages_mixed : ∃ s, run step init mixedRun = some s ∧ s.queue = text "ab\n\n" ∧
    s.submitted = [text "b", text "a"] ∧ s.threads.keys = [] ∧
    linesRead [] s.queue = [text "ab", []] ∧ ¬ Unmixed s := by
  refine ⟨_, rfl, by decide, rfl, rfl, by decide, ?_⟩
  intro h
  obtain ⟨line, hline, hl⟩ := h.read (text "ab") (by decide)
  revert line
  decide

end OpcUaTestTool.ReplInput
