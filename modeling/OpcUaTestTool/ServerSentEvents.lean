import OpcUaTestTool.Numerals

/-! The decoder of an event stream: lines that end with CR, LF or both, fields, and the events
dispatched at empty lines. -/
namespace OpcUaTestTool.ServerSentEvents
open Numerals

/- An event as its listener receives it; the type is empty where the stream names none. -/
structure Event where
  type : Bytes := []
  data : Bytes
  deriving DecidableEq

/-- The lines that are complete, after the beginning of one; `cr` tells that a CR has just ended
the line before, so that a LF belongs to it. -/
def lines : Bool → Bytes → Bytes → List Bytes
  | _, _, [] => []
  | cr, current, b :: s =>
    if b = 10 then
      if cr then lines false [] s else current :: lines false [] s
    else if b = 13 then current :: lines true [] s
    else lines false (current ++ [b]) s

/-- The name and the value of a field: the line up to a colon, and behind it and one space. -/
def field (line : Bytes) : Bytes × Bytes :=
  match line.dropWhile (· ≠ 58) with
  | [] => (line, [])
  | _ :: value => (line.takeWhile (· ≠ 58), if value.head? = some 32 then value.tail else value)

/-- The events of a list of lines, given the type and the data gathered before it. -/
def dispatch (type data : Bytes) : List Bytes → List Event
  | [] => []
  | line :: rest =>
    if line = [] then
      if data = [] then dispatch [] [] rest
      else ⟨type, data.dropLast⟩ :: dispatch [] [] rest
    else if (field line).1 = text "data" then
      dispatch type (data ++ (field line).2 ++ [10]) rest
    else if (field line).1 = text "event" then dispatch (field line).2 data rest
    else dispatch type data rest

def events (stream : Bytes) : List Event := dispatch [] [] (lines false [] stream)

/-- Bytes without a line end belong to the line that has begun. -/
theorem lines_append {a : Bytes} (ha : ∀ b ∈ a, b ≠ 10 ∧ b ≠ 13) (ha0 : a ≠ []) (cr : Bool)
    (current s : Bytes) : lines cr current (a ++ s) = lines false (current ++ a) s := by
  induction a generalizing cr current with
  | nil => exact absurd rfl ha0
  | cons b a ih =>
    obtain ⟨h10, h13⟩ := ha b List.mem_cons_self
    rw [List.cons_append, lines, if_neg h10, if_neg h13]
    cases a with
    | nil => rfl
    | cons c a =>
      rw [ih (fun c hc => ha c (List.mem_cons_of_mem b hc)) (List.cons_ne_nil c a),
        List.append_assoc]
      rfl

theorem lines_newline (current s : Bytes) :
    lines false current (10 :: s) = current :: lines false [] s := by
  simp [lines]

/-- The bytes of complete lines with one line end each. -/
def total (ls : List Bytes) : Nat := (ls.map fun l => l.length + 1).sum

theorem total_lines_le (cr : Bool) (current s : Bytes) :
    total (lines cr current s) ≤ current.length + s.length := by
  induction s generalizing cr current with
  | nil => simp [lines, total]
  | cons b s ih =>
    have hnil (cr : Bool) := ih cr []
    have hmore := ih false (current ++ [b])
    simp only [total, List.length_nil, List.length_append, List.length_cons] at hnil hmore ⊢
    rw [lines]
    split_ifs
    · have := hnil false
      omega
    · have := hnil false
      simp only [List.map_cons, List.sum_cons]
      omega
    · have := hnil true
      simp only [List.map_cons, List.sum_cons]
      omega
    · omega

/-- The line that has begun goes on to the first line end. -/
theorem lines_first {s : Bytes} (h : 10 ∈ s) (current : Bytes) :
    ∃ more ls, lines false current s = (current ++ more) :: ls ∧
      more.length + 1 + total ls ≤ s.length := by
  induction s generalizing current with
  | nil => simp at h
  | cons b s ih =>
    by_cases h10 : b = 10
    · refine ⟨[], lines false [] s, ?_, ?_⟩
      · simp [lines, h10]
      · have := total_lines_le false [] s
        simp only [List.length_nil, List.length_cons] at this ⊢
        omega
    · by_cases h13 : b = 13
      · refine ⟨[], lines true [] s, ?_, ?_⟩
        · simp [lines, h13]
        · have := total_lines_le true [] s
          simp only [List.length_nil, List.length_cons] at this ⊢
          omega
      · have hs : 10 ∈ s := by
          cases List.mem_cons.mp h with
          | inl heq => exact absurd heq.symm h10
          | inr hs => exact hs
        obtain ⟨more, ls, heq, hle⟩ := ih hs (current ++ [b])
        refine ⟨b :: more, ls, ?_, ?_⟩
        · rw [lines, if_neg h10, if_neg h13, heq, List.append_assoc]
          rfl
        · simp only [List.length_cons]
          omega

theorem field_data {value : Bytes} : field (text "data: " ++ value) = (text "data", value) := by
  have htext : text "data: " = [100, 97, 116, 97, 58, 32] := by decide
  have hdata : text "data" = [100, 97, 116, 97] := by decide
  simp [htext, hdata, field]

theorem length_field_le (line : Bytes) : (field line).2.length ≤ line.length := by
  have hdrop := List.length_dropWhile_le (fun b => decide (b ≠ 58)) line
  unfold field
  cases h : line.dropWhile (· ≠ 58) with
  | nil => simp
  | cons b value =>
    rw [h, List.length_cons] at hdrop
    dsimp only
    split
    · rw [List.length_tail]
      omega
    · omega

/-- The first event has the data gathered before it, and no more than what the lines add. -/
theorem head_dispatch {type data : Bytes} {ls : List Bytes} {e : Event} {rest : List Event}
    (hdata : data ≠ []) (h : dispatch type data ls = e :: rest) :
    ∃ more, e.data = (data ++ more).dropLast ∧ more.length + 1 ≤ total ls := by
  induction ls generalizing type data with
  | nil => simp [dispatch] at h
  | cons line ls ih =>
    simp only [dispatch] at h
    have hfield := length_field_le line
    split_ifs at h with hempty hname hevent
    · simp only [List.cons.injEq] at h
      exact ⟨[], by simp [← h.1], by simp [total, hempty]⟩
    · have hne : data ++ (field line).2 ++ [10] ≠ [] := by simp
      obtain ⟨more, hmore, hle⟩ := ih hne h
      refine ⟨(field line).2 ++ [10] ++ more, ?_, ?_⟩
      · rw [hmore]
        simp
      · simp only [total, List.map_cons, List.sum_cons, List.length_append,
          List.length_singleton] at hle ⊢
        omega
    · obtain ⟨more, hmore, hle⟩ := ih hdata h
      refine ⟨more, hmore, ?_⟩
      simp only [total, List.map_cons, List.sum_cons] at hle ⊢
      omega
    · obtain ⟨more, hmore, hle⟩ := ih hdata h
      refine ⟨more, hmore, ?_⟩
      simp only [total, List.map_cons, List.sum_cons] at hle ⊢
      omega

theorem dataLine {value : Bytes} (h : ∀ b ∈ value, b ≠ 10 ∧ b ≠ 13) :
    (∀ b ∈ text "data: " ++ value, b ≠ 10 ∧ b ≠ 13) ∧ text "data: " ++ value ≠ [] := by
  refine ⟨?_, ?_⟩
  · intro b hb
    cases List.mem_append.mp hb with
    | inl hb => exact forall_bytes (p := fun b => b ≠ 10 ∧ b ≠ 13) (by decide) b hb
    | inr hb => exact h b hb
  · intro hnil
    exact absurd (List.append_eq_nil_iff.mp hnil).1 (by decide)

theorem dispatch_data (type data value : Bytes) (ls : List Bytes) :
    dispatch type data ((text "data: " ++ value) :: ls) =
      dispatch type (data ++ value ++ [10]) ls := by
  have hne : text "data: " ++ value ≠ [] := fun hnil =>
    absurd (List.append_eq_nil_iff.mp hnil).1 (by decide)
  rw [dispatch, if_neg hne, field_data]
  simp only [if_true]

/-- A message without line ends is one event with just these data. -/
theorem events_single {m : Bytes} (h : ∀ b ∈ m, b ≠ 10 ∧ b ≠ 13) :
    events (text "data: " ++ m ++ text "\n\n") = [⟨[], m⟩] := by
  obtain ⟨hline, hne⟩ := dataLine h
  have hend : text "\n\n" = [10, 10] := by decide
  rw [events, lines_append hline hne, hend, lines_newline, lines_newline, List.nil_append,
    dispatch_data]
  simp [dispatch, lines]

/-- What goes before the first line end is where the data of the event begin, and they are not
longer than the message. -/
theorem data_of_events {a m : Bytes} {e : Event} {rest : List Event}
    (ha : ∀ b ∈ a, b ≠ 10 ∧ b ≠ 13)
    (h : events (text "data: " ++ (a ++ m) ++ text "\n\n") = e :: rest) :
    ∃ tail, e.data = a ++ tail ∧ tail.length ≤ m.length := by
  obtain ⟨hline, hne⟩ := dataLine ha
  have hsplit : text "data: " ++ (a ++ m) ++ text "\n\n" =
      (text "data: " ++ a) ++ (m ++ [10, 10]) := by
    have hend : text "\n\n" = [10, 10] := by decide
    rw [hend]
    simp only [List.append_assoc]
  obtain ⟨more, ls, hfirst, hle⟩ := lines_first (s := m ++ [10, 10]) (by simp)
    ([] ++ (text "data: " ++ a))
  rw [events, hsplit, lines_append hline hne, hfirst, List.nil_append, List.append_assoc,
    dispatch_data] at h
  obtain ⟨added, hdata, hadded⟩ := head_dispatch (by simp) h
  refine ⟨(more ++ [10] ++ added).dropLast, ?_, ?_⟩
  · rw [hdata, List.nil_append, ← List.dropLast_append_of_ne_nil (by simp)]
    simp only [List.append_assoc]
  · simp only [List.length_append, List.length_cons, List.length_nil] at hle
    simp only [List.length_dropLast, List.length_append, List.length_singleton]
    omega

end OpcUaTestTool.ServerSentEvents
