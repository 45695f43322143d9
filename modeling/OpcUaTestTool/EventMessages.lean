import OpcUaTestTool.EventDispatcher
import OpcUaTestTool.JsonText
import OpcUaTestTool.ServerSentEvents

/-! `m_fEventCallback`: the JSON message it builds for an event, and what a browser makes of the
bytes that are published for it. -/
namespace OpcUaTestTool.EventMessages
open Numerals JsonValues JsonText ServerSentEvents EventDispatcher

/-- `std::regex_replace` of every `\n+` by a text; the flag tells that a run goes on. -/
def replaceNewlines (insert : Bytes) : Bool → Bytes → Bytes
  | _, [] => []
  | inRun, b :: s =>
    if b = 10 then (if inRun then [] else insert) ++ replaceNewlines insert true s
    else b :: replaceNewlines insert false s

/-- The message of `m_fEventCallback`: the format of the replacement is a backslash and an n. -/
def message (name data : Bytes) : Bytes :=
  text "\x7b\"event\": \"" ++ name ++ text "\", \"data\": \"" ++
    replaceNewlines [92, 110] false data ++ text "\"\x7d"

/-- The names of the events of the service. -/
def eventNames : List Bytes := [text "JobFinishedEvent", text "ReplResponseEvent"]

/-- Each run of line feeds as one. -/
def collapse (data : Bytes) : Bytes := replaceNewlines [10] false data

/-- The published bytes are one event, whose data is read as the name and the data. -/
def Delivered (name data : Bytes) : Prop :=
  ∃ e, events (frame (message name data)) = [e] ∧ e.type = [] ∧
    parse e.data = some (.object (ofPairs
      [(text "event", .string name), (text "data", .string (collapse data))]))

/-- Text in UTF-8 without quotes, backslashes, and control characters other than line feeds. -/
def PlainText (data : Bytes) : Prop :=
  utf8 data = true ∧ ∀ b ∈ data, b = 10 ∨ special b = false

instance (data : Bytes) : Decidable (PlainText data) :=
  decidable_of_iff (utf8 data = true ∧ data.all (fun b => b = 10 ∨ special b = false) = true)
    (by simp only [PlainText, List.all_eq_true, decide_eq_true_eq])

/- A name that needs no escape. -/
def PlainName (name : Bytes) : Prop := ∀ b ∈ name, special b = false ∧ b < 0x80

theorem plainName_of_mem {name : Bytes} (h : name ∈ eventNames) : PlainName name := by
  simp only [eventNames, List.mem_cons, List.not_mem_nil, or_false] at h
  cases h with
  | inl h =>
    subst h
    exact forall_bytes (by decide)
  | inr h =>
    subst h
    exact forall_bytes (by decide)

/-! ### The message -/

/-- A message up to its data, with any rest. -/
def opening (name rest : Bytes) : Bytes :=
  123 :: 34 :: (text "event" ++ 34 :: 58 :: 32 :: 34 :: (name ++ 34 :: 44 :: 32 :: 34 ::
    (text "data" ++ 34 :: 58 :: 32 :: 34 :: rest)))

theorem message_eq (name data : Bytes) :
    message name data = opening name (replaceNewlines [92, 110] false data ++ [34, 125]) := by
  have h1 : text "\x7b\"event\": \"" = 123 :: 34 :: (text "event" ++ [34, 58, 32, 34]) := by decide
  have h2 : text "\", \"data\": \"" =
      34 :: 44 :: 32 :: 34 :: (text "data" ++ [34, 58, 32, 34]) := by
    decide
  have h3 : text "\"\x7d" = [34, 125] := by decide
  simp [message, opening, h1, h2, h3]

/-- What is read of a message: its event, the string at its data, and perhaps more members. -/
theorem value_opening {name : Bytes} (hname : PlainName name) (n : Nat) (rest : Bytes) :
    value (n + 3) (opening name rest) =
      match stringBody .plain rest with
      | none => none
      | some (d, s) =>
        match expect 44 s with
        | some s => (separated (member (value (n + 2))) 125 n s).map fun r =>
            (.object
              (ofPairs ((text "event", .string name) :: (text "data", .string d) :: r.1)), r.2)
        | none => (expect 125 s).map fun s =>
            (.object (ofPairs [(text "event", .string name), (text "data", .string d)]), s) := by
  have hopen : expect 125 (34 :: (text "event" ++ 34 :: 58 :: 32 :: 34 :: (name ++ 34 :: 44 :: 32 ::
      34 :: (text "data" ++ 34 :: 58 :: 32 :: 34 :: rest)))) = none :=
    expect_ne (by decide) (by decide) _
  have hevent (s : Bytes) : member (value (n + 2))
      (34 :: (text "event" ++ 34 :: 58 :: 32 :: 34 :: (name ++ 34 :: s))) =
        some ((text "event", .string name), s) := by
    rw [member_plain (forall_bytes (by decide)), value_white (by decide), value_string,
      stringBody_append fun b hb => (hname b hb).1]
    simp [stringBody]
  have hdata : member (value (n + 2))
      (32 :: 34 :: (text "data" ++ 34 :: 58 :: 32 :: 34 :: rest)) =
        (stringBody .plain rest).map fun r => ((text "data", .string r.1), r.2) := by
    rw [member_white (by decide), member_plain (forall_bytes (by decide)), value_white (by decide),
      value_string, Option.map_map]
    rfl
  rw [opening, value_object _ hopen, separated_cons (hevent _), separated, hdata]
  cases stringBody .plain rest with
  | none => rfl
  | some r =>
    cases h44 : expect 44 r.2 with
    | none =>
      cases h125 : expect 125 r.2 with
      | none => simp [h44, h125]
      | some s => simp [h44, h125]
    | some s =>
      cases hs : separated (member (value (n + 2))) 125 n s with
      | none => simp [h44, hs]
      | some r' => simp [h44, hs]

/-- A string that is read as the data of a message fits into the message. -/
theorem data_fits {name : Bytes} (hname : PlainName name) {n : Nat} {rest after d : Bytes}
    {members : List (Bytes × Json)}
    (h : value (n + 3) (opening name rest) = some (.object members, after))
    (hd : members.lookup (text "data") = some (.string d)) : cost d + 2 ≤ rest.length := by
  rw [value_opening hname] at h
  cases hs : stringBody .plain rest with
  | none => simp [hs] at h
  | some r =>
    have hcost := stringBody_cost hs
    simp only [Mode.read] at hcost
    cases h44 : expect 44 r.2 with
    | none =>
      simp only [hs, h44, Option.map_eq_some_iff, Prod.mk.injEq, Json.object.injEq] at h
      obtain ⟨s, hend, rfl, rfl⟩ := h
      have hclose := length_expect hend
      have hmem := mem_of_lookup_ofPairs hd
      have heq : d = r.1 := by
        have hne : text "data" ≠ text "event" := by decide
        simpa [hne] using hmem
      subst heq
      omega
    | some s =>
      have hcomma := length_expect h44
      simp only [hs, h44, Option.map_eq_some_iff, Prod.mk.injEq, Json.object.injEq] at h
      obtain ⟨r', hr, rfl, rfl⟩ := h
      have hall := (separated_taken (member_taken (value_taken (n + 2))) hr).2
      have hmem := mem_of_lookup_ofPairs hd
      have hne : text "data" ≠ text "event" := by decide
      simp only [List.mem_cons, Prod.mk.injEq, hne, false_and, false_or, true_and,
        Json.string.injEq] at hmem
      cases hmem with
      | inl heq =>
        subst heq
        omega
      | inr hmem =>
        have := hall _ hmem
        simp only [taken] at this
        omega

theorem opening_append (name rest : Bytes) : opening name rest = opening name [] ++ rest := by
  simp [opening]

/-- Before the data a message has no line end and only ASCII characters. -/
theorem opening_ascii {name : Bytes} (hname : PlainName name) :
    ∀ b ∈ opening name [], (b ≠ 10 ∧ b ≠ 13) ∧ b < 0x80 := by
  have hplain : ∀ b ∈ name, (b ≠ 10 ∧ b ≠ 13) ∧ b < 0x80 := by
    intro b hb
    obtain ⟨hspecial, hascii⟩ := hname b hb
    refine ⟨⟨?_, ?_⟩, hascii⟩
    · rintro rfl
      revert hspecial
      decide
    · rintro rfl
      revert hspecial
      decide
  simp only [opening, List.forall_mem_cons, List.forall_mem_append]
  refine ⟨by decide, by decide, forall_bytes (by decide), by decide, by decide, by decide,
    by decide, hplain, by decide, by decide, by decide, by decide, forall_bytes (by decide),
    by decide, by decide, by decide, by decide, List.forall_mem_nil _⟩

/-! ### The replacement -/

/-- Every other byte stays, and the two replacements differ by one byte for each line feed that
is left. -/
theorem mem_replaceNewlines {insert : Bytes} {inRun : Bool} {data : Bytes} {b : UInt8}
    (hb : b ∈ data) (h10 : b ≠ 10) : b ∈ replaceNewlines insert inRun data := by
  induction data generalizing inRun with
  | nil => cases hb
  | cons c s ih =>
    by_cases hc : c = 10
    · have hs : b ∈ s := by
        cases List.mem_cons.mp hb with
        | inl heq => exact absurd (heq.trans hc) h10
        | inr hs => exact hs
      rw [replaceNewlines, if_pos hc]
      exact List.mem_append_right _ (ih hs)
    · rw [replaceNewlines, if_neg hc]
      cases List.mem_cons.mp hb with
      | inl heq => exact heq ▸ List.mem_cons_self
      | inr hs => exact List.mem_cons_of_mem c (ih hs)

theorem length_escaped (inRun : Bool) (data : Bytes) :
    (replaceNewlines [92, 110] inRun data).length =
      (replaceNewlines [10] inRun data).length + (replaceNewlines [10] inRun data).count 10 := by
  induction data generalizing inRun with
  | nil => rfl
  | cons b s ih =>
    by_cases hb : b = 10
    · cases inRun with
      | true => simp [replaceNewlines, hb, ih]
      | false =>
        simp [replaceNewlines, hb, ih]
        omega
    · simp [replaceNewlines, hb, ih]
      omega

theorem utf8_replaceNewlines {insert : Bytes} (hinsert : ∀ b ∈ insert, b < 0x80)
    (hne : insert ≠ []) (data : Bytes) {inRun : Bool} {due : List (UInt8 × UInt8)}
    (hdue : Due due) (hrun : inRun = true → due = []) :
    utf8From due (replaceNewlines insert inRun data) = utf8From due data := by
  induction data generalizing inRun due with
  | nil => rfl
  | cons b s ih =>
    by_cases hb : b = 10
    · rw [replaceNewlines, if_pos hb]
      cases due with
      | nil =>
        have hascii : ∀ c ∈ (if inRun then [] else insert), c < 0x80 := by
          cases inRun with
          | true => simp
          | false => exact hinsert
        have hskip := utf8_append_of_ascii hascii (replaceNewlines insert true s)
        rw [utf8, utf8] at hskip
        rw [hskip, ih hdue fun _ => rfl, hb, utf8From, continuation_ascii (by decide)]
      | cons r due =>
        have hr := hdue r List.mem_cons_self
        have hfalse : inRun = false := by
          cases inRun with
          | true => exact absurd (hrun rfl) (List.cons_ne_nil r due)
          | false => rfl
        cases insert with
        | nil => exact absurd rfl hne
        | cons c insert =>
          rw [hfalse, hb, utf8From_ascii_of_due hr (by decide)]
          exact utf8From_ascii_of_due hr (hinsert c List.mem_cons_self) _
    · rw [replaceNewlines, if_neg hb]
      cases due with
      | nil =>
        rw [utf8From, utf8From]
        cases hc : continuation b with
        | none => rfl
        | some due => exact ih (due_continuation hc) (by simp)
      | cons r due =>
        have htail : Due due := fun r' hr' => hdue r' (List.mem_cons_of_mem r hr')
        rw [utf8From, utf8From, ih htail (by simp)]

/-- A string whose special bytes are line feeds is read back with each run of them as one. -/
theorem stringBody_escaped (data rest : Bytes) (h : ∀ b ∈ data, b = 10 ∨ special b = false)
    (inRun : Bool) :
    stringBody .plain (replaceNewlines [92, 110] inRun data ++ 34 :: rest) =
      some (replaceNewlines [10] inRun data, rest) := by
  induction data generalizing inRun with
  | nil => simp [replaceNewlines, stringBody]
  | cons b s ih =>
    have ih := ih fun c hc => h c (List.mem_cons_of_mem b hc)
    by_cases hb : b = 10
    · rw [replaceNewlines, replaceNewlines, if_pos hb, if_pos hb]
      cases inRun with
      | true => exact ih true
      | false =>
        simp only [Bool.false_eq_true, if_false, List.cons_append, List.nil_append]
        rw [stringBody_newline, ih true]
        rfl
    · have hplain : special b = false := (h b List.mem_cons_self).resolve_left hb
      rw [replaceNewlines, replaceNewlines, if_neg hb, if_neg hb, List.cons_append]
      have hone : ∀ c ∈ [b], special c = false := by simpa using hplain
      have hstep := stringBody_append hone (replaceNewlines [92, 110] false s ++ 34 :: rest)
      rw [List.singleton_append] at hstep
      rw [hstep, ih false]
      rfl

theorem countP_special (s : Bytes) :
    s.countP special = s.count 10 + s.countP fun b => special b && b != 10 := by
  induction s with
  | nil => rfl
  | cons b s ih =>
    by_cases hb : b = 10
    · have h10 : special 10 = true := by decide
      simp [hb, h10, ih]
      omega
    · cases hs : special b with
      | true =>
        simp [hb, hs, ih]
        omega
      | false => simp [hb, hs, ih]

/-! ### Delivery -/

theorem special_of_lineEnd {b : UInt8} (h : special b = false) : b ≠ 10 ∧ b ≠ 13 := by
  refine ⟨?_, ?_⟩
  · rintro rfl
    revert h
    decide
  · rintro rfl
    revert h
    decide

/-- The replacement leaves no line feed, and no carriage return where there is none. -/
theorem no_lineEnd_escaped (data : Bytes) (h : ∀ b ∈ data, b = 10 ∨ special b = false)
    (inRun : Bool) : ∀ b ∈ replaceNewlines [92, 110] inRun data, b ≠ 10 ∧ b ≠ 13 := by
  induction data generalizing inRun with
  | nil => simp [replaceNewlines]
  | cons c s ih =>
    have ih := ih fun b hb => h b (List.mem_cons_of_mem c hb)
    by_cases hc : c = 10
    · rw [replaceNewlines, if_pos hc]
      cases inRun with
      | true => exact ih true
      | false =>
        rw [List.forall_mem_append]
        exact ⟨forall_bytes (by decide), ih true⟩
    · rw [replaceNewlines, if_neg hc, List.forall_mem_cons]
      exact ⟨special_of_lineEnd ((h c List.mem_cons_self).resolve_left hc), ih false⟩

/-- Where the data have no other special bytes than line feeds, the message is the one event. -/
theorem events_message {name data : Bytes} (hname : PlainName name)
    (h : ∀ b ∈ data, b = 10 ∨ special b = false) :
    events (frame (message name data)) = [⟨[], message name data⟩] := by
  apply events_single
  rw [message_eq, opening_append, List.forall_mem_append, List.forall_mem_append]
  exact ⟨fun b hb => (opening_ascii hname b hb).1, no_lineEnd_escaped data h false,
    forall_bytes (by decide)⟩

theorem utf8_message {name : Bytes} (hname : PlainName name) (data : Bytes) :
    utf8 (message name data) = utf8 data := by
  have hdue : Due [] := due_nil
  rw [message_eq, opening_append,
    utf8_append_of_ascii fun b hb => (opening_ascii hname b hb).2, utf8,
    utf8From_append_of_ascii (forall_bytes (by decide)) _ hdue,
    utf8_replaceNewlines (forall_bytes (by decide)) (by decide) data hdue fun _ => rfl]
  rfl

theorem delivered_of_plainText {name data : Bytes} (hname : PlainName name)
    (h : PlainText data) : Delivered name data := by
  refine ⟨⟨[], message name data⟩, events_message hname h.2, rfl, ?_⟩
  obtain ⟨n, hn⟩ : ∃ n, (message name data).length + 1 = n + 3 := by
    rw [message_eq]
    exact ⟨_, rfl⟩
  have hstring := stringBody_escaped data [125] h.2 false
  have h44 : expect 44 [125] = none := expect_ne (by decide) (by decide) []
  have h125 : expect 125 [125] = some [] := expect_self (by decide) []
  simp only [parse, utf8_message hname, h.1, if_true, hn]
  rw [message_eq, value_opening hname, hstring]
  simp only [h44, h125, Option.map_some]
  rfl

/-- What is read as the data fits behind the opening, where the escaped data just fit. -/
theorem plain_of_parse {name data tail : Bytes} {members : List (Bytes × Json)}
    (hname : PlainName name)
    (hle : tail.length ≤ (replaceNewlines [92, 110] false data ++ [34, 125]).length)
    (hparse : parse (opening name tail) = some (.object members))
    (hd : members.lookup (text "data") = some (.string (collapse data))) :
    ∀ b ∈ data, b = 10 ∨ special b = false := by
  obtain ⟨_, after, hv, _⟩ := parse_eq_some.mp hparse
  obtain ⟨n, hn⟩ : ∃ n, (opening name tail).length + 1 = n + 3 := ⟨_, rfl⟩
  rw [hn] at hv
  have hfits := data_fits hname hv hd
  have hlength := length_escaped false data
  have hcount := countP_special (collapse data)
  simp only [List.length_append, List.length_cons, List.length_nil] at hle
  simp only [cost] at hfits
  have hnone : (collapse data).countP (fun b => special b && b != 10) = 0 := by
    rw [collapse] at hfits hcount ⊢
    omega
  rw [List.countP_eq_zero] at hnone
  intro b hb
  by_cases h10 : b = 10
  · exact Or.inl h10
  · have hplain := hnone b (mem_replaceNewlines hb h10)
    simpa [h10] using hplain

theorem plainText_of_delivered {name data : Bytes} (hname : PlainName name)
    (h : Delivered name data) : PlainText data := by
  obtain ⟨e, hevents, _, hparse⟩ := h
  have hascii := opening_ascii hname
  have hevents' := hevents
  rw [frame, message_eq, opening_append] at hevents'
  obtain ⟨tail, hdata, hle⟩ := data_of_events (fun b hb => (hascii b hb).1) hevents'
  rw [← opening_append] at hdata
  have hspecial : ∀ b ∈ data, b = 10 ∨ special b = false :=
    plain_of_parse hname hle (hdata ▸ hparse) (lookup_setMember_self _ _ _)
  rw [events_message hname hspecial, List.cons.injEq] at hevents
  have hmessage : e.data = message name data := by rw [← hevents.1]
  rw [hmessage] at hparse
  refine ⟨?_, hspecial⟩
  rw [← utf8_message hname data]
  exact (parse_eq_some.mp hparse).1

/-- For the events of the service, what a browser reads of the published bytes is the event with
its data just if these are plain text. -/
theorem event_delivered_iff (name : Bytes) (hname : name ∈ eventNames) (data : Bytes) :
    Delivered name data ↔ PlainText data :=
  ⟨plainText_of_delivered (plainName_of_mem hname), delivered_of_plainText (plainName_of_mem hname)⟩

theorem event_delivered_sample : Delivered (text "ReplResponseEvent") (text "ok\n\n> ") :=
  (event_delivered_iff (text "ReplResponseEvent") (by decide) (text "ok\n\n> ")).mpr (by decide)

/-- The answer of the interpreter to a string in quotes is published as one event, which is not
JSON. -/
theorem quotes_not_delivered :
    events (frame (message (text "ReplResponseEvent") (text "\"a\""))) =
      [⟨[], message (text "ReplResponseEvent") (text "\"a\"")⟩] ∧
    parse (message (text "ReplResponseEvent") (text "\"a\"")) = none ∧
    ¬ Delivered (text "ReplResponseEvent") (text "\"a\"") := by
  refine ⟨by decide, rfl, ?_⟩
  intro h
  exact absurd (plainText_of_delivered (plainName_of_mem (by decide)) h) (by decide)

end OpcUaTestTool.EventMessages
