import OpcUaTestTool.EventMessages
import OpcUaTestTool.Utf8Decoder

/-! The output of the REPL on its way to the terminal of a browser: `pipeListener` reads it in
pieces, each piece is published as an event, and `ReplComponent` writes the data of each event. -/
namespace OpcUaTestTool.ReplOutput
open Numerals JsonValues JsonText ServerSentEvents EventDispatcher EventMessages Utf8Decoder

/-- `s.replace("\n", "\r\n")`: only the first line feed is replaced. -/
def replaceNewline : Bytes → Bytes
  | [] => []
  | b :: s => if b = 10 then 13 :: 10 :: s else b :: replaceNewline s

/-- What `ReplComponent` writes for a message; nothing where it is no JSON, or another event. -/
def onMessage (data : Bytes) : Bytes :=
  match parse data with
  | none => []
  | some ev =>
    if (ev.at (text "event")).bind Json.getString = some (text "ReplResponseEvent") then
      match (ev.at (text "data")).bind Json.getString with
      | none => []
      | some d => replaceNewline d
    else []

/-- The bytes that are published for a piece of the output. -/
def published (chunk : Bytes) : Bytes := frame (message (text "ReplResponseEvent") chunk)

/-- The browser decodes the event stream as UTF-8. -/
def written (chunk : Bytes) : Bytes :=
  (events (decode (published chunk))).flatMap fun e => onMessage e.data

/-- The terminal after the pieces, in their order. -/
def terminal (chunks : List Bytes) : Bytes := chunks.flatMap written

/-- The pieces in which `read` may return the output of the REPL. -/
def Reads (output : Bytes) (chunks : List Bytes) : Prop :=
  chunks.flatten = output ∧ ∀ c ∈ chunks, c ≠ [] ∧ c.length ≤ 1024

def SplitIndependent (output : Bytes) : Prop :=
  ∀ chunks chunks', Reads output chunks → Reads output chunks' → terminal chunks = terminal chunks'

/-- Only ASCII characters, and no two line feeds that fit into one piece. -/
def LinesApart (output : Bytes) : Prop :=
  (∀ b ∈ output, b < 0x80) ∧
    ∀ before between after, output = before ++ 10 :: (between ++ 10 :: after) →
      1023 ≤ between.length

/-! ### One piece -/

theorem plainName_repl : PlainName (text "ReplResponseEvent") := plainName_of_mem (by decide)

theorem utf8_published (chunk : Bytes) : utf8 (published chunk) = utf8 chunk := by
  have hdata : ∀ b ∈ text "data: ", b < 0x80 := forall_bytes (by decide)
  have hend : ∀ b ∈ text "\n\n", b < 0x80 := forall_bytes (by decide)
  have hmessage := utf8_message plainName_repl chunk
  rw [utf8] at hmessage
  rw [published, frame, List.append_assoc, utf8_append_of_ascii hdata, utf8,
    utf8From_append_of_ascii hend _ due_nil, hmessage]

/-- Plain text is written with each run of line feeds as one, and the first of these as CR LF. -/
theorem written_of_plainText {chunk : Bytes} (h : PlainText chunk) :
    written chunk = replaceNewline (collapse chunk) := by
  obtain ⟨e, hevents, _, hparse⟩ := delivered_of_plainText plainName_repl h
  have hutf8 : utf8 (published chunk) = true := (utf8_published chunk).trans h.1
  have hpublished : events (published chunk) = [e] := hevents
  have hevent : ((Json.object (ofPairs [(text "event", .string (text "ReplResponseEvent")),
      (text "data", .string (collapse chunk))])).at (text "event")).bind Json.getString =
        some (text "ReplResponseEvent") := rfl
  have hdata : ((Json.object (ofPairs [(text "event", .string (text "ReplResponseEvent")),
      (text "data", .string (collapse chunk))])).at (text "data")).bind Json.getString =
        some (collapse chunk) := rfl
  rw [written, decode_of_utf8 hutf8, hpublished, List.flatMap_singleton]
  simp only [onMessage, hparse, hevent, if_true, hdata]

theorem replaceNewlines_of_notMem {insert s : Bytes} (h : 10 ∉ s) (inRun : Bool) :
    replaceNewlines insert inRun s = s := by
  induction s generalizing inRun with
  | nil => rfl
  | cons b s ih =>
    have hb : b ≠ 10 := fun heq => h (heq ▸ List.mem_cons_self)
    rw [replaceNewlines, if_neg hb, ih fun hs => h (List.mem_cons_of_mem b hs)]

theorem replaceNewline_of_notMem {s : Bytes} (h : 10 ∉ s) : replaceNewline s = s := by
  induction s with
  | nil => rfl
  | cons b s ih =>
    have hb : b ≠ 10 := fun heq => h (heq ▸ List.mem_cons_self)
    rw [replaceNewline, if_neg hb, ih fun hs => h (List.mem_cons_of_mem b hs)]

theorem replaceNewlines_append {insert a : Bytes} (ha : 10 ∉ a) (s : Bytes) :
    replaceNewlines insert false (a ++ 10 :: s) =
      a ++ (insert ++ replaceNewlines insert true s) := by
  induction a with
  | nil => simp [replaceNewlines]
  | cons b a ih =>
    have hb : b ≠ 10 := fun heq => ha (heq ▸ List.mem_cons_self)
    rw [List.cons_append, replaceNewlines, if_neg hb, ih fun h => ha (List.mem_cons_of_mem b h)]
    rfl

theorem replaceNewline_append {a : Bytes} (ha : 10 ∉ a) (s : Bytes) :
    replaceNewline (a ++ 10 :: s) = a ++ 13 :: 10 :: s := by
  induction a with
  | nil => rfl
  | cons b a ih =>
    have hb : b ≠ 10 := fun heq => ha (heq ▸ List.mem_cons_self)
    rw [List.cons_append, replaceNewline, if_neg hb, ih fun h => ha (List.mem_cons_of_mem b h)]
    rfl

theorem decode_published_lone {b : UInt8} (hb : ¬ b < 0x80) :
    decode (published [b]) = published replacement := by
  have h10 : b ≠ 10 := by
    rintro rfl
    exact hb (by decide)
  have hone : replaceNewlines [92, 110] false [b] = [b] :=
    replaceNewlines_of_notMem (by simpa using h10.symm) false
  have hreplacement : replaceNewlines [92, 110] false replacement = replacement :=
    replaceNewlines_of_notMem (by decide) false
  have hopen : ∀ c ∈ text "data: " ++ opening (text "ReplResponseEvent") [], c < 0x80 := by
    rw [List.forall_mem_append]
    exact ⟨forall_bytes (by decide), fun c hc => (opening_ascii plainName_repl c hc).2⟩
  have hclose : ∀ c ∈ [34, 125] ++ text "\n\n", c < 0x80 := forall_bytes (by decide)
  have hframe (d : Bytes) : frame (opening (text "ReplResponseEvent") (d ++ [34, 125])) =
      (text "data: " ++ opening (text "ReplResponseEvent") []) ++
        (d ++ ([34, 125] ++ text "\n\n")) := by
    rw [frame, opening_append]
    simp only [List.append_assoc]
  rw [published, published, message_eq, message_eq, hone, hreplacement, hframe, hframe,
    decode_append_of_ascii hopen, List.singleton_append, decode_lone hb hclose]

/-- A byte that is no character on its own is written as U+FFFD. -/
theorem written_lone {b : UInt8} (hb : ¬ b < 0x80) : written [b] = replacement := by
  have hplain : PlainText replacement := by decide
  have hsame : written [b] = written replacement := by
    rw [written, written, decode_published_lone hb,
      decode_of_utf8 ((utf8_published replacement).trans hplain.1)]
  have h10 : 10 ∉ replacement := by decide
  rw [hsame, written_of_plainText hplain, collapse, replaceNewlines_of_notMem h10,
    replaceNewline_of_notMem h10]

/-- An ASCII character as the terminal gets it in a piece of its own. -/
def crlf (b : UInt8) : Bytes := if b = 10 then [13, 10] else [b]

theorem plainText_of_ascii {s : Bytes} (hs : ∀ b ∈ s, b < 0x80)
    (hplain : ∀ b ∈ s, b = 10 ∨ special b = false) : PlainText s := by
  refine ⟨?_, hplain⟩
  have hutf8 := utf8_append_of_ascii hs []
  rw [List.append_nil] at hutf8
  exact hutf8.trans rfl

theorem flatMap_crlf_of_notMem {s : Bytes} (h : 10 ∉ s) : s.flatMap crlf = s := by
  induction s with
  | nil => rfl
  | cons b s ih =>
    have hb : b ≠ 10 := fun heq => h (heq ▸ List.mem_cons_self)
    rw [List.flatMap_cons, ih fun hs => h (List.mem_cons_of_mem b hs), crlf, if_neg hb]
    rfl

/-- With one line feed at most, a piece is written like its characters. -/
theorem written_of_one_line {chunk : Bytes} (h : PlainText chunk) (hone : chunk.count 10 ≤ 1) :
    written chunk = chunk.flatMap crlf := by
  rw [written_of_plainText h]
  by_cases hmem : 10 ∈ chunk
  · obtain ⟨a, s, rfl, ha⟩ := List.eq_append_cons_of_mem hmem
    have hs : 10 ∉ s := by
      rw [List.count_append, List.count_cons_self] at hone
      exact List.count_eq_zero.mp (by omega)
    have hcrlf : crlf 10 = [13, 10] := rfl
    rw [collapse, replaceNewlines_append ha, replaceNewlines_of_notMem hs, List.singleton_append,
      replaceNewline_append ha, List.flatMap_append, List.flatMap_cons, flatMap_crlf_of_notMem ha,
      flatMap_crlf_of_notMem hs, hcrlf]
    rfl
  · rw [collapse, replaceNewlines_of_notMem hmem, replaceNewline_of_notMem hmem,
      flatMap_crlf_of_notMem hmem]

/-! ### Pieces without two lines -/

/-- A piece of a text whose line feeds lie apart has at most one of them. -/
theorem LinesApart.count_le {output : Bytes} (h : LinesApart output) {before c after : Bytes}
    (hsplit : output = before ++ (c ++ after)) (hc : c.length ≤ 1024) : c.count 10 ≤ 1 := by
  by_contra hmore
  have hmem : 10 ∈ c := List.count_pos_iff.mp (by omega)
  obtain ⟨a, s, rfl, ha⟩ := List.eq_append_cons_of_mem hmem
  have hs : 10 ∈ s := by
    rw [List.count_append, List.count_cons_self, List.count_eq_zero.mpr ha] at hmore
    exact List.count_pos_iff.mp (by omega)
  obtain ⟨m, t, rfl⟩ := List.mem_iff_append.mp hs
  have hle := h.2 (before ++ a) m (t ++ after) (by rw [hsplit]; simp)
  simp only [List.length_append, List.length_cons] at hc
  omega

theorem terminal_of_linesApart {output : Bytes} (hplain : PlainText output)
    (h : LinesApart output) {chunks : List Bytes} (hreads : Reads output chunks) :
    terminal chunks = output.flatMap crlf := by
  have hall (before : Bytes) (rest : List Bytes) (hsplit : output = before ++ rest.flatten)
      (hlength : ∀ c ∈ rest, c.length ≤ 1024) :
      terminal rest = rest.flatten.flatMap crlf := by
    induction rest generalizing before with
    | nil => rfl
    | cons c rest ih =>
      have hmem : ∀ b ∈ c, b ∈ output := by
        intro b hb
        rw [hsplit, List.flatten_cons]
        exact List.mem_append_right _ (List.mem_append_left _ hb)
      have hc : PlainText c :=
        plainText_of_ascii (fun b hb => h.1 b (hmem b hb)) fun b hb => hplain.2 b (hmem b hb)
      have hone := h.count_le hsplit (hlength c List.mem_cons_self)
      have ih := ih (before ++ c) (by rw [hsplit, List.flatten_cons, List.append_assoc])
        fun d hd => hlength d (List.mem_cons_of_mem c hd)
      rw [terminal] at ih ⊢
      rw [List.flatMap_cons, ih, written_of_one_line hc hone, List.flatten_cons,
        List.flatMap_append]
  rw [hall [] chunks (by simp [hreads.1]) fun c hc => (hreads.2 c hc).2, hreads.1]

/-! ### Pieces of one byte -/

theorem flatten_singletons (s : Bytes) : (s.map fun b => [b]).flatten = s := by
  induction s with
  | nil => rfl
  | cons b s ih => simp [ih]

/-- Where the pieces do not matter, a piece is written like its bytes one by one. -/
theorem SplitIndependent.written_eq {output : Bytes} (h : SplitIndependent output)
    {before c after : Bytes} (hsplit : output = before ++ (c ++ after)) (hne : c ≠ [])
    (hc : c.length ≤ 1024) : written c = c.flatMap fun b => written [b] := by
  have hone : ∀ s : Bytes, ∀ d ∈ s.map (fun b => [b]), d ≠ [] ∧ d.length ≤ 1024 := by
    intro s d hd
    obtain ⟨b, _, rfl⟩ := List.mem_map.mp hd
    exact ⟨List.cons_ne_nil b [], by simp⟩
  have hsingle : Reads output ((before ++ (c ++ after)).map fun b => [b]) :=
    ⟨by rw [flatten_singletons, hsplit], hone _⟩
  have hwhole : Reads output
      (before.map (fun b => [b]) ++ (c :: after.map fun b => [b])) := by
    refine ⟨by rw [List.flatten_append, List.flatten_cons, flatten_singletons, flatten_singletons,
      hsplit], ?_⟩
    rw [List.forall_mem_append, List.forall_mem_cons]
    exact ⟨hone before, ⟨hne, hc⟩, hone after⟩
  have heq := h _ _ hwhole hsingle
  simp only [terminal, List.flatMap_append, List.flatMap_cons, List.map_append,
    List.flatMap_map] at heq
  exact List.append_cancel_right (List.append_cancel_left heq)

theorem length_flatMap_replacement (s : Bytes) :
    (s.flatMap fun _ => replacement).length = 3 * s.length := by
  induction s with
  | nil => rfl
  | cons b s ih =>
    rw [List.flatMap_cons, List.length_append, ih, List.length_cons, replacement]
    simp only [List.length_cons, List.length_nil]
    omega

/-- A character of several bytes is written as it is, or as several replacements. -/
theorem SplitIndependent.ascii {output : Bytes} (hplain : PlainText output)
    (h : SplitIndependent output) : ∀ b ∈ output, b < 0x80 := by
  by_contra hnot
  obtain ⟨a, c, t, hsplit, hutf8, htwo, hfour, hbeyond⟩ := exists_character hplain.1 hnot
  have h10 : 10 ∉ c := fun hmem => hbeyond 10 hmem (by decide)
  have hc : PlainText c := by
    refine ⟨hutf8, fun b hb => hplain.2 b ?_⟩
    rw [hsplit]
    exact List.mem_append_right _ (List.mem_append_left _ hb)
  have hne : c ≠ [] := by
    rintro rfl
    simp at htwo
  have hwhole := h.written_eq hsplit hne (by omega)
  rw [written_of_plainText hc, collapse, replaceNewlines_of_notMem h10,
    replaceNewline_of_notMem h10] at hwhole
  have hlone : (c.flatMap fun b => written [b]) = c.flatMap fun _ => replacement :=
    List.flatMap_congr fun b hb => written_lone (hbeyond b hb)
  have hlength := congrArg List.length (hwhole.trans hlone)
  rw [length_flatMap_replacement] at hlength
  omega

theorem count_replaceNewlines (inRun : Bool) (s : Bytes) :
    (replaceNewlines [10] inRun s).count 13 = s.count 13 := by
  induction s generalizing inRun with
  | nil => rfl
  | cons b s ih =>
    by_cases hb : b = 10
    · cases inRun with
      | true => simp [replaceNewlines, hb, ih]
      | false => simp [replaceNewlines, hb, ih]
    · simp [replaceNewlines, hb, ih, List.count_cons]

/-- Only one CR is added to a piece. -/
theorem count_replaceNewline_le (s : Bytes) : (replaceNewline s).count 13 ≤ s.count 13 + 1 := by
  induction s with
  | nil => simp [replaceNewline]
  | cons b s ih =>
    by_cases hb : b = 10
    · simp [replaceNewline, hb]
    · simp only [replaceNewline, if_neg hb, List.count_cons]
      omega

/-- Character by character, each line feed gets its CR. -/
theorem count_crlf {s : Bytes} (h13 : 13 ∉ s) : (s.flatMap crlf).count 13 = s.count 10 := by
  induction s with
  | nil => rfl
  | cons b s ih =>
    have hb : b ≠ 13 := fun heq => h13 (heq ▸ List.mem_cons_self)
    have ih := ih fun h => h13 (List.mem_cons_of_mem b h)
    by_cases h10 : b = 10
    · subst h10
      rw [List.flatMap_cons, List.count_append, ih, List.count_cons_self, Nat.add_comm]
      rfl
    · simp [crlf, h10, hb, ih]

theorem SplitIndependent.linesApart {output : Bytes} (hplain : PlainText output)
    (h : SplitIndependent output) : LinesApart output := by
  have hascii := h.ascii hplain
  refine ⟨hascii, fun before between after hsplit => ?_⟩
  by_contra hnear
  have hsplit' : output = before ++ ((10 :: (between ++ [10])) ++ after) := by
    rw [hsplit]
    simp
  have hmem : ∀ b ∈ 10 :: (between ++ [10]), b ∈ output := by
    intro b hb
    rw [hsplit']
    exact List.mem_append_right _ (List.mem_append_left _ hb)
  have hpart (s : Bytes) (hs : ∀ b ∈ s, b ∈ output) : PlainText s :=
    plainText_of_ascii (fun b hb => hascii b (hs b hb)) fun b hb => hplain.2 b (hs b hb)
  have hwhole := h.written_eq hsplit' (List.cons_ne_nil _ _) (by simp; omega)
  have hbytes : ((10 :: (between ++ [10])).flatMap fun b => written [b]) =
      (10 :: (between ++ [10])).flatMap crlf := by
    apply List.flatMap_congr
    intro b hb
    have hone : PlainText [b] := hpart [b] (List.forall_mem_singleton.mpr (hmem b hb))
    have hcount : [b].count 10 ≤ 1 := (List.count_le_length (l := [b])).trans (by simp)
    rw [written_of_one_line hone hcount, List.flatMap_singleton]
  have h13 : 13 ∉ 10 :: (between ++ [10]) := by
    intro hb
    cases hplain.2 13 (hmem 13 hb) with
    | inl heq => exact absurd heq (by decide)
    | inr hspecial => exact absurd hspecial (by decide)
  rw [written_of_plainText (hpart _ hmem), hbytes] at hwhole
  have hle := count_replaceNewline_le (collapse (10 :: (between ++ [10])))
  rw [hwhole, count_crlf h13, collapse, count_replaceNewlines, List.count_eq_zero.mpr h13] at hle
  simp at hle

/-- What the terminal shows of a text without escapes does not depend on how the text is read
exactly if it is ASCII and no two of its line feeds fit into one piece. -/
theorem split_independent_iff (output : Bytes) (hplain : PlainText output) :
    SplitIndependent output ↔ LinesApart output := by
  refine ⟨fun h => h.linesApart hplain, fun h chunks chunks' hreads hreads' => ?_⟩
  rw [terminal_of_linesApart hplain h hreads, terminal_of_linesApart hplain h hreads']

theorem split_independent_sample : SplitIndependent (text "> print(1)\n") := by
  refine (split_independent_iff (text "> print(1)\n") (by decide)).mpr
    ⟨forall_bytes (by decide), fun before between after hsplit => ?_⟩
  have hcount := congrArg (List.count 10) hsplit
  have hone : (text "> print(1)\n").count 10 = 1 := by decide
  rw [hone, List.count_append, List.count_cons_self, List.count_append, List.count_cons_self]
    at hcount
  omega

/-- Two lines read at once are written with one CR, read one by one with two. -/
theorem lines_written_differently :
    Reads (text "1\n2\n") [text "1\n2\n"] ∧ Reads (text "1\n2\n") [text "1\n", text "2\n"] ∧
    terminal [text "1\n2\n"] = text "1\r\n2\n" ∧
    terminal [text "1\n", text "2\n"] = text "1\r\n2\r\n" ∧
    ¬ SplitIndependent (text "1\n2\n") := by
  have hwhole : Reads (text "1\n2\n") [text "1\n2\n"] := ⟨by decide, by decide⟩
  have hlines : Reads (text "1\n2\n") [text "1\n", text "2\n"] := ⟨by decide, by decide⟩
  have hone : terminal [text "1\n2\n"] = text "1\r\n2\n" := rfl
  have htwo : terminal [text "1\n", text "2\n"] = text "1\r\n2\r\n" := rfl
  refine ⟨hwhole, hlines, hone, htwo, fun h => ?_⟩
  have heq := h _ _ hwhole hlines
  rw [hone, htwo] at heq
  exact absurd heq (by decide)

end OpcUaTestTool.ReplOutput
