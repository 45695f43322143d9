import OpcUaTestTool.JsonArrays
import OpcUaTestTool.ScriptPaths

/-! The text of `DataBase::getScripts` as the handler of GET /api/scripts reads it: file names as
`std::quoted` writes them, against JSON strings. -/
namespace OpcUaTestTool.ScriptNames
open Numerals JsonValues JsonText JsonArrays ScriptPaths

/-- The text is an array of objects with the names as their members, in the order of the directory
iterator. -/
def NamesListed (entries : List Bytes) : Prop :=
  ∃ objects, parse (getScripts entries) = some (.array objects) ∧
    objects.map (fun o => (o.at (text "name")).bind Json.getString) = entries.map some

/-- A name without control characters. -/
def Printable (name : Bytes) : Prop := ∀ b ∈ name, 32 ≤ b

instance (name : Bytes) : Decidable (Printable name) :=
  decidable_of_iff (name.all (fun b => 32 ≤ b) = true)
    (by simp only [Printable, List.all_eq_true, decide_eq_true_eq])

/-- What is written for a file. -/
def scriptObject (name : Bytes) : Bytes :=
  text "\x7b\n" ++ text "\"name\": " ++ quoted name ++ text "\x7d"

def nameObject (name : Bytes) : Json := .object [(text "name", .string name)]

theorem getScripts_cons (entry : Bytes) (entries : List Bytes) :
    getScripts (entry :: entries) = 91 :: 10 :: (scriptObject entry ++
      ((entries.flatMap fun e => 44 :: scriptObject e) ++ [93, 10])) := by
  have hopen : text "[\n" = [91, 10] := by decide
  have hclose : text "]\n" = [93, 10] := by decide
  have hcomma : text ",\x7b\n" = 44 :: text "\x7b\n" := by decide
  simp [getScripts, scriptObject, hopen, hclose, hcomma]

/-! ### Quoted names -/

/-- A name between its quotes. -/
def escaped (name : Bytes) : Bytes :=
  name.flatMap fun b => if b = 34 ∨ b = 92 then [92, b] else [b]

/-- A quoted name is read as a string with the name, or not at all. -/
theorem stringBody_escaped (name rest : Bytes) :
    stringBody .plain (escaped name ++ 34 :: rest) =
      if Printable name then some (name, rest) else none := by
  induction name with
  | nil => simp [escaped, stringBody, Printable]
  | cons b name ih =>
    have hcons : Printable (b :: name) ↔ 32 ≤ b ∧ Printable name := List.forall_mem_cons
    have hsplit : escaped (b :: name) ++ 34 :: rest =
        (if b = 34 ∨ b = 92 then [92, b] else [b]) ++ (escaped name ++ 34 :: rest) := by
      simp [escaped]
    rw [hsplit]
    by_cases hb : b = 34 ∨ b = 92
    · have hprintable : (32 : UInt8) ≤ b := by
        cases hb with
        | inl h => exact h ▸ (by decide)
        | inr h => exact h ▸ (by decide)
      have hsimple : simpleEscape b = some b := by
        cases hb with
        | inl h => exact h ▸ (by decide)
        | inr h => exact h ▸ (by decide)
      have hu : b ≠ 117 := by
        rintro rfl
        revert hb
        decide
      rw [if_pos hb]
      simp only [List.cons_append, List.nil_append, stringBody,
        if_neg (by decide : ¬ (92 : UInt8) = 34),
        if_true, if_neg hu, hsimple, ih, hcons, hprintable, true_and]
      split
      · rfl
      · rfl
    · rw [if_neg hb]
      obtain ⟨h34, h92⟩ := not_or.mp hb
      have hcontrol : b < 32 ↔ ¬ 32 ≤ b := UInt8.not_le.symm
      by_cases hprintable : 32 ≤ b
      · simp only [List.cons_append, List.nil_append, stringBody, if_neg h34, if_neg h92, hcontrol,
          not_true_eq_false, if_false, ih, hcons, hprintable, true_and]
        split
        · rfl
        · rfl
      · simp only [List.cons_append, List.nil_append, stringBody, if_neg h34, if_neg h92, hcontrol,
          hcons, hprintable, not_false_eq_true, if_true, false_and, if_false]

theorem utf8_escaped (name : Bytes) {due : List (UInt8 × UInt8)} (hdue : Due due) :
    utf8From due (escaped name) = utf8From due name := by
  induction name generalizing due with
  | nil => rfl
  | cons b name ih =>
    have hsplit : escaped (b :: name) =
        (if b = 34 ∨ b = 92 then [92, b] else [b]) ++ escaped name := by simp [escaped]
    rw [hsplit]
    by_cases hb : b = 34 ∨ b = 92
    · have hascii : b < 0x80 := by
        cases hb with
        | inl h => exact h ▸ (by decide)
        | inr h => exact h ▸ (by decide)
      rw [if_pos hb]
      cases due with
      | nil =>
        have hone : ∀ c ∈ [b], c < 0x80 := List.forall_mem_singleton.mpr hascii
        have hboth : ∀ c ∈ [92, b], c < 0x80 := List.forall_mem_cons.mpr ⟨by decide, hone⟩
        have hskip := utf8_append_of_ascii hboth (escaped name)
        have hskip' := utf8_append_of_ascii hone name
        rw [utf8, utf8] at hskip hskip'
        rw [hskip, ih due_nil, ← hskip']
        rfl
      | cons r due =>
        have hr := hdue r List.mem_cons_self
        rw [List.cons_append, utf8From_ascii_of_due hr (by decide), utf8From_ascii_of_due hr hascii]
    · rw [if_neg hb, List.singleton_append]
      cases due with
      | nil =>
        rw [utf8From, utf8From]
        cases hc : continuation b with
        | none => rfl
        | some due => exact ih (due_continuation hc)
      | cons r due =>
        have htail : Due due := fun r' hr' => hdue r' (List.mem_cons_of_mem r hr')
        rw [utf8From, utf8From, ih htail]

/-! ### Objects -/

theorem scriptObject_eq (name : Bytes) : scriptObject name =
    123 :: 10 :: 34 :: (text "name" ++ 34 :: 58 :: 32 :: 34 :: (escaped name ++ [34, 125])) := by
  have hopen : text "\x7b\n" = [123, 10] := by decide
  have hname : text "\"name\": " = 34 :: (text "name" ++ [34, 58, 32]) := by decide
  have hclose : text "\x7d" = [125] := by decide
  simp [scriptObject, quoted, escaped, hopen, hname, hclose]

/-- An object with a name is read as such, or not at all. -/
theorem value_scriptObject (n : Nat) (name t : Bytes) :
    value (n + 2) (scriptObject name ++ t) =
      if Printable name then some (nameObject name, t) else none := by
  have hempty (s : Bytes) : expect 125 (10 :: 34 :: s) = none := by
    rw [expect_white (by decide), expect_ne (by decide) (by decide)]
  have hmember (s : Bytes) : member (value (n + 1))
      (10 :: 34 :: (text "name" ++ 34 :: 58 :: 32 :: 34 :: s)) =
        (stringBody .plain s).map fun r => ((text "name", .string r.1), r.2) := by
    rw [member_white (by decide), member_plain (forall_bytes (by decide)), value_white (by decide),
      value_string, Option.map_map]
    rfl
  have hclose : expect 44 (125 :: t) = none := expect_ne (by decide) (by decide) t
  rw [scriptObject_eq]
  simp only [List.cons_append, List.append_assoc, List.nil_append]
  rw [value_object _ (hempty _), separated, hmember, stringBody_escaped]
  by_cases hname : Printable name
  · simp only [if_pos hname, Option.map_some, hclose, expect_self (by decide : isWhite 125 = false)]
    rfl
  · simp only [if_neg hname, Option.map_none]

theorem utf8_scriptObject (name : Bytes) : utf8 (scriptObject name) = utf8 name := by
  have hopen : ∀ b ∈ text "\x7b\n" ++ text "\"name\": " ++ [34], b < 0x80 :=
    forall_bytes (by decide)
  have hclose : ∀ b ∈ [34] ++ text "\x7d", b < 0x80 := forall_bytes (by decide)
  have hobject : scriptObject name = (text "\x7b\n" ++ text "\"name\": " ++ [34]) ++
      (escaped name ++ ([34] ++ text "\x7d")) := by simp [scriptObject, quoted, escaped]
  rw [hobject, utf8_append_of_ascii hopen, utf8, utf8From_append_of_ascii hclose _ due_nil,
    utf8_escaped name due_nil]
  rfl

theorem two_le_length_scriptObject (name : Bytes) : 2 ≤ (scriptObject name).length := by
  rw [scriptObject_eq]
  simp

theorem parse_scriptObject {name : Bytes} (hutf8 : utf8 name = true) (hname : Printable name) :
    parse (scriptObject name) = some (nameObject name) := by
  rw [parse_eq_some, utf8_scriptObject]
  refine ⟨hutf8, [], ?_, rfl⟩
  obtain ⟨n, hn⟩ : ∃ n, (scriptObject name).length + 1 = n + 2 := by
    have := two_le_length_scriptObject name
    exact ⟨(scriptObject name).length - 1, by omega⟩
  have hvalue := value_scriptObject n name []
  rw [List.append_nil, if_pos hname] at hvalue
  rw [hn, hvalue]

/-- The objects up to the closing bracket, one after the other. -/
theorem separated_objects (name : Bytes) (names : List Bytes) {m : Nat}
    (hutf8 : ∀ x ∈ name :: names, utf8 x = true)
    (hm : (scriptObject name ++ names.flatMap fun e => 44 :: scriptObject e).length < m) {n : Nat}
    (hn : names.length < n) (w : Bytes) :
    separated (value m) 93 n
      (scriptObject name ++ ((names.flatMap fun e => 44 :: scriptObject e) ++ 93 :: w)) =
        if ∀ x ∈ name :: names, Printable x then some ((name :: names).map nameObject, w)
        else none := by
  induction names generalizing name n with
  | nil =>
    obtain ⟨n, rfl⟩ := Nat.exists_eq_add_of_lt hn
    have hlength : (scriptObject name).length < m := by simpa using hm
    by_cases hname : Printable name
    · have hclose := separated_close (parse_scriptObject (hutf8 name List.mem_cons_self) hname)
        hlength (0 + n) w
      simpa [hname] using hclose
    · have := two_le_length_scriptObject name
      obtain ⟨k, rfl⟩ : ∃ k, m = k + 2 := ⟨m - 2, by omega⟩
      simp [separated, value_scriptObject, hname]
  | cons next names ih =>
    obtain ⟨n, rfl⟩ := Nat.exists_eq_add_of_lt hn
    simp only [List.flatMap_cons, List.length_append, List.length_cons] at hm
    have hlength : (scriptObject name).length < m := by omega
    have ih := ih next (fun x hx => hutf8 x (List.mem_cons_of_mem name hx))
      (by rw [List.length_append]; omega)
      (n := (next :: names).length + n) (by simp only [List.length_cons]; omega)
    by_cases hname : Printable name
    · have hcomma := separated_comma (parse_scriptObject (hutf8 name List.mem_cons_self) hname)
        hlength 93 ((next :: names).length + n)
        (scriptObject next ++ ((names.flatMap fun e => 44 :: scriptObject e) ++ 93 :: w))
      have hall : (∀ x ∈ name :: next :: names, Printable x) ↔
          ∀ x ∈ next :: names, Printable x := by
        simp [hname]
      rw [List.flatMap_cons, List.cons_append, List.cons_append, List.append_assoc, hcomma, ih]
      simp only [hall]
      split
      · rfl
      · rfl
    · have hnot : ¬ ∀ x ∈ name :: next :: names, Printable x :=
        fun h => hname (h name List.mem_cons_self)
      have := two_le_length_scriptObject name
      obtain ⟨k, rfl⟩ : ∃ k, m = k + 2 := ⟨m - 2, by omega⟩
      simp only [separated, value_scriptObject, if_neg hname, if_neg hnot]

theorem length_le_objects (names : List Bytes) :
    names.length ≤ (names.flatMap fun e => 44 :: scriptObject e).length := by
  induction names with
  | nil => simp
  | cons name names ih =>
    simp only [List.flatMap_cons, List.length_append, List.length_cons]
    omega

theorem utf8_objects {names : List Bytes} (hutf8 : ∀ x ∈ names, utf8 x = true) (t : Bytes) :
    utf8 ((names.flatMap fun e => 44 :: scriptObject e) ++ t) = utf8 t := by
  induction names with
  | nil => rfl
  | cons name names ih =>
    have ih := ih fun x hx => hutf8 x (List.mem_cons_of_mem name hx)
    have hname : utf8 (scriptObject name) = true := by
      rw [utf8_scriptObject]
      exact hutf8 name List.mem_cons_self
    rw [List.flatMap_cons, List.cons_append, ← List.singleton_append, List.append_assoc,
      List.append_assoc, utf8_append_of_ascii (forall_bytes (by decide)), utf8_append hname, ih]

theorem parse_getScripts (entry : Bytes) (entries : List Bytes)
    (hutf8 : ∀ name ∈ entry :: entries, utf8 name = true) :
    parse (getScripts (entry :: entries)) =
      if ∀ name ∈ entry :: entries, Printable name then
        some (.array ((entry :: entries).map nameObject))
      else none := by
  have htext := getScripts_cons entry entries
  have hopen : expect 93 (10 :: (scriptObject entry ++
      ((entries.flatMap fun e => 44 :: scriptObject e) ++ [93, 10]))) = none := by
    rw [expect_white (by decide), scriptObject_eq]
    exact expect_ne (by decide) (by decide) _
  have hle := length_le_objects entries
  have hlength := congrArg List.length htext
  simp only [List.length_cons, List.length_append, List.length_nil] at hlength
  have hvalue : value ((getScripts (entry :: entries)).length + 1) (getScripts (entry :: entries)) =
      if ∀ name ∈ entry :: entries, Printable name then
        some (.array ((entry :: entries).map nameObject), [10])
      else none := by
    generalize (getScripts (entry :: entries)).length = n at hlength
    rw [htext, value_array hopen, separated_white (by decide),
      separated_objects entry entries hutf8 (by rw [List.length_append]; omega) (by omega)]
    split
    · rfl
    · rfl
  have hall : utf8 (getScripts (entry :: entries)) = true := by
    have hentry : utf8 (scriptObject entry) = true := by
      rw [utf8_scriptObject]
      exact hutf8 entry List.mem_cons_self
    have htwo : ∀ s : Bytes, utf8 (91 :: 10 :: s) = utf8 s :=
      fun s => utf8_append_of_ascii (a := [91, 10]) (forall_bytes (by decide)) s
    rw [htext, htwo, utf8_append hentry,
      utf8_objects fun x hx => hutf8 x (List.mem_cons_of_mem entry hx)]
    decide
  by_cases hnames : ∀ name ∈ entry :: entries, Printable name
  · rw [if_pos hnames] at hvalue
    rw [if_pos hnames, parse_eq_some]
    exact ⟨hall, [10], hvalue, rfl⟩
  · rw [if_neg hnames] at hvalue
    rw [if_neg hnames, parse, if_pos hall, hvalue]

/-- The text is the array of the names exactly if none of them has a control character. -/
theorem names_listed_iff (entries : List Bytes) (hutf8 : ∀ name ∈ entries, utf8 name = true) :
    NamesListed entries ↔ ∀ name ∈ entries, Printable name := by
  cases entries with
  | nil => exact iff_of_true ⟨[], rfl, rfl⟩ (List.forall_mem_nil _)
  | cons entry entries =>
    unfold NamesListed
    rw [parse_getScripts entry entries hutf8]
    by_cases hnames : ∀ name ∈ entry :: entries, Printable name
    · rw [if_pos hnames]
      refine iff_of_true ⟨_, rfl, ?_⟩ hnames
      rw [List.map_map]
      exact List.map_congr_left fun name _ => rfl
    · rw [if_neg hnames]
      refine iff_of_false ?_ hnames
      rintro ⟨objects, hparse, _⟩
      cases hparse

theorem names_listed_sample : NamesListed [text "read.lua", text "say \"a\\b\".chai"] :=
  (names_listed_iff [text "read.lua", text "say \"a\\b\".chai"] (by decide)).mpr (by decide)

/-- A tab in a file name is written as it is, and is no character of a JSON string. -/
theorem tab_not_listed :
    getScripts [text "a\tb.lua"] = text "[\n\x7b\n\"name\": \"a\tb.lua\"\x7d]\n" ∧
    parse (getScripts [text "a\tb.lua"]) = none ∧ ¬ NamesListed [text "a\tb.lua"] := by
  have hnone : parse (getScripts [text "a\tb.lua"]) = none := rfl
  refine ⟨by decide, hnone, ?_⟩
  rintro ⟨objects, hparse, _⟩
  rw [hnone] at hparse
  cases hparse

end OpcUaTestTool.ScriptNames
