import OpcUaTestTool.JsonValues

/-! JSON texts, read by recursive descent: UTF-8, white space, strings with their escapes, numbers,
arrays and objects. The fuel bounds the nesting and the number of elements; the length of the text
is enough. -/
namespace OpcUaTestTool.JsonText
open Numerals JsonValues

/-! ### UTF-8 -/

/-- The ranges of the bytes that follow the first byte of a character. -/
def continuation (b : UInt8) : Option (List (UInt8 × UInt8)) :=
  if b < 0x80 then some []
  else if b < 0xC2 then none
  else if b < 0xE0 then some [(0x80, 0xBF)]
  else if b = 0xE0 then some [(0xA0, 0xBF), (0x80, 0xBF)]
  else if b = 0xED then some [(0x80, 0x9F), (0x80, 0xBF)]
  else if b < 0xF0 then some [(0x80, 0xBF), (0x80, 0xBF)]
  else if b = 0xF0 then some [(0x90, 0xBF), (0x80, 0xBF), (0x80, 0xBF)]
  else if b < 0xF4 then some [(0x80, 0xBF), (0x80, 0xBF), (0x80, 0xBF)]
  else if b = 0xF4 then some [(0x80, 0x8F), (0x80, 0xBF), (0x80, 0xBF)]
  else none

/-- Valid UTF-8 after a beginning that leaves some continuation bytes due. -/
def utf8From : List (UInt8 × UInt8) → Bytes → Bool
  | [], [] => true
  | _ :: _, [] => false
  | [], b :: s =>
    match continuation b with
    | none => false
    | some due => utf8From due s
  | r :: due, b :: s => if r.1 ≤ b ∧ b ≤ r.2 then utf8From due s else false

def utf8 (s : Bytes) : Bool := utf8From [] s

/-- An ASCII character is no continuation byte. -/
def Due (due : List (UInt8 × UInt8)) : Prop := ∀ r ∈ due, 0x80 ≤ r.1

theorem due_nil : Due [] := List.forall_mem_nil _

theorem due_cons {lo hi : UInt8} {due : List (UInt8 × UInt8)} (hlo : 0x80 ≤ lo) (h : Due due) :
    Due ((lo, hi) :: due) :=
  List.forall_mem_cons.mpr ⟨hlo, h⟩

theorem of_ite {c : Prop} [Decidable c] {P : List (UInt8 × UInt8) → Prop}
    {o o' : Option (List (UInt8 × UInt8))} {due : List (UInt8 × UInt8)}
    (ho : o = some due → P due) (ho' : o' = some due → P due)
    (h : (if c then o else o') = some due) : P due := by
  by_cases hc : c
  · rw [if_pos hc] at h
    exact ho h
  · rw [if_neg hc] at h
    exact ho' h

/-- A character beyond ASCII has one to three further bytes, none of them ASCII. -/
theorem continuation_spec {b : UInt8} (hb : ¬ b < 0x80) {due : List (UInt8 × UInt8)}
    (h : continuation b = some due) : Due due ∧ due ≠ [] ∧ due.length ≤ 3 := by
  rw [continuation, if_neg hb] at h
  revert h
  repeat' refine of_ite (P := fun due => Due due ∧ due ≠ [] ∧ due.length ≤ 3) ?_ ?_
  all_goals
    intro h
    cases h
  all_goals
    refine ⟨?_, List.cons_ne_nil _ _, by decide⟩
    repeat' first | exact due_nil | refine due_cons (by decide) ?_

theorem continuation_ascii {b : UInt8} (h : b < 0x80) : continuation b = some [] := by
  rw [continuation, if_pos h]

theorem due_continuation {b : UInt8} {due : List (UInt8 × UInt8)}
    (h : continuation b = some due) : Due due := by
  by_cases hb : b < 0x80
  · rw [continuation_ascii hb, Option.some.injEq] at h
    exact h ▸ due_nil
  · exact (continuation_spec hb h).1

theorem utf8From_ascii_of_due {r : UInt8 × UInt8} {due : List (UInt8 × UInt8)} {b : UInt8}
    (hr : 0x80 ≤ r.1) (hb : b < 0x80) (s : Bytes) : utf8From (r :: due) (b :: s) = false := by
  have h : ¬ (r.1 ≤ b ∧ b ≤ r.2) := by
    intro hle
    have hle := hle.1
    simp only [UInt8.lt_iff_toNat_lt, UInt8.le_iff_toNat_le] at hr hb hle
    omega
  simp [utf8From, h]

/-- ASCII characters at the front do not matter. -/
theorem utf8_append_of_ascii {a : Bytes} (ha : ∀ b ∈ a, b < 0x80) (s : Bytes) :
    utf8 (a ++ s) = utf8 s := by
  induction a with
  | nil => rfl
  | cons b a ih =>
    have ih := ih fun c hc => ha c (List.mem_cons_of_mem b hc)
    rw [utf8] at ih
    rw [utf8, List.cons_append, utf8From, continuation_ascii (ha b List.mem_cons_self)]
    exact ih

/-- ASCII characters at the end do not matter. -/
theorem utf8From_append_of_ascii {a : Bytes} (ha : ∀ b ∈ a, b < 0x80) (s : Bytes)
    {due : List (UInt8 × UInt8)} (hdue : Due due) :
    utf8From due (s ++ a) = utf8From due s := by
  induction s generalizing due with
  | nil =>
    cases due with
    | nil => simpa [utf8] using utf8_append_of_ascii ha []
    | cons r due =>
      cases a with
      | nil => rfl
      | cons b a =>
        exact utf8From_ascii_of_due (hdue r List.mem_cons_self) (ha b List.mem_cons_self) a
  | cons b s ih =>
    cases due with
    | nil =>
      rw [List.cons_append, utf8From, utf8From]
      cases hc : continuation b with
      | none => rfl
      | some due => exact ih (due_continuation hc)
    | cons r due =>
      have htail : Due due := fun r' hr' => hdue r' (List.mem_cons_of_mem r hr')
      rw [List.cons_append, utf8From, utf8From, ih htail]

/-! ### Strings -/

/-- The bytes that a string can only hold as an escape. -/
def special (b : UInt8) : Bool := b = 34 || b = 92 || b < 32

def hexValue (b : UInt8) : Option Nat :=
  if 48 ≤ b ∧ b ≤ 57 then some (b.toNat - 48)
  else if 65 ≤ b ∧ b ≤ 70 then some (b.toNat - 55)
  else if 97 ≤ b ∧ b ≤ 102 then some (b.toNat - 87)
  else none

/-- The escapes of one letter. -/
def simpleEscape (b : UInt8) : Option UInt8 :=
  if b = 34 ∨ b = 92 ∨ b = 47 then some b
  else if b = 98 then some 8
  else if b = 102 then some 12
  else if b = 110 then some 10
  else if b = 114 then some 13
  else if b = 116 then some 9
  else none

def encodeUtf8 (c : Nat) : Bytes :=
  if c < 0x80 then [UInt8.ofNat c]
  else if c < 0x800 then [UInt8.ofNat (0xC0 + c / 64), UInt8.ofNat (0x80 + c % 64)]
  else if c < 0x10000 then
    [UInt8.ofNat (0xE0 + c / 4096), UInt8.ofNat (0x80 + c / 64 % 64), UInt8.ofNat (0x80 + c % 64)]
  else
    [UInt8.ofNat (0xF0 + c / 262144 % 8), UInt8.ofNat (0x80 + c / 4096 % 64),
      UInt8.ofNat (0x80 + c / 64 % 64), UInt8.ofNat (0x80 + c % 64)]

/-- Where the reader of a string is: in plain text, after a backslash, in the four digits of an
escape (`n` read, with their value, and the first half of a surrogate pair), or between
the halves. -/
inductive Mode where
  | plain
  | escape
  | hex (n value : Nat) (high : Option Nat)
  | backslash (high : Nat)
  | letter (high : Nat)

/-- What four digits stand for: a character, or the first half of one. -/
inductive CodeUnit where
  | character (c : Nat)
  | high (h : Nat)

def codeUnit (value : Nat) : Option Nat → Option CodeUnit
  | none =>
    if 0xD800 ≤ value ∧ value < 0xDC00 then some (.high value)
    else if 0xDC00 ≤ value ∧ value < 0xE000 then none
    else some (.character value)
  | some h =>
    if 0xDC00 ≤ value ∧ value < 0xE000 then
      some (.character (0x10000 + (h - 0xD800) * 1024 + (value - 0xDC00)))
    else none

/-- A string after its opening quote: its value, and the text after its closing quote. -/
def stringBody : Mode → Bytes → Option (Bytes × Bytes)
  | _, [] => none
  | .plain, b :: s =>
    if b = 34 then some ([], s)
    else if b = 92 then stringBody .escape s
    else if b < 32 then none
    else (stringBody .plain s).map fun r => (b :: r.1, r.2)
  | .escape, b :: s =>
    if b = 117 then stringBody (.hex 0 0 none) s
    else
      match simpleEscape b with
      | none => none
      | some c => (stringBody .plain s).map fun r => (c :: r.1, r.2)
  | .hex n value high, b :: s =>
    match hexValue b with
    | none => none
    | some d =>
      if n < 3 then stringBody (.hex (n + 1) (value * 16 + d) high) s
      else
        match codeUnit (value * 16 + d) high with
        | none => none
        | some (.high h) => stringBody (.backslash h) s
        | some (.character c) => (stringBody .plain s).map fun r => (encodeUtf8 c ++ r.1, r.2)
  | .backslash h, b :: s => if b = 92 then stringBody (.letter h) s else none
  | .letter h, b :: s => if b = 117 then stringBody (.hex 0 0 (some h)) s else none

theorem stringBody_append {a : Bytes} (ha : ∀ b ∈ a, special b = false) (s : Bytes) :
    stringBody .plain (a ++ s) = (stringBody .plain s).map fun r => (a ++ r.1, r.2) := by
  induction a with
  | nil => simp
  | cons b a ih =>
    have hb := ha b List.mem_cons_self
    have ih := ih fun c hc => ha c (List.mem_cons_of_mem b hc)
    simp only [special, Bool.or_eq_false_iff, decide_eq_false_iff_not] at hb
    simp [stringBody, hb, ih, Function.comp_def]

theorem stringBody_newline (s : Bytes) :
    stringBody .plain (92 :: 110 :: s) = (stringBody .plain s).map fun r => (10 :: r.1, r.2) := by
  simp [stringBody, simpleEscape]

/-- The least number of bytes a string takes in a text, without its quotes. -/
def cost (s : Bytes) : Nat := s.length + s.countP special

theorem cost_cons_le (b : UInt8) (s : Bytes) : cost (b :: s) ≤ cost s + 2 := by
  simp only [cost, List.length_cons, List.countP_cons]
  split <;> omega

theorem cost_cons_of_not_special {b : UInt8} (h : special b = false) (s : Bytes) :
    cost (b :: s) = cost s + 1 := by
  simp [cost, h]
  omega

theorem cost_append (a s : Bytes) : cost (a ++ s) = cost a + cost s := by
  simp only [cost, List.length_append, List.countP_append]
  omega

theorem special_ofNat {n : Nat} (h : 0x80 ≤ n) (hn : n < 0x100) :
    special (UInt8.ofNat n) = false := by
  have htoNat : (UInt8.ofNat n).toNat = n := UInt8.toNat_ofNat_of_lt' hn
  simp only [special, Bool.or_eq_false_iff, decide_eq_false_iff_not, ← UInt8.toNat_inj,
    UInt8.lt_iff_toNat_lt, htoNat]
  refine ⟨⟨?_, ?_⟩, ?_⟩
  · change n ≠ 34
    omega
  · change n ≠ 92
    omega
  · change ¬ n < 32
    omega

theorem cost_encodeUtf8 (c : Nat) : cost (encodeUtf8 c) ≤ 4 := by
  unfold encodeUtf8
  split_ifs with h1 h2 h3
  · have := cost_cons_le (UInt8.ofNat c) []
    simp only [cost, List.length_nil, List.countP_nil] at this ⊢
    omega
  · rw [cost_cons_of_not_special (special_ofNat (by omega) (by omega)),
      cost_cons_of_not_special (special_ofNat (by omega) (by omega))]
    simp [cost]
  · rw [cost_cons_of_not_special (special_ofNat (by omega) (by omega)),
      cost_cons_of_not_special (special_ofNat (by omega) (by omega)),
      cost_cons_of_not_special (special_ofNat (by omega) (by omega))]
    simp [cost]
  · rw [cost_cons_of_not_special (special_ofNat (by omega) (by omega)),
      cost_cons_of_not_special (special_ofNat (by omega) (by omega)),
      cost_cons_of_not_special (special_ofNat (by omega) (by omega)),
      cost_cons_of_not_special (special_ofNat (by omega) (by omega))]
    simp [cost]

/-- What has been read of an escape before its next byte, as far as the count needs it. -/
def Mode.read : Mode → Nat
  | .plain => 0
  | .escape => 1
  | .hex n _ _ => n + 2
  | .backslash _ => 0
  | .letter _ => 1

/-- Everything a byte of a string can do: it closes the string, belongs to an escape, brings a piece
of the value, or is none. -/
inductive Turn (mode : Mode) (b : UInt8) : Prop where
  | close (h : ∀ s, stringBody mode (b :: s) = some ([], s))
  | next (mode' : Mode) (hread : mode'.read ≤ mode.read + 1)
    (h : ∀ s, stringBody mode (b :: s) = stringBody mode' s)
  | piece (p : Bytes) (hcost : cost p ≤ mode.read + 1)
    (h : ∀ s, stringBody mode (b :: s) = (stringBody .plain s).map fun r => (p ++ r.1, r.2))
  | refuse (h : ∀ s, stringBody mode (b :: s) = none)

theorem turn (mode : Mode) (b : UInt8) : Turn mode b := by
  cases mode with
  | plain =>
    by_cases hquote : b = 34
    · exact .close fun s => by rw [stringBody, if_pos hquote]
    · by_cases hback : b = 92
      · exact .next .escape le_rfl fun s => by rw [stringBody, if_neg hquote, if_pos hback]
      · by_cases hcontrol : b < 32
        · exact .refuse fun s => by
            rw [stringBody, if_neg hquote, if_neg hback, if_pos hcontrol]
        · have hb : special b = false := by simp [special, hquote, hback, hcontrol]
          refine .piece [b] (by rw [cost_cons_of_not_special hb]; rfl) fun s => ?_
          rw [stringBody, if_neg hquote, if_neg hback, if_neg hcontrol]
          rfl
  | escape =>
    by_cases hu : b = 117
    · exact .next (.hex 0 0 none) le_rfl fun s => by rw [stringBody, if_pos hu]
    · cases hc : simpleEscape b with
      | none => exact .refuse fun s => by simp [stringBody, hu, hc]
      | some c => exact .piece [c] (cost_cons_le c []) fun s => by simp [stringBody, hu, hc]
  | hex n value high =>
    cases hd : hexValue b with
    | none => exact .refuse fun s => by simp [stringBody, hd]
    | some d =>
      by_cases hn : n < 3
      · exact .next (.hex (n + 1) (value * 16 + d) high) le_rfl fun s => by
          simp [stringBody, hd, hn]
      · cases hu : codeUnit (value * 16 + d) high with
        | none => exact .refuse fun s => by simp [stringBody, hd, hn, hu]
        | some u =>
          cases u with
          | high hi =>
            exact .next (.backslash hi) (Nat.zero_le _) fun s => by simp [stringBody, hd, hn, hu]
          | character c =>
            refine .piece (encodeUtf8 c) ((cost_encodeUtf8 c).trans ?_) fun s => by
              simp [stringBody, hd, hn, hu]
            simp only [Mode.read]
            omega
  | backslash hi =>
    by_cases hb : b = 92
    · exact .next (.letter hi) le_rfl fun s => by rw [stringBody, if_pos hb]
    · exact .refuse fun s => by rw [stringBody, if_neg hb]
  | letter hi =>
    by_cases hb : b = 117
    · exact .next (.hex 0 0 (some hi)) le_rfl fun s => by rw [stringBody, if_pos hb]
    · exact .refuse fun s => by rw [stringBody, if_neg hb]

/-- A string takes up at least its cost and its closing quote. -/
theorem stringBody_cost {mode : Mode} {s t rest : Bytes}
    (h : stringBody mode s = some (t, rest)) :
    cost t + 1 + rest.length ≤ s.length + mode.read := by
  induction s generalizing mode t with
  | nil => simp [stringBody] at h
  | cons b s ih =>
    rw [List.length_cons]
    cases turn mode b with
    | close hb =>
      rw [hb, Option.some.injEq, Prod.mk.injEq] at h
      obtain ⟨rfl, rfl⟩ := h
      simp only [cost, List.length_nil, List.countP_nil]
      omega
    | next mode' hread hb =>
      have := ih (hb s ▸ h)
      omega
    | piece p hcost hb =>
      simp only [hb, Option.map_eq_some_iff, Prod.mk.injEq] at h
      obtain ⟨r, hr, rfl, rfl⟩ := h
      have := ih hr
      rw [cost_append]
      simp only [Mode.read] at this
      omega
    | refuse hb => simp [hb] at h

/-! ### Numbers -/

/-- A sign, and what it stands before. -/
def sign : Bytes → Bool × Bytes
  | [] => (false, [])
  | b :: s => if b = 45 then (true, s) else (false, b :: s)

/-- The digits behind a point, if there is one. -/
def fraction : Bytes → Option (Option Bytes × Bytes)
  | [] => some (none, [])
  | b :: s =>
    if b = 46 then
      if s.takeWhile isDigit = [] then none
      else some (some (s.takeWhile isDigit), s.dropWhile isDigit)
    else some (none, b :: s)

/-- The exponent, if there is one. -/
def exponent : Bytes → Option (Option Int × Bytes)
  | [] => some (none, [])
  | b :: s =>
    if b = 101 ∨ b = 69 then
      let (negative, s) := splitSign s
      if s.takeWhile isDigit = [] then none
      else
        let n := digitsValue (s.takeWhile isDigit)
        some (some (if negative then -n else n), s.dropWhile isDigit)
    else some (none, b :: s)

/-- The value of a number: an integer of any size, or an exact fraction. -/
def numberValue (negative : Bool) (digits : Bytes) (frac : Option Bytes) (exp : Option Int) :
    Json :=
  let signed (n : Nat) : Int := if negative then -n else n
  if frac = none ∧ exp = none then .integer (signed (digitsValue digits))
  else
    let n := signed (digitsValue (digits ++ frac.getD []))
    let e := exp.getD 0 - (frac.getD []).length
    if 0 ≤ e then .float (mkRat (n * 10 ^ e.toNat) 1) else .float (mkRat n (10 ^ (-e).toNat))

def number (s : Bytes) : Option (Json × Bytes) :=
  let (negative, s) := sign s
  let digits := s.takeWhile isDigit
  if digits = [] ∨ (digits.head? = some 48 ∧ digits ≠ [48]) then none
  else
    match fraction (s.dropWhile isDigit) with
    | none => none
    | some (frac, s) =>
      match exponent s with
      | none => none
      | some (exp, s) => some (numberValue negative digits frac exp, s)

/-! ### Values -/

def isWhite (b : UInt8) : Bool := b = 32 || b = 9 || b = 10 || b = 13

def skipWhite (s : Bytes) : Bytes := s.dropWhile isWhite

/-- A structural character, after white space. -/
def expect (c : UInt8) (s : Bytes) : Option Bytes :=
  match skipWhite s with
  | [] => none
  | b :: s => if b = c then some s else none

def literal (word : Bytes) (j : Json) (s : Bytes) : Option (Json × Bytes) :=
  (word.isPrefixOf? s).map fun rest => (j, rest)

/-- Items between commas, up to a closing character. -/
def separated {α : Type} (item : Bytes → Option (α × Bytes)) (close : UInt8) :
    Nat → Bytes → Option (List α × Bytes)
  | 0, _ => none
  | n + 1, s =>
    match item s with
    | none => none
    | some (a, s) =>
      match expect 44 s with
      | some s => (separated item close n s).map fun r => (a :: r.1, r.2)
      | none => (expect close s).map fun s => ([a], s)

/-- A name, a colon and a value. -/
def member (item : Bytes → Option (Json × Bytes)) (s : Bytes) :
    Option ((Bytes × Json) × Bytes) := do
  let (key, s) ← stringBody .plain (← expect 34 s)
  let (v, s) ← item (← expect 58 s)
  some ((key, v), s)

/-- A value, and the text after it. Of members with one name, the last one stays. -/
def value : Nat → Bytes → Option (Json × Bytes)
  | 0, _ => none
  | n + 1, s =>
    match skipWhite s with
    | [] => none
    | b :: s =>
      if b = 34 then (stringBody .plain s).map fun r => (.string r.1, r.2)
      else if b = 123 then
        match expect 125 s with
        | some s => some (.object [], s)
        | none => (separated (member (value n)) 125 n s).map fun r => (.object (ofPairs r.1), r.2)
      else if b = 91 then
        match expect 93 s with
        | some s => some (.array [], s)
        | none => (separated (value n) 93 n s).map fun r => (.array r.1, r.2)
      else if b = 116 then literal (text "rue") (.boolean true) s
      else if b = 102 then literal (text "alse") (.boolean false) s
      else if b = 110 then literal (text "ull") .null s
      else number (b :: s)

/-- `JSON.parse`, `json::parse`: the whole text is one value, in UTF-8. -/
def parse (s : Bytes) : Option Json :=
  if utf8 s then
    match value (s.length + 1) s with
    | none => none
    | some (j, rest) => if skipWhite rest = [] then some j else none
  else none

/-- A whole text is a value in UTF-8, with white space behind it. -/
theorem parse_eq_some {s : Bytes} {j : Json} : parse s = some j ↔
    utf8 s = true ∧ ∃ rest, value (s.length + 1) s = some (j, rest) ∧ skipWhite rest = [] := by
  unfold parse
  cases hu : utf8 s with
  | false => simp
  | true =>
    cases hv : value (s.length + 1) s with
    | none => simp
    | some r =>
      obtain ⟨j', rest⟩ := r
      by_cases hw : skipWhite rest = []
      · simp [hw]
      · simp [hw]

theorem skipWhite_of_not_white {b : UInt8} (h : isWhite b = false) (s : Bytes) :
    skipWhite (b :: s) = b :: s := by
  simp [skipWhite, h]

theorem expect_self {c : UInt8} (h : isWhite c = false) (s : Bytes) :
    expect c (c :: s) = some s := by
  simp [expect, skipWhite_of_not_white h]

theorem expect_ne {b c : UInt8} (h : isWhite b = false) (hbc : b ≠ c) (s : Bytes) :
    expect c (b :: s) = none := by
  simp [expect, skipWhite_of_not_white h, hbc]

theorem value_string (n : Nat) (s : Bytes) :
    value (n + 1) (34 :: s) = (stringBody .plain s).map fun r => (.string r.1, r.2) := by
  rw [value, skipWhite_of_not_white (by decide)]
  simp only [if_true]

theorem value_object (n : Nat) {s : Bytes} (h : expect 125 s = none) :
    value (n + 1) (123 :: s) =
      (separated (member (value n)) 125 n s).map fun r => (.object (ofPairs r.1), r.2) := by
  rw [value, skipWhite_of_not_white (by decide)]
  simp only [if_neg (by decide : ¬ (123 : UInt8) = 34), if_true, h]

theorem expect_white {b : UInt8} (h : isWhite b = true) (c : UInt8) (s : Bytes) :
    expect c (b :: s) = expect c s := by
  simp [expect, skipWhite, h]

theorem value_white {b : UInt8} (h : isWhite b = true) (n : Nat) (s : Bytes) :
    value n (b :: s) = value n s := by
  cases n with
  | zero => rfl
  | succ n => simp only [value, skipWhite, List.dropWhile_cons, h, if_true]

section
variable {item : Bytes → Option (Json × Bytes)}

theorem member_white {b : UInt8} (h : isWhite b = true) (s : Bytes) :
    member item (b :: s) = member item s := by
  rw [member, member, expect_white h]

/-- A member whose name needs no escape. -/
theorem member_plain {key : Bytes} (hkey : ∀ b ∈ key, special b = false) (s : Bytes) :
    member item (34 :: (key ++ 34 :: 58 :: s)) =
      (item s).map fun r => ((key, r.1), r.2) := by
  have hname : stringBody .plain (key ++ 34 :: 58 :: s) = some (key, 58 :: s) := by
    rw [stringBody_append hkey]
    simp [stringBody]
  simp only [member, expect_self (by decide : isWhite 34 = false), hname, bind, Option.bind_some,
    expect_self (by decide : isWhite 58 = false)]
  cases item s with
  | none => rfl
  | some r => rfl

end

section
variable {α : Type} {item : Bytes → Option (α × Bytes)} {close : UInt8}

theorem separated_cons {s s' : Bytes} {a : α} (h : item s = some (a, 44 :: s')) (n : Nat) :
    separated item close (n + 1) s = (separated item close n s').map fun r => (a :: r.1, r.2) := by
  simp only [separated, h, expect_self (by decide : isWhite 44 = false)]

end

/-! ### What a value takes up -/

theorem length_skipWhite_le (s : Bytes) : (skipWhite s).length ≤ s.length :=
  List.length_dropWhile_le isWhite s

theorem length_expect {c : UInt8} {s rest : Bytes} (h : expect c s = some rest) :
    rest.length + 1 ≤ s.length := by
  have hle := length_skipWhite_le s
  unfold expect at h
  cases hs : skipWhite s with
  | nil => simp [hs] at h
  | cons b s' =>
    by_cases hb : b = c
    · simp only [hs, if_pos hb, Option.some.injEq] at h
      subst h
      rw [hs] at hle
      exact hle
    · simp [hs, hb] at h

theorem length_sign_le (s : Bytes) : (sign s).2.length ≤ s.length := by
  cases s with
  | nil => exact le_rfl
  | cons b s =>
    by_cases hb : b = 45
    · simp [sign, hb]
    · simp [sign, hb]

theorem length_splitSign_le (s : Bytes) : (splitSign s).2.length ≤ s.length := by
  cases s with
  | nil => exact le_rfl
  | cons b s =>
    by_cases h45 : b = 45
    · simp [splitSign, h45]
    · by_cases h43 : b = 43
      · simp [splitSign, h43]
      · simp [splitSign, h45, h43]

theorem length_fraction {s rest : Bytes} {frac : Option Bytes}
    (h : fraction s = some (frac, rest)) : rest.length ≤ s.length := by
  cases s with
  | nil =>
    simp only [fraction, Option.some.injEq, Prod.mk.injEq] at h
    simp [← h.2]
  | cons b s =>
    simp only [fraction] at h
    split_ifs at h
    · simp only [Option.some.injEq, Prod.mk.injEq] at h
      have := List.length_dropWhile_le isDigit s
      simp only [← h.2, List.length_cons]
      omega
    · simp only [Option.some.injEq, Prod.mk.injEq] at h
      exact h.2 ▸ le_rfl

theorem length_exponent {s rest : Bytes} {exp : Option Int}
    (h : exponent s = some (exp, rest)) : rest.length ≤ s.length := by
  cases s with
  | nil =>
    simp only [exponent, Option.some.injEq, Prod.mk.injEq] at h
    simp [← h.2]
  | cons b s =>
    simp only [exponent] at h
    split_ifs at h
    · simp only [Option.some.injEq, Prod.mk.injEq] at h
      have := List.length_dropWhile_le isDigit (splitSign s).2
      have := length_splitSign_le s
      simp only [← h.2, List.length_cons]
      omega
    · simp only [Option.some.injEq, Prod.mk.injEq] at h
      have := List.length_dropWhile_le isDigit (splitSign s).2
      have := length_splitSign_le s
      simp only [← h.2, List.length_cons]
      omega
    · simp only [Option.some.injEq, Prod.mk.injEq] at h
      exact h.2 ▸ le_rfl

/-- What a string value takes up with its quotes; other values are not counted. -/
def taken : Json → Nat
  | .string t => cost t + 2
  | _ => 0

theorem taken_numberValue (negative : Bool) (digits : Bytes) (frac : Option Bytes)
    (exp : Option Int) : taken (numberValue negative digits frac exp) = 0 := by
  simp only [numberValue]
  split_ifs <;> rfl

theorem number_taken {s rest : Bytes} {j : Json} (h : number s = some (j, rest)) :
    taken j + rest.length ≤ s.length := by
  have hsign := length_sign_le s
  have hdigits := List.length_dropWhile_le isDigit (sign s).2
  simp only [number] at h
  split_ifs at h
  cases hf : fraction ((sign s).2.dropWhile isDigit) with
  | none => simp [hf] at h
  | some f =>
    cases he : exponent f.2 with
    | none => simp [hf, he] at h
    | some e =>
      simp only [hf, he, Option.some.injEq, Prod.mk.injEq] at h
      have hfraction := length_fraction hf
      have hexponent := length_exponent he
      rw [← h.1, ← h.2, taken_numberValue]
      omega

theorem literal_taken {word s rest : Bytes} {j j' : Json} (hj : taken j = 0)
    (h : literal word j s = some (j', rest)) : taken j' + rest.length ≤ s.length := by
  simp only [literal, Option.map_eq_some_iff, Prod.mk.injEq] at h
  obtain ⟨rest', hr, rfl, rfl⟩ := h
  rw [List.isPrefixOf?_eq_some_iff_append_eq] at hr
  have := congrArg List.length hr
  simp only [List.length_append] at this
  omega

section
variable {α : Type} {item : Bytes → Option (α × Bytes)} {size : α → Nat}

/-- Items that take up their size do so between commas, too. -/
theorem separated_taken
    (hitem : ∀ s a rest, item s = some (a, rest) → size a + rest.length ≤ s.length)
    {close : UInt8} {n : Nat} {s rest : Bytes} {as : List α}
    (h : separated item close n s = some (as, rest)) :
    rest.length + 1 ≤ s.length ∧ ∀ a ∈ as, size a + rest.length + 1 ≤ s.length := by
  induction n generalizing s as with
  | zero => simp [separated] at h
  | succ n ih =>
    cases ha : item s with
    | none => simp [separated, ha] at h
    | some r =>
      obtain ⟨a, s'⟩ := r
      have hle := hitem s a s' ha
      cases hc : expect 44 s' with
      | none =>
        simp only [separated, ha, hc, Option.map_eq_some_iff, Prod.mk.injEq] at h
        obtain ⟨rest', hr, rfl, rfl⟩ := h
        have hend := length_expect hr
        refine ⟨by omega, ?_⟩
        intro a' ha'
        rw [List.mem_singleton] at ha'
        subst ha'
        omega
      | some s'' =>
        have hcomma := length_expect hc
        simp only [separated, ha, hc, Option.map_eq_some_iff, Prod.mk.injEq] at h
        obtain ⟨r', hr, rfl, rfl⟩ := h
        obtain ⟨hrest, hall⟩ := ih hr
        refine ⟨by omega, ?_⟩
        intro a' ha'
        cases List.mem_cons.mp ha' with
        | inl heq =>
          subst heq
          omega
        | inr hmem =>
          have := hall a' hmem
          omega

end

theorem member_taken {item : Bytes → Option (Json × Bytes)}
    (hitem : ∀ s j rest, item s = some (j, rest) → taken j + rest.length ≤ s.length)
    (s : Bytes) (m : Bytes × Json) (rest : Bytes) (h : member item s = some (m, rest)) :
    taken m.2 + rest.length ≤ s.length := by
  simp only [member, bind, Option.bind_eq_some_iff, Option.some.injEq, Prod.mk.injEq] at h
  obtain ⟨s1, h1, r2, h2, s3, h3, r4, h4, rfl, rfl⟩ := h
  have hopen := length_expect h1
  have hkey := stringBody_cost h2
  have hcolon := length_expect h3
  have hvalue := hitem s3 r4.1 r4.2 h4
  simp only [Mode.read] at hkey
  dsimp only
  omega

/-- No value is shorter in a text than the string it stands for. -/
theorem value_taken (n : Nat) (s : Bytes) (j : Json) (rest : Bytes)
    (h : value n s = some (j, rest)) : taken j + rest.length ≤ s.length := by
  induction n generalizing s j rest with
  | zero => simp [value] at h
  | succ n ih =>
    have hwhite := length_skipWhite_le s
    cases hs : skipWhite s with
    | nil => simp [value, hs] at h
    | cons b s' =>
      rw [hs, List.length_cons] at hwhite
      simp only [value, hs] at h
      split_ifs at h
      · simp only [Option.map_eq_some_iff, Prod.mk.injEq] at h
        obtain ⟨r, hr, rfl, rfl⟩ := h
        have := stringBody_cost hr
        simp only [Mode.read, taken] at this ⊢
        omega
      · cases he : expect 125 s' with
        | some s'' =>
          simp only [he, Option.some.injEq, Prod.mk.injEq] at h
          obtain ⟨rfl, rfl⟩ := h
          have := length_expect he
          simp only [taken]
          omega
        | none =>
          simp only [he, Option.map_eq_some_iff, Prod.mk.injEq] at h
          obtain ⟨r, hr, rfl, rfl⟩ := h
          have := (separated_taken (member_taken ih) hr).1
          simp only [taken]
          omega
      · cases he : expect 93 s' with
        | some s'' =>
          simp only [he, Option.some.injEq, Prod.mk.injEq] at h
          obtain ⟨rfl, rfl⟩ := h
          have := length_expect he
          simp only [taken]
          omega
        | none =>
          simp only [he, Option.map_eq_some_iff, Prod.mk.injEq] at h
          obtain ⟨r, hr, rfl, rfl⟩ := h
          have := (separated_taken ih hr).1
          simp only [taken]
          omega
      · have := literal_taken rfl h
        omega
      · have := literal_taken rfl h
        omega
      · have := literal_taken rfl h
        omega
      · have := number_taken h
        simp only [List.length_cons] at this
        omega

/-- A member of an object made of pairs comes from one of the pairs. -/
theorem mem_of_lookup_ofPairs {pairs : List (Bytes × Json)} {key : Bytes} {v : Json}
    (h : (ofPairs pairs).lookup key = some v) : (key, v) ∈ pairs := by
  have hfold : ∀ (pairs members : List (Bytes × Json)),
      (pairs.foldl (fun members p => setMember p.1 p.2 members) members).lookup key = some v →
      (key, v) ∈ pairs ∨ members.lookup key = some v := by
    intro pairs
    induction pairs with
    | nil => intro members h; exact Or.inr h
    | cons p pairs ih =>
      intro members h
      cases ih _ h with
      | inl hmem => exact Or.inl (List.mem_cons_of_mem p hmem)
      | inr hl =>
        by_cases hk : key = p.1
        · rw [hk, lookup_setMember_self, Option.some.injEq] at hl
          refine Or.inl ?_
          rw [hk, ← hl]
          exact List.mem_cons_self
        · rw [lookup_setMember_ne hk] at hl
          exact Or.inr hl
  cases hfold pairs [] h with
  | inl hmem => exact hmem
  | inr hl => cases hl

end OpcUaTestTool.JsonText
