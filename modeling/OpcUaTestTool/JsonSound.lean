import OpcUaTestTool.JsonDump

/-! What a JSON reader takes of a text, one case a production, and that the values it returns can
be written again: their strings are in UTF-8, and their members in order. -/
namespace OpcUaTestTool.JsonSound
open Numerals JsonValues JsonText JsonArrays JsonDump

/-- The bytes outside of strings that are no brackets. -/
def inert (b : UInt8) : Bool :=
  b < 0x80 && b ≠ 34 && b ≠ 91 && b ≠ 93 && b ≠ 123 && b ≠ 125

/-- Only such bytes stand before the rest. -/
def Passes (s rest : Bytes) : Prop := ∃ p, s = p ++ rest ∧ ∀ b ∈ p, inert b = true

theorem Passes.refl (s : Bytes) : Passes s s := ⟨[], rfl, List.forall_mem_nil _⟩

theorem Passes.trans {s t u : Bytes} (h : Passes s t) (h' : Passes t u) : Passes s u := by
  obtain ⟨p, rfl, hp⟩ := h
  obtain ⟨q, rfl, hq⟩ := h'
  refine ⟨p ++ q, by rw [List.append_assoc], fun b hb => ?_⟩
  cases List.mem_append.mp hb with
  | inl hb => exact hp b hb
  | inr hb => exact hq b hb

theorem passes_cons {b : UInt8} (hb : inert b = true) (s : Bytes) : Passes (b :: s) s :=
  ⟨[b], rfl, fun c hc => by rwa [List.mem_singleton.mp hc]⟩

theorem passes_dropWhile {p : UInt8 → Bool} (hp : ∀ b, p b = true → inert b = true) (s : Bytes) :
    Passes s (s.dropWhile p) := by
  induction s with
  | nil => exact Passes.refl []
  | cons b s ih =>
    cases hb : p b with
    | true =>
      rw [List.dropWhile_cons_of_pos hb]
      exact (passes_cons (hp b hb) s).trans ih
    | false =>
      rw [List.dropWhile_cons_of_neg (by simp [hb])]
      exact Passes.refl _

theorem inert_of_white (b : UInt8) (h : isWhite b = true) : inert b = true := by
  simp only [isWhite, Bool.or_eq_true, decide_eq_true_eq] at h
  rcases h with ((h | h) | h) | h
  all_goals
    subst h
    decide

theorem inert_of_digit (b : UInt8) (h : isDigit b = true) : inert b = true := by
  simp only [isDigit, Bool.and_eq_true, decide_eq_true_eq] at h
  simp only [inert, Bool.and_eq_true, decide_eq_true_eq, ne_eq, ← UInt8.toNat_inj,
    UInt8.lt_iff_toNat_lt, UInt8.reduceToNat]
  omega

theorem passes_expect {c : UInt8} {s rest : Bytes} (h : expect c s = some rest) :
    Passes s (c :: rest) := by
  have hwhite := passes_dropWhile inert_of_white s
  unfold expect at h
  cases hs : skipWhite s with
  | nil => simp [hs] at h
  | cons b s' =>
    rw [skipWhite] at hs
    rw [hs] at hwhite
    by_cases hb : b = c
    · simp only [skipWhite, hs, if_pos hb, Option.some.injEq] at h
      rw [← hb, ← h]
      exact hwhite
    · simp [skipWhite, hs, hb] at h

theorem passes_sign (s : Bytes) : Passes s (sign s).2 := by
  cases s with
  | nil => exact Passes.refl []
  | cons b s =>
    by_cases hb : b = 45
    · simpa [sign, hb] using passes_cons (b := 45) (by decide) s
    · simpa [sign, hb] using Passes.refl (b :: s)

theorem passes_splitSign (s : Bytes) : Passes s (splitSign s).2 := by
  cases s with
  | nil => exact Passes.refl []
  | cons b s =>
    by_cases h45 : b = 45
    · simpa [splitSign, h45] using passes_cons (b := 45) (by decide) s
    · by_cases h43 : b = 43
      · simpa [splitSign, h43] using passes_cons (b := 43) (by decide) s
      · simpa [splitSign, h45, h43] using Passes.refl (b :: s)

theorem passes_fraction {s rest : Bytes} {frac : Option Bytes}
    (h : fraction s = some (frac, rest)) : Passes s rest := by
  cases s with
  | nil =>
    simp only [fraction, Option.some.injEq, Prod.mk.injEq] at h
    exact h.2 ▸ Passes.refl []
  | cons b s =>
    simp only [fraction] at h
    split_ifs at h with hb
    · simp only [Option.some.injEq, Prod.mk.injEq] at h
      rw [hb, ← h.2]
      exact (passes_cons (by decide) s).trans (passes_dropWhile inert_of_digit s)
    · simp only [Option.some.injEq, Prod.mk.injEq] at h
      exact h.2 ▸ Passes.refl _

theorem passes_exponent {s rest : Bytes} {exp : Option Int}
    (h : exponent s = some (exp, rest)) : Passes s rest := by
  cases s with
  | nil =>
    simp only [exponent, Option.some.injEq, Prod.mk.injEq] at h
    exact h.2 ▸ Passes.refl []
  | cons b s =>
    have hdigits := (passes_splitSign s).trans (passes_dropWhile inert_of_digit (splitSign s).2)
    by_cases hb : b = 101 ∨ b = 69
    · have hinert : inert b = true := by
        cases hb with
        | inl hb => exact hb ▸ by decide
        | inr hb => exact hb ▸ by decide
      simp only [exponent, if_pos hb] at h
      split_ifs at h
      · simp only [Option.some.injEq, Prod.mk.injEq] at h
        exact h.2 ▸ (passes_cons hinert s).trans hdigits
      · simp only [Option.some.injEq, Prod.mk.injEq] at h
        exact h.2 ▸ (passes_cons hinert s).trans hdigits
    · simp only [exponent, if_neg hb, Option.some.injEq, Prod.mk.injEq] at h
      exact h.2 ▸ Passes.refl _

/-- Neither a string nor an array or an object. -/
def Scalar : Json → Prop
  | .string _ => False
  | .array _ => False
  | .object _ => False
  | _ => True

theorem Scalar.sound {j : Json} (h : Scalar j) : Sound (fun _ => True) j := by
  cases j with
  | null => exact .null
  | boolean b => exact .boolean b
  | integer n => exact .integer trivial
  | float x => exact .float trivial
  | string s => cases h
  | array elements => cases h
  | object members => cases h

theorem scalar_numberValue (negative : Bool) (digits : Bytes) (frac : Option Bytes)
    (exp : Option Int) : Scalar (numberValue negative digits frac exp) := by
  simp only [numberValue]
  split_ifs <;> trivial

theorem passes_number {s rest : Bytes} {j : Json} (h : number s = some (j, rest)) :
    Passes s rest ∧ Scalar j := by
  have hdigits := (passes_sign s).trans (passes_dropWhile inert_of_digit (sign s).2)
  simp only [number] at h
  split_ifs at h
  cases hf : fraction ((sign s).2.dropWhile isDigit) with
  | none => simp [hf] at h
  | some f =>
    cases he : exponent f.2 with
    | none => simp [hf, he] at h
    | some e =>
      simp only [hf, he, Option.some.injEq, Prod.mk.injEq] at h
      rw [← h.1, ← h.2]
      exact ⟨hdigits.trans ((passes_fraction hf).trans (passes_exponent he)),
        scalar_numberValue _ _ _ _⟩

theorem passes_literal {word s rest : Bytes} {j j' : Json} (hword : ∀ b ∈ word, inert b = true)
    (h : literal word j s = some (j', rest)) : Passes s rest ∧ j' = j := by
  simp only [literal, Option.map_eq_some_iff, Prod.mk.injEq] at h
  obtain ⟨rest', hr, rfl, rfl⟩ := h
  rw [List.isPrefixOf?_eq_some_iff_append_eq] at hr
  exact ⟨⟨word, hr.symm, hword⟩, rfl⟩

/-- Everything a value can be made of. -/
inductive Production (n : Nat) (s : Bytes) : Json → Bytes → Prop
  | scalar {j : Json} {rest : Bytes} (hs : Passes s rest) (hj : Scalar j) : Production n s j rest
  | string {body t rest : Bytes} (hs : Passes s (34 :: body))
      (h : stringBody .plain body = some (t, rest)) : Production n s (.string t) rest
  | emptyArray {body rest : Bytes} (hs : Passes s (91 :: body)) (h : expect 93 body = some rest) :
      Production n s (.array []) rest
  | array {body rest : Bytes} {elements : List Json} (hs : Passes s (91 :: body))
      (h : separated (value n) 93 n body = some (elements, rest)) :
      Production n s (.array elements) rest
  | emptyObject {body rest : Bytes} (hs : Passes s (123 :: body))
      (h : expect 125 body = some rest) : Production n s (.object []) rest
  | object {body rest : Bytes} {pairs : List (Bytes × Json)} (hs : Passes s (123 :: body))
      (h : separated (member (value n)) 125 n body = some (pairs, rest)) :
      Production n s (.object (ofPairs pairs)) rest

theorem production {n : Nat} {s rest : Bytes} {j : Json} (h : value (n + 1) s = some (j, rest)) :
    Production n s j rest := by
  have hwhite := passes_dropWhile inert_of_white s
  cases hs : skipWhite s with
  | nil => simp [value, hs] at h
  | cons b body =>
    rw [← skipWhite, hs] at hwhite
    have hafter {c : UInt8} (hb : b = c) : Passes s (c :: body) := hb ▸ hwhite
    simp only [value, hs] at h
    split_ifs at h with h34 h123 h91 h116 h102 h110
    · simp only [Option.map_eq_some_iff, Prod.mk.injEq] at h
      obtain ⟨r, hr, rfl, rfl⟩ := h
      exact .string (hafter h34) hr
    · cases he : expect 125 body with
      | some body' =>
        simp only [he, Option.some.injEq, Prod.mk.injEq] at h
        obtain ⟨rfl, rfl⟩ := h
        exact .emptyObject (hafter h123) he
      | none =>
        simp only [he, Option.map_eq_some_iff, Prod.mk.injEq] at h
        obtain ⟨r, hr, rfl, rfl⟩ := h
        exact .object (hafter h123) hr
    · cases he : expect 93 body with
      | some body' =>
        simp only [he, Option.some.injEq, Prod.mk.injEq] at h
        obtain ⟨rfl, rfl⟩ := h
        exact .emptyArray (hafter h91) he
      | none =>
        simp only [he, Option.map_eq_some_iff, Prod.mk.injEq] at h
        obtain ⟨r, hr, rfl, rfl⟩ := h
        exact .array (hafter h91) hr
    · obtain ⟨hpass, rfl⟩ := passes_literal (forall_bytes (by decide)) h
      exact .scalar ((hafter h116).trans ((passes_cons (by decide) body).trans hpass)) trivial
    · obtain ⟨hpass, rfl⟩ := passes_literal (forall_bytes (by decide)) h
      exact .scalar ((hafter h102).trans ((passes_cons (by decide) body).trans hpass)) trivial
    · obtain ⟨hpass, rfl⟩ := passes_literal (forall_bytes (by decide)) h
      exact .scalar ((hafter h110).trans ((passes_cons (by decide) body).trans hpass)) trivial
    · obtain ⟨hpass, hj⟩ := passes_number h
      exact .scalar (hwhite.trans hpass) hj

section
variable {α : Type} {item : Bytes → Option (α × Bytes)} {P : Bytes → Prop} {Q : α → Prop}

/-- What every item keeps of the text behind it, the items between commas keep. -/
theorem separated_induct (hcomma : ∀ s rest, expect 44 s = some rest → P s → P rest)
    (hitem : ∀ s a rest, item s = some (a, rest) → P s → Q a ∧ P rest) {close : UInt8} {n : Nat}
    {s rest : Bytes} {as : List α} (h : separated item close n s = some (as, rest)) (hs : P s) :
    (∀ a ∈ as, Q a) ∧ ∃ mid, P mid ∧ expect close mid = some rest := by
  induction n generalizing s as with
  | zero => simp [separated] at h
  | succ n ih =>
    cases ha : item s with
    | none => simp [separated, ha] at h
    | some r =>
      obtain ⟨a, s'⟩ := r
      obtain ⟨hq, hs'⟩ := hitem s a s' ha hs
      cases hc : expect 44 s' with
      | none =>
        simp only [separated, ha, hc, Option.map_eq_some_iff, Prod.mk.injEq] at h
        obtain ⟨rest', hr, rfl, rfl⟩ := h
        exact ⟨by simpa using hq, s', hs', hr⟩
      | some s'' =>
        simp only [separated, ha, hc, Option.map_eq_some_iff, Prod.mk.injEq] at h
        obtain ⟨r, hr, rfl, rfl⟩ := h
        obtain ⟨hall, hmid⟩ := ih hr (hcomma s' s'' hc hs')
        exact ⟨List.forall_mem_cons.mpr ⟨hq, hall⟩, hmid⟩

end

/-- A member is a name, a colon and a value. -/
theorem member_eq_some {item : Bytes → Option (Json × Bytes)} {s rest : Bytes} {m : Bytes × Json}
    (h : member item s = some (m, rest)) :
    ∃ body t mid, Passes s (34 :: body) ∧ stringBody .plain body = some (m.1, t) ∧
      Passes t (58 :: mid) ∧ item mid = some (m.2, rest) := by
  simp only [member, bind, Option.bind_eq_some_iff, Option.some.injEq, Prod.mk.injEq] at h
  obtain ⟨s1, h1, r2, h2, s3, h3, r4, h4, rfl, rfl⟩ := h
  exact ⟨s1, r2.2, s3, passes_expect h1, h2, passes_expect h3, h4⟩

/-! ### UTF-8 -/

theorem ascii_of_inert {b : UInt8} (h : inert b = true) : b < 0x80 := by
  simp only [inert, Bool.and_eq_true, decide_eq_true_eq] at h
  exact h.1.1.1.1.1

theorem utf8_passes {s rest : Bytes} (h : Passes s rest) : utf8 s = utf8 rest := by
  obtain ⟨p, rfl, hp⟩ := h
  exact utf8_append_of_ascii (fun b hb => ascii_of_inert (hp b hb)) rest

theorem utf8_passes_cons {s rest : Bytes} {c : UInt8} (hc : c < 0x80) (h : Passes s (c :: rest)) :
    utf8 s = utf8 rest := by
  rw [utf8_passes h, utf8_cons_ascii hc]

theorem utf8_expect {c : UInt8} (hc : c < 0x80) {s rest : Bytes} (h : expect c s = some rest) :
    utf8 s = utf8 rest :=
  utf8_passes_cons hc (passes_expect h)

/-- A character, other than the halves of surrogate pairs. -/
def IsCharacter (c : Nat) : Prop := c < 0xD800 ∨ 0xE000 ≤ c ∧ c < 0x110000

theorem continuation_ofNat {n : Nat} (hn : n < 256) : continuation (UInt8.ofNat n) =
    if n < 0x80 then some []
    else if n < 0xC2 then none
    else if n < 0xE0 then some [(0x80, 0xBF)]
    else if n = 0xE0 then some [(0xA0, 0xBF), (0x80, 0xBF)]
    else if n = 0xED then some [(0x80, 0x9F), (0x80, 0xBF)]
    else if n < 0xF0 then some [(0x80, 0xBF), (0x80, 0xBF)]
    else if n = 0xF0 then some [(0x90, 0xBF), (0x80, 0xBF), (0x80, 0xBF)]
    else if n < 0xF4 then some [(0x80, 0xBF), (0x80, 0xBF), (0x80, 0xBF)]
    else if n = 0xF4 then some [(0x80, 0x8F), (0x80, 0xBF), (0x80, 0xBF)]
    else none := by
  have hbyte : (UInt8.ofNat n).toNat = n := UInt8.toNat_ofNat_of_lt' hn
  simp only [continuation, UInt8.lt_iff_toNat_lt, ← UInt8.toNat_inj, hbyte, UInt8.reduceToNat]

theorem utf8_ofNat {n : Nat} {due : List (UInt8 × UInt8)}
    (h : continuation (UInt8.ofNat n) = some due) (s : Bytes) :
    utf8 (UInt8.ofNat n :: s) = utf8From due s := by
  rw [utf8, utf8From, h]

/-- A continuation byte in its range. -/
theorem utf8From_ofNat {lo hi : UInt8} {n : Nat} (hlo : lo.toNat ≤ n) (hhi : n ≤ hi.toNat)
    (due : List (UInt8 × UInt8)) (s : Bytes) :
    utf8From ((lo, hi) :: due) (UInt8.ofNat n :: s) = utf8From due s := by
  have hbyte : (UInt8.ofNat n).toNat = n := UInt8.toNat_ofNat_of_lt' (hhi.trans_lt hi.toNat_lt)
  rw [utf8From, if_pos]
  simp only [UInt8.le_iff_toNat_le, hbyte]
  exact ⟨hlo, hhi⟩

theorem utf8_encodeUtf8 {c : Nat} (hc : IsCharacter c) : utf8 (encodeUtf8 c) = true := by
  have hc : c < 0xD800 ∨ 0xE000 ≤ c ∧ c < 0x110000 := hc
  have tail (n : Nat) (due : List (UInt8 × UInt8)) (s : Bytes) :
      utf8From ((0x80, 0xBF) :: due) (UInt8.ofNat (0x80 + n % 64) :: s) = utf8From due s :=
    utf8From_ofNat (by simp) (by simp; omega) due s
  unfold encodeUtf8
  split_ifs with h1 h2 h3
  · have hlead := continuation_ofNat (n := c) (by omega)
    rw [if_pos h1] at hlead
    rw [utf8_ofNat hlead]
    rfl
  · have hlead := continuation_ofNat (n := 0xC0 + c / 64) (by omega)
    rw [if_neg (by omega), if_neg (by omega), if_pos (by omega)] at hlead
    rw [utf8_ofNat hlead, tail]
    rfl
  · have hlead := continuation_ofNat (n := 0xE0 + c / 4096) (by omega)
    rw [if_neg (by omega), if_neg (by omega), if_neg (by omega)] at hlead
    by_cases hfirst : c / 4096 = 0
    · rw [if_pos (by omega)] at hlead
      rw [utf8_ofNat hlead, utf8From_ofNat (by simp; omega) (by simp; omega), tail]
      rfl
    · rw [if_neg (by omega)] at hlead
      by_cases hlast : c / 4096 = 13
      · rw [if_pos (by omega)] at hlead
        rw [utf8_ofNat hlead, utf8From_ofNat (by simp) (by simp; omega), tail]
        rfl
      · rw [if_neg (by omega), if_pos (by omega)] at hlead
        rw [utf8_ofNat hlead, tail, tail]
        rfl
  · have hlead := continuation_ofNat (n := 0xF0 + c / 262144 % 8) (by omega)
    rw [if_neg (by omega), if_neg (by omega), if_neg (by omega), if_neg (by omega),
      if_neg (by omega), if_neg (by omega)] at hlead
    by_cases hfirst : c / 262144 = 0
    · rw [if_pos (by omega)] at hlead
      rw [utf8_ofNat hlead, utf8From_ofNat (by simp; omega) (by simp; omega), tail, tail]
      rfl
    · rw [if_neg (by omega)] at hlead
      by_cases hlast : c / 262144 = 4
      · rw [if_neg (by omega), if_pos (by omega)] at hlead
        rw [utf8_ofNat hlead, utf8From_ofNat (by simp) (by simp; omega), tail, tail]
        rfl
      · rw [if_pos (by omega)] at hlead
        rw [utf8_ofNat hlead, tail, tail, tail]
        rfl

/-- The states that a reader of a string comes to. -/
def Legal : Mode → Prop
  | .plain => True
  | .escape => True
  | .hex n value high => n ≤ 3 ∧ value < 16 ^ n ∧ ∀ h ∈ high, 0xD800 ≤ h ∧ h < 0xDC00
  | .backslash h => 0xD800 ≤ h ∧ h < 0xDC00
  | .letter h => 0xD800 ≤ h ∧ h < 0xDC00

theorem hexValue_eq_some {b : UInt8} {d : Nat} (h : hexValue b = some d) : b < 0x80 ∧ d < 16 := by
  unfold hexValue at h
  simp only [UInt8.lt_iff_toNat_lt, UInt8.le_iff_toNat_le, UInt8.reduceToNat] at h ⊢
  split_ifs at h
  all_goals
    simp only [Option.some.injEq] at h
    omega

theorem simpleEscape_eq_some {b c : UInt8} (h : simpleEscape b = some c) : b < 0x80 ∧ c < 0x80 := by
  unfold simpleEscape at h
  split_ifs at h with h1 h2 h3 h4 h5 h6
  · rw [Option.some.injEq] at h
    rcases h1 with hb | hb | hb
    all_goals
      rw [← h, hb]
      decide
  all_goals
    rw [Option.some.injEq] at h
    subst b c
    decide

/-- What four digits can stand for. -/
theorem codeUnit_eq_some {value : Nat} (hvalue : value < 0x10000) {high : Option Nat}
    (hhigh : ∀ h ∈ high, 0xD800 ≤ h ∧ h < 0xDC00) {u : CodeUnit}
    (h : codeUnit value high = some u) :
    (∃ c, u = .character c ∧ IsCharacter c) ∨ ∃ h, u = .high h ∧ 0xD800 ≤ h ∧ h < 0xDC00 := by
  cases high with
  | none =>
    simp only [codeUnit] at h
    split_ifs at h with h1 h2
    · cases h
      exact Or.inr ⟨value, rfl, h1⟩
    · cases h
      refine Or.inl ⟨value, rfl, ?_⟩
      unfold IsCharacter
      omega
  | some hi =>
    have hhi := hhigh hi rfl
    simp only [codeUnit] at h
    split_ifs at h with h1
    cases h
    refine Or.inl ⟨_, rfl, ?_⟩
    unfold IsCharacter
    omega

/-- A string in a text in UTF-8 is in UTF-8, and so is the text behind it. Within an escape, no
continuation byte is due. -/
theorem utf8_stringBody {mode : Mode} (hmode : Legal mode) {due : List (UInt8 × UInt8)}
    (hdue : Due due) (hplain : mode = .plain ∨ due = []) {s t rest : Bytes}
    (hs : utf8From due s = true) (h : stringBody mode s = some (t, rest)) :
    utf8From due t = true ∧ utf8 rest = true := by
  induction s generalizing mode due t with
  | nil => simp [stringBody] at h
  | cons b s ih =>
    have hascii (hb : b < 0x80) : due = [] ∧ utf8 s = true := by
      cases due with
      | nil => exact ⟨rfl, by rw [← utf8_cons_ascii hb]; exact hs⟩
      | cons r due =>
        rw [utf8From_ascii_of_due (hdue r List.mem_cons_self) hb] at hs
        cases hs
    cases mode with
    | plain =>
      by_cases hquote : b = 34
      · obtain ⟨rfl, hs'⟩ := hascii (hquote ▸ by decide)
        rw [stringBody, if_pos hquote, Option.some.injEq, Prod.mk.injEq] at h
        rw [← h.1, ← h.2]
        exact ⟨rfl, hs'⟩
      · by_cases hback : b = 92
        · obtain ⟨rfl, hs'⟩ := hascii (hback ▸ by decide)
          rw [stringBody, if_neg hquote, if_pos hback] at h
          exact ih (by trivial) due_nil (Or.inr rfl) hs' h
        · simp only [stringBody, if_neg hquote, if_neg hback] at h
          split_ifs at h
          simp only [Option.map_eq_some_iff, Prod.mk.injEq] at h
          obtain ⟨r, hr, rfl, rfl⟩ := h
          cases due with
          | nil =>
            rw [utf8From] at hs ⊢
            cases hc : continuation b with
            | none => simp [hc] at hs
            | some due =>
              simp only [hc] at hs ⊢
              exact ih (by trivial) (due_continuation hc) (Or.inl rfl) hs hr
          | cons r' due =>
            have hdue' : Due due := fun r hr => hdue r (List.mem_cons_of_mem r' hr)
            rw [utf8From] at hs ⊢
            split_ifs at hs ⊢
            exact ih (by trivial) hdue' (Or.inl rfl) hs hr
    | escape =>
      by_cases hu : b = 117
      · obtain ⟨rfl, hs'⟩ := hascii (hu ▸ by decide)
        rw [stringBody, if_pos hu] at h
        have hlegal : Legal (.hex 0 0 none) := ⟨by omega, by simp, by simp⟩
        exact ih hlegal due_nil (Or.inr rfl) hs' h
      · cases hc : simpleEscape b with
        | none => simp [stringBody, hu, hc] at h
        | some c =>
          obtain ⟨hb, hc'⟩ := simpleEscape_eq_some hc
          obtain ⟨rfl, hs'⟩ := hascii hb
          simp only [stringBody, if_neg hu, hc, Option.map_eq_some_iff, Prod.mk.injEq] at h
          obtain ⟨r, hr, rfl, rfl⟩ := h
          obtain ⟨ht, hrest⟩ := ih (by trivial) due_nil (Or.inl rfl) hs' hr
          exact ⟨(utf8_cons_ascii hc' r.1).trans ht, hrest⟩
    | hex n value high =>
      obtain ⟨hn, hvalue, hhigh⟩ := hmode
      cases hd : hexValue b with
      | none => simp [stringBody, hd] at h
      | some d =>
        obtain ⟨hb, hd'⟩ := hexValue_eq_some hd
        obtain ⟨rfl, hs'⟩ := hascii hb
        have hnext : value * 16 + d < 16 ^ (n + 1) := by
          rw [pow_succ]
          omega
        by_cases hlt : n < 3
        · simp only [stringBody, hd, if_pos hlt] at h
          have hlegal : Legal (.hex (n + 1) (value * 16 + d) high) := ⟨by omega, hnext, hhigh⟩
          exact ih hlegal due_nil (Or.inr rfl) hs' h
        · obtain rfl : n = 3 := by omega
          simp only [stringBody, hd, if_neg hlt] at h
          cases hu : codeUnit (value * 16 + d) high with
          | none => simp [hu] at h
          | some u =>
            cases codeUnit_eq_some (by simpa using hnext) hhigh hu with
            | inl hcase =>
              obtain ⟨c, rfl, hc⟩ := hcase
              simp only [hu, Option.map_eq_some_iff, Prod.mk.injEq] at h
              obtain ⟨r, hr, rfl, rfl⟩ := h
              obtain ⟨ht, hrest⟩ := ih (by trivial) due_nil (Or.inl rfl) hs' hr
              exact ⟨(utf8_append (utf8_encodeUtf8 hc) r.1).trans ht, hrest⟩
            | inr hcase =>
              obtain ⟨hi, rfl, hhi⟩ := hcase
              simp only [hu] at h
              have hlegal : Legal (.backslash hi) := hhi
              exact ih hlegal due_nil (Or.inr rfl) hs' h
    | backslash hi =>
      by_cases hb : b = 92
      · obtain ⟨rfl, hs'⟩ := hascii (hb ▸ by decide)
        rw [stringBody, if_pos hb] at h
        have hlegal : Legal (.letter hi) := hmode
        exact ih hlegal due_nil (Or.inr rfl) hs' h
      · simp [stringBody, hb] at h
    | letter hi =>
      by_cases hb : b = 117
      · obtain ⟨rfl, hs'⟩ := hascii (hb ▸ by decide)
        rw [stringBody, if_pos hb] at h
        have hlegal : Legal (.hex 0 0 (some hi)) := by
          refine ⟨by omega, by simp, ?_⟩
          intro h' hh'
          exact Option.some.inj hh' ▸ hmode
        exact ih hlegal due_nil (Or.inr rfl) hs' h
      · simp [stringBody, hb] at h

/-! ### Values -/

theorem mem_setMember {key : Bytes} {v : Json} {members : List (Bytes × Json)} {m : Bytes × Json}
    (h : m ∈ setMember key v members) : m = (key, v) ∨ m ∈ members := by
  induction members with
  | nil => exact Or.inl (List.mem_singleton.mp h)
  | cons m' members ih =>
    rw [setMember] at h
    split_ifs at h
    · cases List.mem_cons.mp h with
      | inl h => exact Or.inl h
      | inr h => exact Or.inr (List.mem_cons_of_mem m' h)
    · cases List.mem_cons.mp h with
      | inl h => exact Or.inl h
      | inr h => exact Or.inr h
    · cases List.mem_cons.mp h with
      | inl h => exact Or.inr (h ▸ List.mem_cons_self)
      | inr h => exact (ih h).imp_right (List.mem_cons_of_mem m')

/-- The members stay in order. -/
theorem order_setMember (key : Bytes) (v : Json) {members : List (Bytes × Json)}
    (h : members.Pairwise fun m m' => m.1 < m'.1) :
    (setMember key v members).Pairwise fun m m' => m.1 < m'.1 := by
  induction members with
  | nil => simp [setMember]
  | cons m members ih =>
    obtain ⟨hm, hrest⟩ := List.pairwise_cons.mp h
    rw [setMember]
    split_ifs with heq hlt
    · exact List.pairwise_cons.mpr ⟨fun m' hm' => heq ▸ hm m' hm', hrest⟩
    · refine List.pairwise_cons.mpr ⟨fun m' hm' => ?_, h⟩
      cases List.mem_cons.mp hm' with
      | inl h => exact h ▸ hlt
      | inr h => exact List.lt_trans hlt (hm m' h)
    · refine List.pairwise_cons.mpr ⟨fun m' hm' => ?_, ih hrest⟩
      cases mem_setMember hm' with
      | inl h =>
        rw [h]
        cases List.le_iff_lt_or_eq.mp (List.not_lt.mp hlt) with
        | inl hlt' => exact hlt'
        | inr heq' => exact absurd heq'.symm heq
      | inr h => exact hm m' h

theorem order_ofPairs (pairs : List (Bytes × Json)) :
    (ofPairs pairs).Pairwise fun m m' => m.1 < m'.1 := by
  have hfold : ∀ (pairs acc : List (Bytes × Json)), (acc.Pairwise fun m m' => m.1 < m'.1) →
      (pairs.foldl (fun members p => setMember p.1 p.2 members) acc).Pairwise
        fun m m' => m.1 < m'.1 := by
    intro pairs
    induction pairs with
    | nil => exact fun acc h => h
    | cons p pairs ih => exact fun acc h => ih _ (order_setMember p.1 p.2 h)
  exact hfold pairs [] List.Pairwise.nil

theorem mem_ofPairs {pairs : List (Bytes × Json)} {m : Bytes × Json} (h : m ∈ ofPairs pairs) :
    m ∈ pairs := by
  have hfold : ∀ pairs acc : List (Bytes × Json),
      m ∈ pairs.foldl (fun members p => setMember p.1 p.2 members) acc → m ∈ pairs ∨ m ∈ acc := by
    intro pairs
    induction pairs with
    | nil => exact fun acc h => Or.inr h
    | cons p pairs ih =>
      intro acc h
      cases ih _ h with
      | inl h => exact Or.inl (List.mem_cons_of_mem p h)
      | inr h =>
        cases mem_setMember h with
        | inl h => exact Or.inl (h ▸ List.mem_cons_self)
        | inr h => exact Or.inr h
  exact (hfold pairs [] h).resolve_right List.not_mem_nil

theorem value_sound {n : Nat} {s rest : Bytes} {j : Json} (h : value n s = some (j, rest))
    (hs : utf8 s = true) : Sound (fun _ => True) j ∧ utf8 rest = true := by
  induction n generalizing s rest j with
  | zero => simp [value] at h
  | succ n ih =>
    have hcomma : ∀ s rest, expect 44 s = some rest → utf8 s = true → utf8 rest = true :=
      fun s rest h hs => (utf8_expect (by decide) h).symm.trans hs
    cases production h with
    | scalar hpass hj => exact ⟨hj.sound, (utf8_passes hpass).symm.trans hs⟩
    | string hpass hbody =>
      rw [utf8_passes_cons (by decide) hpass] at hs
      obtain ⟨ht, hrest⟩ := utf8_stringBody (by trivial) due_nil (Or.inl rfl) hs hbody
      exact ⟨.string ht, hrest⟩
    | emptyArray hpass hend =>
      rw [utf8_passes_cons (by decide) hpass, utf8_expect (by decide) hend] at hs
      exact ⟨.array (List.forall_mem_nil _), hs⟩
    | array hpass hbody =>
      rw [utf8_passes_cons (by decide) hpass] at hs
      obtain ⟨hall, mid, hmid, hend⟩ := separated_induct (P := fun s => utf8 s = true)
        (Q := Sound fun _ => True) hcomma (fun s a rest h hs => ih h hs) hbody hs
      exact ⟨.array hall, (utf8_expect (by decide) hend).symm.trans hmid⟩
    | emptyObject hpass hend =>
      rw [utf8_passes_cons (by decide) hpass, utf8_expect (by decide) hend] at hs
      exact ⟨.object List.Pairwise.nil (List.forall_mem_nil _) (List.forall_mem_nil _), hs⟩
    | object hpass hbody =>
      rw [utf8_passes_cons (by decide) hpass] at hs
      have hmember : ∀ s m rest, member (value n) s = some (m, rest) → utf8 s = true →
          (utf8 m.1 = true ∧ Sound (fun _ => True) m.2) ∧ utf8 rest = true := by
        intro s m rest hm hs
        obtain ⟨body, t, mid, hname, hkey, hcolon, hv⟩ := member_eq_some hm
        rw [utf8_passes_cons (by decide) hname] at hs
        obtain ⟨hm1, ht⟩ := utf8_stringBody (by trivial) due_nil (Or.inl rfl) hs hkey
        obtain ⟨hm2, hrest⟩ := ih hv ((utf8_passes_cons (by decide) hcolon).symm.trans ht)
        exact ⟨⟨hm1, hm2⟩, hrest⟩
      obtain ⟨hall, mid, hmid, hend⟩ := separated_induct (P := fun s => utf8 s = true)
        hcomma hmember hbody hs
      refine ⟨.object (order_ofPairs _) ?_ ?_, (utf8_expect (by decide) hend).symm.trans hmid⟩
      · exact fun m hm => (hall m (mem_ofPairs hm)).1
      · exact fun m hm => (hall m (mem_ofPairs hm)).2

/-- What is read is a value. -/
theorem parse_sound {s : Bytes} {j : Json} (h : parse s = some j) : Sound (fun _ => True) j := by
  obtain ⟨hs, rest, hv, _⟩ := parse_eq_some.mp h
  exact (value_sound hv hs).1

section
variable {number : Json → Prop}

theorem sound_setMember {key : Bytes} {v : Json} {members : List (Bytes × Json)}
    (hkey : utf8 key = true) (hv : Sound number v) (h : Sound number (.object members)) :
    Sound number (.object (setMember key v members)) := by
  cases h with
  | object order keys h =>
    refine .object (order_setMember key v order) ?_ ?_
    · intro m hm
      cases mem_setMember hm with
      | inl heq => exact heq ▸ hkey
      | inr hmem => exact keys m hmem
    · intro m hm
      cases mem_setMember hm with
      | inl heq => exact heq ▸ hv
      | inr hmem => exact h m hmem

theorem sound_empty : Sound number (.object []) :=
  .object List.Pairwise.nil (List.forall_mem_nil _) (List.forall_mem_nil _)

theorem sound_ofPairs {pairs : List (Bytes × Json)}
    (h : ∀ p ∈ pairs, utf8 p.1 = true ∧ Sound number p.2) :
    Sound number (.object (ofPairs pairs)) :=
  .object (order_ofPairs pairs) (fun m hm => (h m (mem_ofPairs hm)).1)
    fun m hm => (h m (mem_ofPairs hm)).2

theorem sound_at {j : Json} (hj : Sound number j) {key : Bytes} {v : Json}
    (h : j.at key = some v) : Sound number v := by
  cases hj with
  | object order keys hmembers =>
    obtain ⟨before, behind, rfl, _⟩ := List.lookup_eq_some_iff.mp h
    exact hmembers (key, v) (by simp)
  | _ => cases h

theorem sound_pair {a b : Bytes} (hab : a < b) (ha : utf8 a = true) (hb : utf8 b = true)
    {v w : Json}
    (hv : Sound number v) (hw : Sound number w) : Sound number (.object [(a, v), (b, w)]) := by
  refine .object ?_ ?_ ?_
  · exact List.pairwise_pair.mpr hab
  · simpa using ⟨ha, hb⟩
  · simpa using ⟨hv, hw⟩

theorem sound_single {a : Bytes} (ha : utf8 a = true) {v : Json} (hv : Sound number v) :
    Sound number (.object [(a, v)]) := by
  refine .object (List.pairwise_singleton _ _) ?_ ?_
  · simpa using ha
  · simpa using hv

end

end OpcUaTestTool.JsonSound
