import OpcUaTestTool.JsonText

/-! JSON texts inside longer texts. What is read of a text does not change where another text
follows it, so that texts between commas and brackets are read one after the other. -/
namespace OpcUaTestTool.JsonArrays
open Numerals JsonValues JsonText

/-! ### UTF-8 -/

theorem utf8From_append {a : Bytes} {due : List (UInt8 × UInt8)} (ha : utf8From due a = true)
    (s : Bytes) : utf8From due (a ++ s) = utf8 s := by
  induction a generalizing due with
  | nil =>
    cases due with
    | nil => rfl
    | cons r due => cases ha
  | cons b a ih =>
    cases due with
    | nil =>
      rw [utf8From] at ha
      rw [List.cons_append, utf8From]
      cases hc : continuation b with
      | none => simp [hc] at ha
      | some due =>
        simp only [hc] at ha
        exact ih ha
    | cons r due =>
      rw [utf8From] at ha
      rw [List.cons_append, utf8From]
      split at ha
      · rename_i hr
        rw [if_pos hr]
        exact ih ha
      · cases ha

theorem utf8_append {a : Bytes} (ha : utf8 a = true) (s : Bytes) : utf8 (a ++ s) = utf8 s :=
  utf8From_append ha s

/-! ### Text that follows -/

/-- What may stand behind a value: white space, a comma, a closing bracket. -/
def followers : Bytes := [32, 9, 10, 13, 44, 93, 125]

/-- A text that does not go on with the value before it. -/
def Follows (t : Bytes) : Prop := ∀ b, t.head? = some b → b ∈ followers

theorem follows_cons {b : UInt8} (h : b ∈ followers) (t : Bytes) : Follows (b :: t) := by
  intro c hc
  rw [List.head?_cons, Option.some.injEq] at hc
  exact hc ▸ h

/-- A reader takes the same of a text that is followed by another one, as a second reader, which
has more fuel. -/
def Extends {α : Type} (item item' : Bytes → Option (α × Bytes)) (t : Bytes) : Prop :=
  ∀ s a rest, item s = some (a, rest) → item' (s ++ t) = some (a, rest ++ t)

section
variable {p : UInt8 → Bool} {t : Bytes} (hp : ∀ b ∈ followers, p b = false) (ht : Follows t)
include hp ht

theorem takeWhile_follows (s : Bytes) : (s ++ t).takeWhile p = s.takeWhile p := by
  induction s with
  | nil =>
    cases t with
    | nil => rfl
    | cons b t => simp [hp b (ht b rfl)]
  | cons b s ih =>
    cases hb : p b with
    | true => simp [hb, ih]
    | false => simp [hb]

theorem dropWhile_follows (s : Bytes) : (s ++ t).dropWhile p = s.dropWhile p ++ t := by
  induction s with
  | nil =>
    cases t with
    | nil => rfl
    | cons b t => simp [hp b (ht b rfl)]
  | cons b s ih =>
    cases hb : p b with
    | true => simp [hb, ih]
    | false => simp [hb]

end

theorem expect_append {c : UInt8} {s rest : Bytes} (h : expect c s = some rest) (t : Bytes) :
    expect c (s ++ t) = some (rest ++ t) := by
  induction s with
  | nil => cases h
  | cons b s ih =>
    cases hb : isWhite b with
    | true =>
      rw [expect_white hb] at h
      rw [List.cons_append, expect_white hb]
      exact ih h
    | false =>
      simp only [expect, skipWhite_of_not_white hb] at h
      simp only [List.cons_append, expect, skipWhite_of_not_white hb]
      split at h
      · rename_i hc
        rw [if_pos hc, ← Option.some.inj h]
      · cases h

/-- A structural character that is missing before the end of a text is missing in a longer one. -/
theorem expect_append_none {c : UInt8} {s : Bytes} (hs : skipWhite s ≠ [])
    (h : expect c s = none) (t : Bytes) : expect c (s ++ t) = none := by
  induction s with
  | nil => exact absurd rfl hs
  | cons b s ih =>
    cases hb : isWhite b with
    | true =>
      rw [expect_white hb] at h
      rw [List.cons_append, expect_white hb]
      refine ih ?_ h
      simpa [skipWhite, hb] using hs
    | false =>
      simp only [expect, skipWhite_of_not_white hb] at h
      simp only [List.cons_append, expect, skipWhite_of_not_white hb]
      split at h
      · cases h
      · rename_i hc
        rw [if_neg hc]

theorem stringBody_extend {mode : Mode} {s str rest : Bytes}
    (h : stringBody mode s = some (str, rest)) (t : Bytes) :
    stringBody mode (s ++ t) = some (str, rest ++ t) := by
  induction s generalizing mode str with
  | nil => simp [stringBody] at h
  | cons b s ih =>
    rw [List.cons_append]
    cases turn mode b with
    | close hb =>
      rw [hb, Option.some.injEq, Prod.mk.injEq] at h
      rw [hb, h.1, h.2]
    | next mode' _ hb =>
      rw [hb] at h ⊢
      exact ih h
    | piece p _ hb =>
      simp only [hb, Option.map_eq_some_iff, Prod.mk.injEq] at h
      obtain ⟨r, hr, rfl, rfl⟩ := h
      rw [hb, ih hr, Option.map_some]
    | refuse hb => simp [hb] at h

/-! ### Numbers -/

theorem sign_append {s : Bytes} (hs : s ≠ []) (t : Bytes) :
    sign (s ++ t) = ((sign s).1, (sign s).2 ++ t) := by
  cases s with
  | nil => exact absurd rfl hs
  | cons b s =>
    by_cases hb : b = 45
    · simp [sign, hb]
    · simp [sign, hb]

theorem splitSign_append {s : Bytes} (hs : s ≠ []) (t : Bytes) :
    splitSign (s ++ t) = ((splitSign s).1, (splitSign s).2 ++ t) := by
  cases s with
  | nil => exact absurd rfl hs
  | cons b s =>
    by_cases h45 : b = 45
    · simp [splitSign, h45]
    · by_cases h43 : b = 43
      · simp [splitSign, h43]
      · simp [splitSign, h45, h43]

section
variable {t : Bytes} (ht : Follows t)
include ht

theorem digits_follows (s : Bytes) :
    (s ++ t).takeWhile isDigit = s.takeWhile isDigit ∧
      (s ++ t).dropWhile isDigit = s.dropWhile isDigit ++ t :=
  ⟨takeWhile_follows (forall_bytes (by decide)) ht s,
    dropWhile_follows (forall_bytes (by decide)) ht s⟩

theorem fraction_follows {s rest : Bytes} {frac : Option Bytes}
    (h : fraction s = some (frac, rest)) : fraction (s ++ t) = some (frac, rest ++ t) := by
  cases s with
  | nil =>
    simp only [fraction, Option.some.injEq, Prod.mk.injEq] at h
    obtain ⟨rfl, rfl⟩ := h
    cases t with
    | nil => rfl
    | cons b t =>
      have hb : b ≠ 46 := forall_bytes (p := (· ≠ 46)) (s := followers) (by decide) b (ht b rfl)
      simp [fraction, hb]
  | cons b s =>
    rw [List.cons_append]
    by_cases hb : b = 46
    · simp only [fraction, if_pos hb, (digits_follows ht s).1, (digits_follows ht s).2] at h ⊢
      split_ifs at h ⊢
      simp only [Option.some.injEq, Prod.mk.injEq] at h ⊢
      exact ⟨h.1, by rw [h.2]⟩
    · simp only [fraction, if_neg hb, Option.some.injEq, Prod.mk.injEq] at h ⊢
      exact ⟨h.1, by rw [← h.2, List.cons_append]⟩

theorem exponent_follows {s rest : Bytes} {exp : Option Int}
    (h : exponent s = some (exp, rest)) : exponent (s ++ t) = some (exp, rest ++ t) := by
  cases s with
  | nil =>
    simp only [exponent, Option.some.injEq, Prod.mk.injEq] at h
    obtain ⟨rfl, rfl⟩ := h
    cases t with
    | nil => rfl
    | cons b t =>
      have hb : ¬ (b = 101 ∨ b = 69) :=
        forall_bytes (p := fun b => ¬ (b = 101 ∨ b = 69)) (s := followers) (by decide) b (ht b rfl)
      simp [exponent, hb]
  | cons b s =>
    rw [List.cons_append]
    by_cases hb : b = 101 ∨ b = 69
    · by_cases hs : s = []
      · subst hs
        simp [exponent, hb, splitSign] at h
      · simp only [exponent, if_pos hb, splitSign_append hs, (digits_follows ht _).1,
          (digits_follows ht _).2] at h ⊢
        split_ifs at h ⊢
        · simp only [Option.some.injEq, Prod.mk.injEq] at h ⊢
          exact ⟨h.1, by rw [h.2]⟩
        · simp only [Option.some.injEq, Prod.mk.injEq] at h ⊢
          exact ⟨h.1, by rw [h.2]⟩
    · simp only [exponent, if_neg hb, Option.some.injEq, Prod.mk.injEq] at h ⊢
      exact ⟨h.1, by rw [← h.2, List.cons_append]⟩

theorem number_follows {s rest : Bytes} {j : Json} (h : number s = some (j, rest)) :
    number (s ++ t) = some (j, rest ++ t) := by
  have hs : s ≠ [] := by
    rintro rfl
    simp [number, sign] at h
  simp only [number, sign_append hs, (digits_follows ht _).1, (digits_follows ht _).2] at h ⊢
  split_ifs at h ⊢
  cases hf : fraction ((sign s).2.dropWhile isDigit) with
  | none => simp [hf] at h
  | some f =>
    cases he : exponent f.2 with
    | none => simp [hf, he] at h
    | some e =>
      simp only [hf, he, Option.some.injEq, Prod.mk.injEq] at h
      rw [fraction_follows ht hf]
      dsimp only
      rw [exponent_follows ht he]
      simp only [h.1, h.2]

end

theorem literal_append {word s rest : Bytes} {j j' : Json}
    (h : literal word j s = some (j', rest)) (t : Bytes) :
    literal word j (s ++ t) = some (j', rest ++ t) := by
  simp only [literal, Option.map_eq_some_iff, Prod.mk.injEq] at h ⊢
  obtain ⟨rest', hr, rfl, rfl⟩ := h
  rw [List.isPrefixOf?_eq_some_iff_append_eq] at hr
  refine ⟨rest' ++ t, ?_, rfl, rfl⟩
  rw [List.isPrefixOf?_eq_some_iff_append_eq, ← hr, List.append_assoc]

/-! ### Values -/

theorem skipWhite_append {s : Bytes} (hs : skipWhite s ≠ []) (t : Bytes) :
    skipWhite (s ++ t) = skipWhite s ++ t := by
  induction s with
  | nil => exact absurd rfl hs
  | cons b s ih =>
    cases hb : isWhite b with
    | true =>
      simp only [skipWhite, List.dropWhile_cons, List.cons_append, hb, if_true] at hs ih ⊢
      exact ih hs
    | false => simp [skipWhite, hb]

theorem skipWhite_of_expect {c : UInt8} {s rest : Bytes} (h : expect c s = some rest) :
    skipWhite s ≠ [] := by
  intro hs
  simp [expect, hs] at h

theorem skipWhite_of_value {n : Nat} {s : Bytes} {r : Json × Bytes} (h : value n s = some r) :
    skipWhite s ≠ [] := by
  intro hs
  cases n with
  | zero => simp [value] at h
  | succ n => simp [value, hs] at h

theorem skipWhite_of_member {item : Bytes → Option (Json × Bytes)} {s : Bytes}
    {r : (Bytes × Json) × Bytes} (h : member item s = some r) : skipWhite s ≠ [] := by
  simp only [member, bind, Option.bind_eq_some_iff] at h
  obtain ⟨s1, h1, _⟩ := h
  exact skipWhite_of_expect h1

theorem skipWhite_of_separated {α : Type} {item : Bytes → Option (α × Bytes)}
    (hitem : ∀ s r, item s = some r → skipWhite s ≠ []) {close : UInt8} {n : Nat} {s : Bytes}
    {r : List α × Bytes} (h : separated item close n s = some r) : skipWhite s ≠ [] := by
  cases n with
  | zero => simp [separated] at h
  | succ n =>
    cases ha : item s with
    | none => simp [separated, ha] at h
    | some r => exact hitem s r ha

theorem separated_extend {α : Type} {item item' : Bytes → Option (α × Bytes)} {t : Bytes}
    (hitem : Extends item item' t) {close : UInt8} {n m : Nat} (hnm : n ≤ m) {s rest : Bytes}
    {as : List α} (h : separated item close n s = some (as, rest)) :
    separated item' close m (s ++ t) = some (as, rest ++ t) := by
  induction n generalizing m s as with
  | zero => simp [separated] at h
  | succ n ih =>
    obtain ⟨k, rfl⟩ := Nat.exists_eq_add_of_lt hnm
    cases ha : item s with
    | none => simp [separated, ha] at h
    | some r =>
      obtain ⟨a, s'⟩ := r
      simp only [separated, ha] at h
      rw [separated, hitem s a s' ha]
      cases hc : expect 44 s' with
      | some s'' =>
        simp only [hc, Option.map_eq_some_iff, Prod.mk.injEq] at h
        obtain ⟨r, hr, rfl, rfl⟩ := h
        simp only [expect_append hc]
        rw [ih (by omega) hr, Option.map_some]
      | none =>
        simp only [hc, Option.map_eq_some_iff, Prod.mk.injEq] at h
        obtain ⟨s'', hend, rfl, rfl⟩ := h
        simp only [expect_append_none (skipWhite_of_expect hend) hc, expect_append hend,
          Option.map_some]

theorem member_extend {item item' : Bytes → Option (Json × Bytes)} {t : Bytes}
    (hitem : Extends item item' t) : Extends (member item) (member item') t := by
  intro s a rest h
  simp only [member, bind, Option.bind_eq_some_iff, Option.some.injEq, Prod.mk.injEq] at h
  obtain ⟨s1, h1, r2, h2, s3, h3, r4, h4, rfl, rfl⟩ := h
  simp only [member, bind, expect_append h1, stringBody_extend h2, expect_append h3,
    hitem _ _ _ h4, Option.bind_some]

/-- More fuel and a text behind it change nothing of a value that is read. -/
theorem value_extend {n m : Nat} (hnm : n ≤ m) {t : Bytes} (ht : Follows t) :
    Extends (value n) (value m) t := by
  induction n generalizing m with
  | zero =>
    intro s j rest h
    simp [value] at h
  | succ n ih =>
    intro s j rest h
    obtain ⟨k, rfl⟩ := Nat.exists_eq_add_of_lt hnm
    have ih : Extends (value n) (value (n + k)) t := ih (by omega)
    have hskip := skipWhite_append (skipWhite_of_value h) t
    cases hs : skipWhite s with
    | nil => exact absurd hs (skipWhite_of_value h)
    | cons b s' =>
      rw [hs, List.cons_append] at hskip
      simp only [value, hs] at h
      simp only [value, hskip]
      split_ifs at h ⊢
      · simp only [Option.map_eq_some_iff, Prod.mk.injEq] at h
        obtain ⟨r, hr, rfl, rfl⟩ := h
        rw [stringBody_extend hr, Option.map_some]
      · cases he : expect 125 s' with
        | some s'' =>
          simp only [he, Option.some.injEq, Prod.mk.injEq] at h
          simp only [expect_append he, h.1, h.2]
        | none =>
          simp only [he, Option.map_eq_some_iff, Prod.mk.injEq] at h
          obtain ⟨r, hr, rfl, rfl⟩ := h
          have hwhite := skipWhite_of_separated (fun _ _ h => skipWhite_of_member h) hr
          simp only [expect_append_none hwhite he,
            separated_extend (member_extend ih) (Nat.le_add_right n k) hr, Option.map_some]
      · cases he : expect 93 s' with
        | some s'' =>
          simp only [he, Option.some.injEq, Prod.mk.injEq] at h
          simp only [expect_append he, h.1, h.2]
        | none =>
          simp only [he, Option.map_eq_some_iff, Prod.mk.injEq] at h
          obtain ⟨r, hr, rfl, rfl⟩ := h
          have hwhite := skipWhite_of_separated (fun _ _ h => skipWhite_of_value h) hr
          simp only [expect_append_none hwhite he, separated_extend ih (Nat.le_add_right n k) hr,
            Option.map_some]
      · exact literal_append h t
      · exact literal_append h t
      · exact literal_append h t
      · have hnumber := number_follows ht h
        rwa [List.cons_append] at hnumber

/-! ### No NUL -/

theorem mem_dropWhile {p : UInt8 → Bool} {b : UInt8} (hb : p b = false) {s : Bytes}
    (h : b ∈ s) : b ∈ s.dropWhile p := by
  induction s with
  | nil => cases h
  | cons c s ih =>
    cases hc : p c with
    | true =>
      rw [List.dropWhile_cons_of_pos hc]
      cases List.mem_cons.mp h with
      | inl heq => simp [← heq, hb] at hc
      | inr h => exact ih h
    | false => rwa [List.dropWhile_cons_of_neg (by simp [hc])]

theorem zero_of_expect {c : UInt8} (hc : c ≠ 0) {s rest : Bytes} (h : expect c s = some rest)
    (h0 : 0 ∈ s) : 0 ∈ rest := by
  have hskip : 0 ∈ skipWhite s := mem_dropWhile (by decide) h0
  unfold expect at h
  cases hs : skipWhite s with
  | nil => simp [hs] at h
  | cons b s' =>
    by_cases hb : b = c
    · simp only [hs, if_pos hb, Option.some.injEq] at h
      rw [hs, List.mem_cons] at hskip
      cases hskip with
      | inl heq => exact absurd (heq.trans hb).symm hc
      | inr hmem => exact h ▸ hmem
    · simp [hs, hb] at h

theorem stringBody_zero (mode : Mode) (s : Bytes) : stringBody mode (0 :: s) = none := by
  cases mode <;> rfl

/-- A string ends with a byte, or goes on behind it. -/
theorem stringBody_cons {mode : Mode} {b : UInt8} {s str rest : Bytes}
    (h : stringBody mode (b :: s) = some (str, rest)) :
    rest = s ∨ ∃ mode' str', stringBody mode' s = some (str', rest) := by
  cases turn mode b with
  | close hb =>
    rw [hb, Option.some.injEq, Prod.mk.injEq] at h
    exact Or.inl h.2.symm
  | next mode' _ hb => exact Or.inr ⟨mode', str, hb s ▸ h⟩
  | piece p _ hb =>
    simp only [hb, Option.map_eq_some_iff, Prod.mk.injEq] at h
    obtain ⟨r, hr, _, rfl⟩ := h
    exact Or.inr ⟨.plain, r.1, hr⟩
  | refuse hb => simp [hb] at h

theorem zero_of_stringBody {mode : Mode} {s str rest : Bytes}
    (h : stringBody mode s = some (str, rest)) (h0 : 0 ∈ s) : 0 ∈ rest := by
  induction s generalizing mode str with
  | nil => cases h0
  | cons b s ih =>
    have hb : 0 ≠ b := by
      rintro rfl
      simp [stringBody_zero] at h
    have h0 : 0 ∈ s := (List.mem_cons.mp h0).resolve_left hb
    cases stringBody_cons h with
    | inl heq => exact heq ▸ h0
    | inr hex =>
      obtain ⟨mode', str', h'⟩ := hex
      exact ih h' h0

theorem zero_of_sign {s : Bytes} (h0 : 0 ∈ s) : 0 ∈ (sign s).2 := by
  cases s with
  | nil => cases h0
  | cons b s =>
    by_cases hb : b = 45
    · subst hb
      simpa [sign] using h0
    · simpa [sign, hb] using h0

theorem zero_of_splitSign {s : Bytes} (h0 : 0 ∈ s) : 0 ∈ (splitSign s).2 := by
  cases s with
  | nil => cases h0
  | cons b s =>
    by_cases h45 : b = 45
    · subst h45
      simpa [splitSign] using h0
    · by_cases h43 : b = 43
      · subst h43
        simpa [splitSign] using h0
      · simpa [splitSign, h45, h43] using h0

theorem zero_of_fraction {s rest : Bytes} {frac : Option Bytes}
    (h : fraction s = some (frac, rest)) (h0 : 0 ∈ s) : 0 ∈ rest := by
  cases s with
  | nil => cases h0
  | cons b s =>
    by_cases hb : b = 46
    · subst hb
      have h0 : 0 ∈ s := by simpa using h0
      simp only [fraction, if_true] at h
      split_ifs at h
      simp only [Option.some.injEq, Prod.mk.injEq] at h
      exact h.2 ▸ mem_dropWhile (by decide) h0
    · simp only [fraction, if_neg hb, Option.some.injEq, Prod.mk.injEq] at h
      exact h.2 ▸ h0

theorem zero_of_exponent {s rest : Bytes} {exp : Option Int}
    (h : exponent s = some (exp, rest)) (h0 : 0 ∈ s) : 0 ∈ rest := by
  cases s with
  | nil => cases h0
  | cons b s =>
    by_cases hb : b = 101 ∨ b = 69
    · have hne : 0 ≠ b := by
        rintro rfl
        revert hb
        decide
      have h0 : 0 ∈ s := (List.mem_cons.mp h0).resolve_left hne
      have hrest : 0 ∈ (splitSign s).2.dropWhile isDigit :=
        mem_dropWhile (by decide) (zero_of_splitSign h0)
      simp only [exponent, if_pos hb] at h
      split_ifs at h
      · simp only [Option.some.injEq, Prod.mk.injEq] at h
        exact h.2 ▸ hrest
      · simp only [Option.some.injEq, Prod.mk.injEq] at h
        exact h.2 ▸ hrest
    · simp only [exponent, if_neg hb, Option.some.injEq, Prod.mk.injEq] at h
      exact h.2 ▸ h0

theorem zero_of_number {s rest : Bytes} {j : Json} (h : number s = some (j, rest))
    (h0 : 0 ∈ s) : 0 ∈ rest := by
  have hdigits : 0 ∈ (sign s).2.dropWhile isDigit := mem_dropWhile (by decide) (zero_of_sign h0)
  simp only [number] at h
  split_ifs at h
  cases hf : fraction ((sign s).2.dropWhile isDigit) with
  | none => simp [hf] at h
  | some f =>
    cases he : exponent f.2 with
    | none => simp [hf, he] at h
    | some e =>
      simp only [hf, he, Option.some.injEq, Prod.mk.injEq] at h
      exact h.2 ▸ zero_of_exponent he (zero_of_fraction hf hdigits)

theorem zero_of_literal {word s rest : Bytes} {j j' : Json} (hword : 0 ∉ word)
    (h : literal word j s = some (j', rest)) (h0 : 0 ∈ s) : 0 ∈ rest := by
  simp only [literal, Option.map_eq_some_iff, Prod.mk.injEq] at h
  obtain ⟨rest', hr, _, rfl⟩ := h
  rw [List.isPrefixOf?_eq_some_iff_append_eq] at hr
  rw [← hr] at h0
  exact (List.mem_append.mp h0).resolve_left hword

theorem zero_of_separated {α : Type} {item : Bytes → Option (α × Bytes)}
    (hitem : ∀ s a rest, item s = some (a, rest) → 0 ∈ s → 0 ∈ rest) {close : UInt8}
    (hclose : close ≠ 0) {n : Nat} {s rest : Bytes} {as : List α}
    (h : separated item close n s = some (as, rest)) (h0 : 0 ∈ s) : 0 ∈ rest := by
  induction n generalizing s as with
  | zero => simp [separated] at h
  | succ n ih =>
    cases ha : item s with
    | none => simp [separated, ha] at h
    | some r =>
      have h0 : 0 ∈ r.2 := hitem s r.1 r.2 ha h0
      cases hc : expect 44 r.2 with
      | none =>
        simp only [separated, ha, hc, Option.map_eq_some_iff, Prod.mk.injEq] at h
        obtain ⟨s', hend, _, rfl⟩ := h
        exact zero_of_expect hclose hend h0
      | some s' =>
        simp only [separated, ha, hc, Option.map_eq_some_iff, Prod.mk.injEq] at h
        obtain ⟨r', hr, _, rfl⟩ := h
        exact ih hr (zero_of_expect (by decide) hc h0)

theorem zero_of_member {item : Bytes → Option (Json × Bytes)}
    (hitem : ∀ s a rest, item s = some (a, rest) → 0 ∈ s → 0 ∈ rest) (s : Bytes)
    (a : Bytes × Json) (rest : Bytes) (h : member item s = some (a, rest)) (h0 : 0 ∈ s) :
    0 ∈ rest := by
  simp only [member, bind, Option.bind_eq_some_iff, Option.some.injEq, Prod.mk.injEq] at h
  obtain ⟨s1, h1, r2, h2, s3, h3, r4, h4, _, rfl⟩ := h
  have h0 := zero_of_expect (by decide) h1 h0
  have h0 := zero_of_stringBody h2 h0
  have h0 := zero_of_expect (by decide) h3 h0
  exact hitem _ _ _ h4 h0

/-- What is read of a text as a value has no NUL. -/
theorem zero_of_value (n : Nat) (s : Bytes) (j : Json) (rest : Bytes)
    (h : value n s = some (j, rest)) (h0 : 0 ∈ s) : 0 ∈ rest := by
  induction n generalizing s j rest with
  | zero => simp [value] at h
  | succ n ih =>
    have hskip : 0 ∈ skipWhite s := mem_dropWhile (by decide) h0
    cases hs : skipWhite s with
    | nil => simp [value, hs] at h
    | cons b s' =>
      rw [hs] at hskip
      have htail (c : UInt8) (hc : 0 ≠ c) (hb : b = c) : 0 ∈ s' :=
        (List.mem_cons.mp hskip).resolve_left (hb ▸ hc)
      simp only [value, hs] at h
      split_ifs at h with h34 h123 h91 h116 h102 h110
      · simp only [Option.map_eq_some_iff, Prod.mk.injEq] at h
        obtain ⟨r, hr, _, rfl⟩ := h
        exact zero_of_stringBody hr (htail 34 (by decide) h34)
      · have h0 := htail 123 (by decide) h123
        cases he : expect 125 s' with
        | some s'' =>
          simp only [he, Option.some.injEq, Prod.mk.injEq] at h
          exact h.2 ▸ zero_of_expect (by decide) he h0
        | none =>
          simp only [he, Option.map_eq_some_iff, Prod.mk.injEq] at h
          obtain ⟨r, hr, _, rfl⟩ := h
          exact zero_of_separated (zero_of_member ih) (by decide) hr h0
      · have h0 := htail 91 (by decide) h91
        cases he : expect 93 s' with
        | some s'' =>
          simp only [he, Option.some.injEq, Prod.mk.injEq] at h
          exact h.2 ▸ zero_of_expect (by decide) he h0
        | none =>
          simp only [he, Option.map_eq_some_iff, Prod.mk.injEq] at h
          obtain ⟨r, hr, _, rfl⟩ := h
          exact zero_of_separated ih (by decide) hr h0
      · exact zero_of_literal (by decide) h (htail 116 (by decide) h116)
      · exact zero_of_literal (by decide) h (htail 102 (by decide) h102)
      · exact zero_of_literal (by decide) h (htail 110 (by decide) h110)
      · exact zero_of_number h hskip

/-! ### Arrays -/

theorem no_zero_of_parse {s : Bytes} {j : Json} (h : parse s = some j) : 0 ∉ s := by
  obtain ⟨_, rest, hv, hw⟩ := parse_eq_some.mp h
  intro h0
  have hrest := mem_dropWhile (p := isWhite) (by decide) (zero_of_value _ _ _ _ hv h0)
  rw [skipWhite] at hw
  simp [hw] at hrest

theorem expect_of_white {w : Bytes} (hw : skipWhite w = []) (c : UInt8) (s : Bytes) :
    expect c (w ++ s) = expect c s := by
  induction w with
  | nil => rfl
  | cons b w ih =>
    cases hb : isWhite b with
    | true =>
      rw [List.cons_append, expect_white hb]
      refine ih ?_
      simpa [skipWhite, hb] using hw
    | false => simp [skipWhite, hb] at hw

/-- A closing bracket is no value. -/
theorem value_of_expect {s rest : Bytes} (h : expect 93 s = some rest) (n : Nat) :
    value n s = none := by
  cases n with
  | zero => rfl
  | succ n =>
    unfold expect at h
    cases hs : skipWhite s with
    | nil => simp [value, hs]
    | cons b s' =>
      simp only [hs] at h
      split at h
      · rename_i hb
        subst hb
        simp [value, hs, number, sign, isDigit]
      · cases h

theorem ascii_of_white {w : Bytes} (hw : skipWhite w = []) : ∀ b ∈ w, b < 0x80 := by
  intro b hb
  have hwhite := List.dropWhile_eq_nil_iff.mp hw b hb
  simp only [isWhite, Bool.or_eq_true, decide_eq_true_eq] at hwhite
  rcases hwhite with ((h | h) | h) | h
  all_goals
    subst h
    decide

theorem parse_cons_white {b : UInt8} (hb : isWhite b = true) {s : Bytes} {j : Json}
    (h : parse s = some j) : parse (b :: s) = some j := by
  obtain ⟨hutf8, w, hv, hw⟩ := parse_eq_some.mp h
  have hascii : ∀ c ∈ [b], c < 0x80 := ascii_of_white (by simp [skipWhite, hb])
  have hmore := value_extend (Nat.le_succ (s.length + 1)) (t := []) (by simp [Follows]) s j w hv
  rw [List.append_nil, List.append_nil] at hmore
  rw [parse_eq_some, ← List.singleton_append, utf8_append_of_ascii hascii]
  exact ⟨hutf8, w, by rw [List.singleton_append, value_white hb]; exact hmore, hw⟩

theorem parse_append_newline {s : Bytes} {j : Json} (h : parse s = some j) :
    parse (s ++ [10]) = some j := by
  obtain ⟨hutf8, w, hv, hw⟩ := parse_eq_some.mp h
  rw [parse_eq_some, utf8_append hutf8]
  refine ⟨by decide, w ++ [10], ?_, ?_⟩
  · have hle : s.length + 1 ≤ (s ++ [10]).length + 1 := by simp
    exact value_extend hle (follows_cons (by decide) []) s j w hv
  · rw [skipWhite, List.dropWhile_eq_nil_iff] at hw ⊢
    intro b hb
    cases List.mem_append.mp hb with
    | inl hmem => exact hw b hmem
    | inr hmem =>
      rw [List.mem_singleton] at hmem
      subst hmem
      decide

/-- Texts with the values they are read as. -/
def Texts (items : List (Bytes × Json)) : Prop := ∀ p ∈ items, parse p.1 = some p.2

/-- Texts with a comma behind each. -/
def withCommas (items : List (Bytes × Json)) : Bytes := items.flatMap fun p => p.1 ++ [44]

theorem separated_white {b : UInt8} (hb : isWhite b = true) (m n : Nat) (close : UInt8)
    (s : Bytes) : separated (value m) close n (b :: s) = separated (value m) close n s := by
  cases n with
  | zero => rfl
  | succ n => rw [separated, separated, value_white hb]

section
variable {s : Bytes} {j : Json} (h : parse s = some j) {m : Nat} (hm : s.length < m)
include h hm

/-- A text as an item of an array, up to the byte behind it. -/
theorem value_item {b : UInt8} (hb : b ∈ followers) (t : Bytes) :
    ∃ w, skipWhite w = [] ∧ value m (s ++ b :: t) = some (j, w ++ b :: t) := by
  obtain ⟨_, w, hv, hw⟩ := parse_eq_some.mp h
  exact ⟨w, hw, value_extend (by omega) (follows_cons hb t) s j w hv⟩

theorem separated_comma (close : UInt8) (n : Nat) (t : Bytes) :
    separated (value m) close (n + 1) (s ++ 44 :: t) =
      (separated (value m) close n t).map fun r => (j :: r.1, r.2) := by
  obtain ⟨w, hw, hv⟩ := value_item h hm (by decide : 44 ∈ followers) t
  simp only [separated, hv, expect_of_white hw, expect_self (by decide : isWhite 44 = false)]

theorem separated_close (n : Nat) (t : Bytes) :
    separated (value m) 93 (n + 1) (s ++ 93 :: t) = some ([j], t) := by
  obtain ⟨w, hw, hv⟩ := value_item h hm (by decide : 93 ∈ followers) t
  have h44 : expect 44 (93 :: t) = none := expect_ne (by decide) (by decide) t
  simp only [separated, hv, expect_of_white hw, h44, expect_self (by decide : isWhite 93 = false),
    Option.map_some]

end

theorem separated_texts {items : List (Bytes × Json)} (h : Texts items) {m : Nat}
    (hm : (withCommas items).length ≤ m) (n : Nat) (t : Bytes) :
    separated (value m) 93 (n + items.length) (withCommas items ++ t) =
      (separated (value m) 93 n t).map fun r => (items.map Prod.snd ++ r.1, r.2) := by
  induction items with
  | nil => simp [withCommas]
  | cons p items ih =>
    have hcons : withCommas (p :: items) = p.1 ++ 44 :: withCommas items := by simp [withCommas]
    rw [hcons] at hm ⊢
    simp only [List.length_append, List.length_cons] at hm
    have ih := ih (fun q hq => h q (List.mem_cons_of_mem p hq)) (by omega)
    rw [List.append_assoc, List.cons_append, List.length_cons, ← Nat.add_assoc,
      separated_comma (h p List.mem_cons_self) (by omega), ih, Option.map_map]
    rfl

theorem length_le_withCommas (items : List (Bytes × Json)) :
    items.length ≤ (withCommas items).length := by
  induction items with
  | nil => simp
  | cons p items ih =>
    simp only [withCommas, List.flatMap_cons, List.length_append, List.length_cons] at ih ⊢
    omega

/-- An array is not empty where the first byte behind its bracket begins a value. -/
theorem expect_text {s : Bytes} {j : Json} (h : parse s = some j) (t : Bytes) :
    expect 93 (s ++ t) = none := by
  obtain ⟨_, w, hv, _⟩ := parse_eq_some.mp h
  refine expect_append_none (skipWhite_of_value hv) ?_ t
  cases he : expect 93 s with
  | none => rfl
  | some rest => simp [value_of_expect he] at hv

theorem value_array {s : Bytes} (hs : expect 93 s = none) (n : Nat) :
    value (n + 1) (91 :: s) = (separated (value n) 93 n s).map fun r => (.array r.1, r.2) := by
  rw [value, skipWhite_of_not_white (by decide)]
  simp [hs]

theorem utf8_withCommas {items : List (Bytes × Json)} (h : Texts items) (t : Bytes) :
    utf8 (withCommas items ++ t) = utf8 t := by
  induction items with
  | nil => rfl
  | cons p items ih =>
    have hp := (parse_eq_some.mp (h p List.mem_cons_self)).1
    have ih := ih fun q hq => h q (List.mem_cons_of_mem p hq)
    simp only [withCommas, List.flatMap_cons, List.append_assoc] at ih ⊢
    rw [utf8_append hp, utf8_append_of_ascii (forall_bytes (by decide)), ih]

theorem expect_withCommas {items : List (Bytes × Json)} (h : Texts items) (hne : items ≠ [])
    (t : Bytes) : expect 93 (withCommas items ++ t) = none := by
  cases items with
  | nil => exact absurd rfl hne
  | cons p items =>
    simp only [withCommas, List.flatMap_cons, List.append_assoc]
    exact expect_text (h p List.mem_cons_self) _

/-- Texts between brackets with commas between them are read as the array of their values. -/
theorem parse_array {items : List (Bytes × Json)} (h : Texts items) {s : Bytes} {j : Json}
    (hs : parse s = some j) {w : Bytes} (hw : skipWhite w = []) :
    parse (91 :: (withCommas items ++ (s ++ 93 :: w))) =
      some (.array (items.map Prod.snd ++ [j])) := by
  have hutf8 : utf8 (91 :: (withCommas items ++ (s ++ 93 :: w))) = true := by
    rw [← List.singleton_append, utf8_append_of_ascii (forall_bytes (by decide)),
      utf8_withCommas h, utf8_append (parse_eq_some.mp hs).1, ← List.singleton_append,
      utf8_append_of_ascii (forall_bytes (by decide)), ← List.append_nil w,
      utf8_append_of_ascii (ascii_of_white hw)]
    rfl
  have hopen : expect 93 (withCommas items ++ (s ++ 93 :: w)) = none := by
    by_cases hne : items = []
    · subst hne
      exact expect_text hs _
    · exact expect_withCommas h hne _
  have hle := length_le_withCommas items
  obtain ⟨n, hn⟩ : ∃ n, (91 :: (withCommas items ++ (s ++ 93 :: w))).length =
      n + 1 + items.length := by
    refine ⟨(91 :: (withCommas items ++ (s ++ 93 :: w))).length - 1 - items.length, ?_⟩
    simp only [List.length_cons, List.length_append]
    omega
  rw [parse_eq_some]
  refine ⟨hutf8, w, ?_, hw⟩
  rw [value_array hopen]
  have hlength := hn
  simp only [List.length_cons, List.length_append] at hlength
  rw [hn, separated_texts h (by omega), separated_close hs (by omega)]
  rfl

/-- With a comma behind the last text there is no array. -/
theorem parse_array_comma {items : List (Bytes × Json)} (h : Texts items) (hne : items ≠ [])
    {s rest : Bytes} (hs : expect 93 s = some rest) :
    parse (91 :: (withCommas items ++ s)) = none := by
  have hle := length_le_withCommas items
  have hend := length_expect hs
  obtain ⟨n, hn⟩ : ∃ n, (91 :: (withCommas items ++ s)).length = n + 1 + items.length := by
    refine ⟨(91 :: (withCommas items ++ s)).length - 1 - items.length, ?_⟩
    simp only [List.length_cons, List.length_append]
    omega
  have hvalue : value ((91 :: (withCommas items ++ s)).length + 1)
      (91 :: (withCommas items ++ s)) = none := by
    rw [value_array (expect_withCommas h hne s)]
    have hlength := hn
    simp only [List.length_cons, List.length_append] at hlength
    rw [hn, separated_texts h (by omega), separated, value_of_expect hs]
    rfl
  rw [parse, hvalue]
  split
  · rfl
  · rfl

/-- A comma is no value. -/
theorem value_comma (n : Nat) (s : Bytes) : value n (44 :: s) = none := by
  cases n with
  | zero => rfl
  | succ n =>
    rw [value, skipWhite_of_not_white (by decide)]
    simp [number, sign, isDigit]

/-- Where no value stands behind some texts there is no array. -/
theorem parse_array_none {items : List (Bytes × Json)} (h : Texts items) {s : Bytes}
    (hs : ∀ m, value m s = none) (hopen : items ≠ [] ∨ expect 93 s = none) :
    parse (91 :: (withCommas items ++ s)) = none := by
  have hle := length_le_withCommas items
  have hbracket : expect 93 (withCommas items ++ s) = none := by
    by_cases hne : items = []
    · subst hne
      exact hopen.resolve_left (fun hne => hne rfl)
    · exact expect_withCommas h hne s
  have hvalue : value ((91 :: (withCommas items ++ s)).length + 1)
      (91 :: (withCommas items ++ s)) = none := by
    rw [value_array hbracket]
    obtain ⟨n, hn⟩ : ∃ n, (91 :: (withCommas items ++ s)).length = n + 1 + items.length := by
      refine ⟨(91 :: (withCommas items ++ s)).length - 1 - items.length, ?_⟩
      simp only [List.length_cons, List.length_append]
      omega
    have hlength := hn
    simp only [List.length_cons, List.length_append] at hlength
    rw [hn, separated_texts h (by omega), separated, hs]
    rfl
  rw [parse, hvalue]
  split
  · rfl
  · rfl

end OpcUaTestTool.JsonArrays
