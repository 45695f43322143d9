import OpcUaTestTool.JsonText

/-! Decoding UTF-8 that may be broken: each beginning of a character that is not continued, and each
byte that begins none, is replaced by U+FFFD. The decoded text is given in UTF-8 again. -/
namespace OpcUaTestTool.Utf8Decoder
open Numerals JsonText

def replacement : Bytes := [0xEF, 0xBF, 0xBD]

/-- A byte where a character may begin: what is decoded with it, the ranges of the bytes that are
due behind it, and the bytes kept until then. -/
def lead (b : UInt8) : Bytes × List (UInt8 × UInt8) × Bytes :=
  match continuation b with
  | none => (replacement, [], [])
  | some [] => ([b], [], [])
  | some (r :: due) => ([], r :: due, [b])

/-- Decoding with some bytes due, and the bytes of the unfinished character. -/
def decodeFrom : List (UInt8 × UInt8) → Bytes → Bytes → Bytes
  | [], _, [] => []
  | _ :: _, _, [] => replacement
  | [], _, b :: s => (lead b).1 ++ decodeFrom (lead b).2.1 (lead b).2.2 s
  | r :: due, kept, b :: s =>
    if r.1 ≤ b ∧ b ≤ r.2 then
      if due = [] then kept ++ b :: decodeFrom [] [] s else decodeFrom due (kept ++ [b]) s
    else replacement ++ ((lead b).1 ++ decodeFrom (lead b).2.1 (lead b).2.2 s)

def decode (s : Bytes) : Bytes := decodeFrom [] [] s

theorem lead_ascii {b : UInt8} (h : b < 0x80) : lead b = ([b], [], []) := by
  simp [lead, continuation_ascii h]

/-- ASCII characters stay what they are. -/
theorem decode_append_of_ascii {a : Bytes} (ha : ∀ b ∈ a, b < 0x80) (s : Bytes) :
    decode (a ++ s) = a ++ decode s := by
  induction a with
  | nil => rfl
  | cons b a ih =>
    have ih := ih fun c hc => ha c (List.mem_cons_of_mem b hc)
    rw [decode] at ih ⊢
    rw [List.cons_append, decodeFrom, lead_ascii (ha b List.mem_cons_self), ih]
    rfl

/-- Valid text is decoded as it is. -/
theorem decodeFrom_of_utf8 {due : List (UInt8 × UInt8)} {kept : Bytes}
    (hkept : due = [] → kept = [])
    {s : Bytes} (h : utf8From due s = true) : decodeFrom due kept s = kept ++ s := by
  induction s generalizing due kept with
  | nil =>
    cases due with
    | nil => simp [decodeFrom, hkept rfl]
    | cons r due => cases h
  | cons b s ih =>
    cases due with
    | nil =>
      rw [utf8From] at h
      rw [decodeFrom, hkept rfl]
      cases hc : continuation b with
      | none => simp [hc] at h
      | some due =>
        simp only [hc] at h
        cases due with
        | nil =>
          have ih := ih (fun _ => rfl : ([] : List (UInt8 × UInt8)) = [] → ([] : Bytes) = []) h
          simp only [lead, hc, ih]
          rfl
        | cons r due =>
          have hne : r :: due = [] → [b] = [] := fun h => absurd h (List.cons_ne_nil r due)
          simp only [lead, hc, ih hne h]
          rfl
    | cons r due =>
      rw [utf8From] at h
      rw [decodeFrom]
      split at h
      · rename_i hr
        rw [if_pos hr]
        split
        · rename_i hdue
          subst hdue
          rw [ih (fun _ => rfl) h]
          rfl
        · rename_i hdue
          rw [ih (fun h => absurd h hdue) h, List.append_assoc]
          rfl
      · cases h

theorem decode_of_utf8 {s : Bytes} (h : utf8 s = true) : decode s = s :=
  decodeFrom_of_utf8 (fun _ => rfl) h

theorem decode_of_ascii {s : Bytes} (hs : ∀ c ∈ s, c < 0x80) : decode s = s := by
  have hutf8 := utf8_append_of_ascii hs []
  rw [List.append_nil] at hutf8
  exact decode_of_utf8 (hutf8.trans rfl)

/-- A byte that is no character, before ASCII text, is replaced. -/
theorem decode_lone {b : UInt8} (hb : ¬ b < 0x80) {s : Bytes} (hs : ∀ c ∈ s, c < 0x80) :
    decode (b :: s) = replacement ++ s := by
  have hascii := decode_of_ascii hs
  rw [decode] at hascii ⊢
  rw [decodeFrom]
  cases hc : continuation b with
  | none => simp only [lead, hc, hascii]
  | some due =>
    cases due with
    | nil => exact absurd rfl (continuation_spec hb hc).2.1
    | cons r due =>
      simp only [lead, hc, List.nil_append]
      cases s with
      | nil => rfl
      | cons c s =>
        have hc80 := hs c List.mem_cons_self
        have hr := due_continuation hc r List.mem_cons_self
        have hrange : ¬ (r.1 ≤ c ∧ c ≤ r.2) := by
          rintro ⟨hle, _⟩
          simp only [UInt8.lt_iff_toNat_lt, UInt8.le_iff_toNat_le] at *
          omega
        rw [decodeFrom, if_neg hrange, ← hascii, decodeFrom]

/-! ### The first character beyond ASCII -/

/-- Valid text that begins with some bytes due begins with as many, none of them ASCII. -/
theorem utf8From_split {due : List (UInt8 × UInt8)} (hdue : Due due) {s : Bytes}
    (h : utf8From due s = true) : ∃ d t, s = d ++ t ∧ d.length = due.length ∧
      utf8From due d = true ∧ ∀ c ∈ d, ¬ c < 0x80 := by
  induction due generalizing s with
  | nil => exact ⟨[], s, rfl, rfl, rfl, List.forall_mem_nil _⟩
  | cons r due ih =>
    cases s with
    | nil => cases h
    | cons b s =>
      rw [utf8From] at h
      split at h
      · rename_i hr
        obtain ⟨d, t, rfl, hlength, hd, hbeyond⟩ := ih (List.forall_mem_cons.mp hdue).2 h
        have hb : ¬ b < 0x80 := by
          have := hdue r List.mem_cons_self
          simp only [UInt8.lt_iff_toNat_lt, UInt8.le_iff_toNat_le] at *
          omega
        refine ⟨b :: d, t, rfl, by simp [hlength], ?_, List.forall_mem_cons.mpr ⟨hb, hbeyond⟩⟩
        rw [utf8From, if_pos hr, hd]
      · cases h

/-- Valid text that is not all ASCII has a character of two to four bytes after its ASCII part. -/
theorem exists_character {s : Bytes} (h : utf8 s = true) (hs : ¬ ∀ b ∈ s, b < 0x80) :
    ∃ a c t, s = a ++ (c ++ t) ∧ utf8 c = true ∧ 2 ≤ c.length ∧ c.length ≤ 4 ∧
      ∀ b ∈ c, ¬ b < 0x80 := by
  induction s with
  | nil => exact absurd (List.forall_mem_nil _) hs
  | cons b s ih =>
    by_cases hb : b < 0x80
    · have hone : ∀ c ∈ [b], c < 0x80 := List.forall_mem_singleton.mpr hb
      have hskip := utf8_append_of_ascii hone s
      rw [List.singleton_append, h] at hskip
      obtain ⟨a, c, t, rfl, hc⟩ := ih hskip.symm fun hall =>
        hs (List.forall_mem_cons.mpr ⟨hb, hall⟩)
      exact ⟨b :: a, c, t, rfl, hc⟩
    · rw [utf8, utf8From] at h
      cases hcont : continuation b with
      | none => simp [hcont] at h
      | some due =>
        simp only [hcont] at h
        obtain ⟨hdue, hne, hlength⟩ := continuation_spec hb hcont
        have hpos := List.length_pos_iff.mpr hne
        obtain ⟨d, t, rfl, hd, hutf8, hbeyond⟩ := utf8From_split hdue h
        refine ⟨[], b :: d, t, rfl, ?_, ?_, ?_, List.forall_mem_cons.mpr ⟨hb, hbeyond⟩⟩
        · rw [utf8, utf8From, hcont]
          exact hutf8
        · simp only [List.length_cons]
          omega
        · simp only [List.length_cons]
          omega

end OpcUaTestTool.Utf8Decoder
