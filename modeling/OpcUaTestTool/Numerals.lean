import Mathlib.Data.List.TakeWhile
import Mathlib.Data.Nat.Digits.Lemmas
import Mathlib.Tactic.Linarith

/-! Byte strings, two's complement `int`, and the decimal numerals that
`std::to_string` writes and `std::stoi` reads. -/
namespace OpcUaTestTool.Numerals

/-- A `std::string`. -/
abbrev Bytes := List UInt8

/-- The bytes of an ASCII literal. -/
def text (s : String) : Bytes := s.toList.map fun c => UInt8.ofNat c.toNat

/-- A property of every byte of a literal, by evaluation. -/
theorem forall_bytes {p : UInt8 → Prop} [DecidablePred p] {s : Bytes}
    (h : s.all (fun b => decide (p b)) = true) : ∀ b ∈ s, p b := by
  simpa only [List.all_eq_true, decide_eq_true_eq] using h

def InInt (x : Int) : Prop := -2147483648 ≤ x ∧ x < 2147483648

instance (x : Int) : Decidable (InInt x) := inferInstanceAs (Decidable (_ ∧ _))

/-- Reduction to a 32-bit `int`, as two's complement arithmetic does it. -/
def int32 (x : Int) : Int := x.bmod 4294967296

theorem int32_inInt (x : Int) : InInt (int32 x) := by
  unfold int32 InInt
  constructor
  · have := Int.le_bmod (x := x) (m := 4294967296) (by omega)
    omega
  · have := Int.bmod_lt (x := x) (m := 4294967296) (by omega)
    omega

theorem int32_eq_self {x : Int} (h : InInt x) : int32 x = x := by
  unfold int32 InInt at *
  rw [Int.bmod_eq_of_le] <;> omega

theorem int32_add (x y : Int) : int32 (int32 x + y) = int32 (x + y) := by
  unfold int32
  exact Int.bmod_add_bmod

theorem int32_eq_int32_iff (x y : Int) : int32 x = int32 y ↔ (4294967296 : Int) ∣ x - y := by
  unfold int32
  rw [Int.bmod_eq_bmod_iff_bmod_sub_eq_zero]
  exact Int.dvd_iff_bmod_eq_zero.symm

/-- Below 2^32, wrapped counters agree only where the counters do. -/
theorem int32_inj_of_lt {a b : Nat} (ha : a < 4294967296) (hb : b < 4294967296)
    (h : int32 a = int32 b) : a = b := by
  rw [int32_eq_int32_iff] at h
  obtain ⟨k, hk⟩ := h
  omega

def isDigit (b : UInt8) : Bool := 48 ≤ b.toNat && b.toNat ≤ 57

def digit (d : Nat) : UInt8 := UInt8.ofNat (48 + d)

theorem toNat_digit {d : Nat} (h : d < 10) : (digit d).toNat = 48 + d := by
  simp [digit]
  omega

theorem isDigit_digit {d : Nat} (h : d < 10) : isDigit (digit d) = true := by
  simp [isDigit, toNat_digit h]
  omega

def decimalNat (n : Nat) : Bytes :=
  if n = 0 then [48] else ((Nat.digits 10 n).map digit).reverse

/-- `std::to_string(int)` -/
def decimal : Int → Bytes
  | .ofNat n => decimalNat n
  | .negSucc n => 45 :: decimalNat (n + 1)

/-- The value of a string of digits, most significant first. -/
def digitsValue (ds : Bytes) : Nat := Nat.ofDigits 10 (ds.reverse.map fun b => b.toNat - 48)

theorem digitsValue_decimalNat (n : Nat) : digitsValue (decimalNat n) = n := by
  by_cases hn : n = 0
  · subst hn
    decide
  · have hmap : ((Nat.digits 10 n).map digit).map (fun b => b.toNat - 48) = Nat.digits 10 n := by
      rw [List.map_map]
      conv_rhs => rw [← List.map_id (Nat.digits 10 n)]
      apply List.map_congr_left
      intro d hd
      have h10 : d < 10 := Nat.digits_lt_base (by omega) hd
      simp [toNat_digit h10]
    simp only [digitsValue, decimalNat, if_neg hn, List.reverse_reverse, hmap]
    exact Nat.ofDigits_digits 10 n

theorem isDigit_of_mem_decimalNat {n : Nat} {b : UInt8} (h : b ∈ decimalNat n) :
    isDigit b = true := by
  by_cases hn : n = 0
  · subst hn
    simp only [decimalNat, if_true, List.mem_singleton] at h
    subst h
    decide
  · simp only [decimalNat, if_neg hn, List.mem_reverse, List.mem_map] at h
    obtain ⟨d, hd, rfl⟩ := h
    exact isDigit_digit (Nat.digits_lt_base (by omega) hd)

theorem decimalNat_ne_nil (n : Nat) : decimalNat n ≠ [] := by
  by_cases hn : n = 0
  · simp [decimalNat, hn]
  · simp [decimalNat, hn, Nat.digits_eq_nil_iff_eq_zero]

theorem decimalNat_injective : Function.Injective decimalNat :=
  Function.LeftInverse.injective digitsValue_decimalNat

theorem decimal_injective : Function.Injective decimal := by
  have hminus (m n : Nat) : 45 :: decimalNat m ≠ decimalNat n := by
    intro h
    have := isDigit_of_mem_decimalNat (n := n) (b := 45) (by simp [← h])
    revert this
    decide
  intro m n h
  cases m with
  | ofNat m =>
    cases n with
    | ofNat n => exact congrArg Int.ofNat (decimalNat_injective h)
    | negSucc n => exact absurd h.symm (hminus _ _)
  | negSucc m =>
    cases n with
    | ofNat n => exact absurd h (hminus _ _)
    | negSucc n =>
      have := decimalNat_injective (List.cons.inj h).2
      exact congrArg Int.negSucc (by omega)

theorem decimal_range_nodup (n : Nat) : ((List.range n).map fun i : Nat => decimal i).Nodup := by
  apply List.Nodup.map _ List.nodup_range
  intro i j h
  exact Int.ofNat.inj (decimal_injective h)

/-- `isspace` in the C locale -/
def isSpace (b : UInt8) : Bool := b = 32 || (9 ≤ b.toNat && b.toNat ≤ 13)

/-- The sign `strtol` accepts before the digits. -/
def splitSign : Bytes → Bool × Bytes
  | [] => (false, [])
  | b :: bs => if b = 45 then (true, bs) else if b = 43 then (false, bs) else (false, b :: bs)

/-- `std::stoi`: the value of the leading numeral, or `none` where it throws
`invalid_argument` (no digit) or `out_of_range`. -/
def stoi (s : Bytes) : Option Int :=
  let (negative, rest) := splitSign (s.dropWhile isSpace)
  let ds := rest.takeWhile isDigit
  let value : Int := if negative then -(digitsValue ds : Int) else digitsValue ds
  if ds = [] then none
  else if InInt value then some value
  else none

theorem splitSign_decimal (n : Int) :
    splitSign ((decimal n).dropWhile isSpace) = (decide (n < 0), decimalNat n.natAbs) := by
  cases n with
  | negSucc n => simp [decimal, splitSign, isSpace]
  | ofNat n =>
    cases h : decimalNat n with
    | nil => exact absurd h (decimalNat_ne_nil n)
    | cons b bs =>
      have hb := isDigit_of_mem_decimalNat (n := n) (b := b) (by simp [h])
      simp only [isDigit, Bool.and_eq_true, decide_eq_true_eq] at hb
      have hspace : isSpace b = false := by
        simp only [isSpace, Bool.or_eq_false_iff, decide_eq_false_iff_not]
        refine ⟨?_, ?_⟩
        · rintro rfl
          simp at hb
        · simp only [Bool.and_eq_false_iff, decide_eq_false_iff_not]
          omega
      have h45 : b ≠ 45 := by
        rintro rfl
        simp at hb
      have h43 : b ≠ 43 := by
        rintro rfl
        simp at hb
      simp [decimal, h, splitSign, hspace, h45, h43]

/-- Reading back a numeral gives the number: `std::stoi(std::to_string(n)) == n`. -/
theorem stoi_decimal {n : Int} (h : InInt n) : stoi (decimal n) = some n := by
  have hds : (decimalNat n.natAbs).takeWhile isDigit = decimalNat n.natAbs := by
    rw [List.takeWhile_eq_self_iff]
    exact fun b hb => isDigit_of_mem_decimalNat hb
  have hvalue : (if n < 0 then -(n.natAbs : Int) else (n.natAbs : Int)) = n := by
    split <;> omega
  simp only [stoi, splitSign_decimal, hds, digitsValue_decimalNat, decide_eq_true_eq, hvalue]
  rw [if_neg (decimalNat_ne_nil _), if_pos h]

theorem stoi_inInt {s : Bytes} {n : Int} (h : stoi s = some n) : InInt n := by
  simp only [stoi] at h
  split_ifs at h <;> simp_all

end OpcUaTestTool.Numerals
