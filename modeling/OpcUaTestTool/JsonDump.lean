import OpcUaTestTool.JsonArrays

/-! JSON values written as texts without white space, and read back. How the value of a float is
written is a parameter. -/
namespace OpcUaTestTool.JsonDump
open Numerals JsonValues JsonText JsonArrays

/-! ### Writing -/

def hexDigit (d : UInt8) : UInt8 := if d < 10 then 48 + d else 87 + d

/-- A byte of a string, as it stands in a text. -/
def escape (b : UInt8) : Bytes :=
  if b = 34 ∨ b = 92 then [92, b]
  else if b = 8 then [92, 98]
  else if b = 12 then [92, 102]
  else if b = 10 then [92, 110]
  else if b = 13 then [92, 114]
  else if b = 9 then [92, 116]
  else if b < 32 then [92, 117, 48, 48, hexDigit (b / 16), hexDigit (b % 16)]
  else [b]

def quoted (s : Bytes) : Bytes := 34 :: (s.flatMap escape ++ [34])

/-- Texts with a comma between each two. -/
def commas : List Bytes → Bytes
  | [] => []
  | [s] => s
  | s :: t :: rest => s ++ 44 :: commas (t :: rest)

variable (floatText : ℚ → Bytes)

mutual

/-- `json::dump`, `JSON.stringify` -/
def dump : Json → Bytes
  | .null => text "null"
  | .boolean true => text "true"
  | .boolean false => text "false"
  | .integer n => decimal n
  | .float x => floatText x
  | .string s => quoted s
  | .array elements => 91 :: (commas (dumpElements elements) ++ [93])
  | .object members => 123 :: (commas (dumpMembers members) ++ [125])

def dumpElements : List Json → List Bytes
  | [] => []
  | j :: elements => dump j :: dumpElements elements

def dumpMembers : List (Bytes × Json) → List Bytes
  | [] => []
  | (key, j) :: members => (quoted key ++ 58 :: dump j) :: dumpMembers members

end

theorem dumpElements_eq (elements : List Json) :
    dumpElements floatText elements = elements.map (dump floatText) := by
  induction elements with
  | nil => rw [dumpElements, List.map_nil]
  | cons j elements ih => rw [dumpElements, ih, List.map_cons]

theorem dumpMembers_eq (members : List (Bytes × Json)) :
    dumpMembers floatText members =
      members.map fun m => quoted m.1 ++ 58 :: dump floatText m.2 := by
  induction members with
  | nil => rw [dumpMembers, List.map_nil]
  | cons m members ih =>
    obtain ⟨key, j⟩ := m
    rw [dumpMembers, ih, List.map_cons]

/-- Values a text can stand for: numbers of some kind, strings in UTF-8, members in the order of
their names. -/
inductive Sound (number : Json → Prop) : Json → Prop
  | null : Sound number .null
  | boolean (b : Bool) : Sound number (.boolean b)
  | integer {n : Int} (h : number (.integer n)) : Sound number (.integer n)
  | float {x : ℚ} (h : number (.float x)) : Sound number (.float x)
  | string {s : Bytes} (h : utf8 s = true) : Sound number (.string s)
  | array {elements : List Json} (h : ∀ j ∈ elements, Sound number j) :
      Sound number (.array elements)
  | object {members : List (Bytes × Json)} (order : members.Pairwise fun m m' => m.1 < m'.1)
      (keys : ∀ m ∈ members, utf8 m.1 = true) (h : ∀ m ∈ members, Sound number m.2) :
      Sound number (.object members)

theorem Sound.imp {number number' : Json → Prop} (himp : ∀ j, number j → number' j) {j : Json}
    (h : Sound number j) : Sound number' j := by
  induction h with
  | null => exact .null
  | boolean b => exact .boolean b
  | integer h => exact .integer (himp _ h)
  | float h => exact .float (himp _ h)
  | string h => exact .string h
  | array _ ih => exact .array ih
  | object order keys _ ih => exact .object order keys ih

/-- The text of a float is one of a number, and stands for it. -/
def Reads (x : ℚ) : Prop :=
  (∀ t, Follows t → number (floatText x ++ t) = some (.float x, t)) ∧
    ∀ b ∈ floatText x, b < 0x80

/-- A number that is read back as it is written. Integers always are. -/
def Written : Json → Prop
  | .float x => Reads floatText x
  | _ => True

/-! ### Strings -/

theorem hexValue_hexDigit {d : UInt8} (h : d < 16) : hexValue (hexDigit d) = some d.toNat := by
  have hd : d.toNat < 16 := by simpa [UInt8.lt_iff_toNat_lt] using h
  have hnat : d = UInt8.ofNat d.toNat := (UInt8.ofNat_toNat).symm
  generalize d.toNat = n at hd hnat
  subst hnat
  interval_cases n <;> decide

/-- Four digits for a control character. -/
theorem stringBody_control {b : UInt8} (hb : b < 32) (s : Bytes) :
    stringBody .plain (92 :: 117 :: 48 :: 48 :: hexDigit (b / 16) :: hexDigit (b % 16) :: s) =
      (stringBody .plain s).map fun r => (b :: r.1, r.2) := by
  have hlt : b.toNat < 32 := by simpa [UInt8.lt_iff_toNat_lt] using hb
  have hhigh : hexValue (hexDigit (b / 16)) = some (b.toNat / 16) := by
    rw [hexValue_hexDigit (by simp [UInt8.lt_iff_toNat_lt]; omega)]
    simp
  have hlow : hexValue (hexDigit (b % 16)) = some (b.toNat % 16) := by
    rw [hexValue_hexDigit (by simp [UInt8.lt_iff_toNat_lt]; omega)]
    simp
  have hzero : hexValue 48 = some 0 := by decide
  have hunit : codeUnit (b.toNat / 16 * 16 + b.toNat % 16) none = some (.character b.toNat) := by
    rw [Nat.div_add_mod', codeUnit, if_neg (by omega), if_neg (by omega)]
  have hencode : encodeUtf8 b.toNat = [b] := by
    rw [encodeUtf8, if_pos (by omega), UInt8.ofNat_toNat]
  simp [stringBody, hzero, hhigh, hlow, hunit, hencode]

/-- The escape of a byte stands for the byte. -/
theorem stringBody_escape (b : UInt8) (s : Bytes) :
    stringBody .plain (escape b ++ s) = (stringBody .plain s).map fun r => (b :: r.1, r.2) := by
  unfold escape
  split_ifs with hself h8 h12 h10 h13 h9 hcontrol
  · cases hself with
    | inl h =>
      subst h
      simp [stringBody, simpleEscape]
    | inr h =>
      subst h
      simp [stringBody, simpleEscape]
  · subst h8
    simp [stringBody, simpleEscape]
  · subst h12
    simp [stringBody, simpleEscape]
  · subst h10
    simp [stringBody, simpleEscape]
  · subst h13
    simp [stringBody, simpleEscape]
  · subst h9
    simp [stringBody, simpleEscape]
  · exact stringBody_control hcontrol s
  · have hb : special b = false := by
      simp only [not_or] at hself
      simp [special, hself, hcontrol]
    exact stringBody_append (fun c hc => by rwa [List.mem_singleton.mp hc]) s

theorem stringBody_escapes (s t : Bytes) :
    stringBody .plain (s.flatMap escape ++ 34 :: t) = some (s, t) := by
  induction s with
  | nil => simp [stringBody]
  | cons b s ih =>
    rw [List.flatMap_cons, List.append_assoc, stringBody_escape, ih]
    rfl

theorem escape_of_not_special {b : UInt8} (h : special b = false) : escape b = [b] := by
  have hb : b ≠ 34 ∧ b ≠ 92 ∧ ¬ b < 32 := by simpa [special, and_assoc] using h
  have hcontrol (c : UInt8) (hc : c < 32) : b ≠ c := fun heq => hb.2.2 (heq ▸ hc)
  simp [escape, hb, hcontrol 8 (by decide), hcontrol 12 (by decide), hcontrol 10 (by decide),
    hcontrol 13 (by decide), hcontrol 9 (by decide)]

theorem hexDigit_lt {d : UInt8} (h : d < 16) : hexDigit d < 0x80 := by
  unfold hexDigit
  simp only [UInt8.lt_iff_toNat_lt, UInt8.reduceToNat] at h ⊢
  split_ifs
  · simp only [UInt8.toNat_add, UInt8.reduceToNat]
    omega
  · simp only [UInt8.toNat_add, UInt8.reduceToNat]
    omega

/-- The escape of an ASCII character is ASCII. -/
theorem escape_ascii {b : UInt8} (hb : b < 0x80) : ∀ c ∈ escape b, c < 0x80 := by
  have hpair {c : UInt8} (hc : c < 0x80) : ∀ d ∈ ([92, c] : Bytes), d < 0x80 := by
    intro d hd
    rw [List.mem_pair] at hd
    cases hd with
    | inl h => exact h ▸ by decide
    | inr h => exact h ▸ hc
  unfold escape
  split_ifs
  · exact hpair hb
  · exact hpair (by decide)
  · exact hpair (by decide)
  · exact hpair (by decide)
  · exact hpair (by decide)
  · exact hpair (by decide)
  · have hhigh : hexDigit (b / 16) < 0x80 := hexDigit_lt (by
      simp only [UInt8.lt_iff_toNat_lt, UInt8.toNat_div, UInt8.reduceToNat] at hb ⊢
      omega)
    have hlow : hexDigit (b % 16) < 0x80 := hexDigit_lt (by
      simp only [UInt8.lt_iff_toNat_lt, UInt8.toNat_mod, UInt8.reduceToNat]
      omega)
    simp [hhigh, hlow]
  · simpa using hb

/-- Escaping leaves the bytes beyond ASCII in place. -/
theorem utf8From_escapes (s t : Bytes) {due : List (UInt8 × UInt8)} (hdue : Due due) :
    utf8From due (s.flatMap escape ++ t) = utf8From due (s ++ t) := by
  induction s generalizing due with
  | nil => rfl
  | cons b s ih =>
    rw [List.flatMap_cons, List.append_assoc]
    by_cases hb : b < 0x80
    · cases due with
      | nil =>
        have hcons : (b :: s) ++ t = [b] ++ (s ++ t) := rfl
        have hsingle : ∀ c ∈ [b], c < 0x80 := fun c hc => by rwa [List.mem_singleton.mp hc]
        have hleft := utf8_append_of_ascii (escape_ascii hb) (s.flatMap escape ++ t)
        have hright := utf8_append_of_ascii hsingle (s ++ t)
        rw [utf8] at hleft hright
        rw [hleft, hcons, hright]
        exact ih due_nil
      | cons r due =>
        have hr := hdue r List.mem_cons_self
        cases he : escape b with
        | nil =>
          unfold escape at he
          split_ifs at he
        | cons c e =>
          have hc : c < 0x80 := escape_ascii hb c (he ▸ List.mem_cons_self)
          rw [List.cons_append, List.cons_append, utf8From_ascii_of_due hr hc,
            utf8From_ascii_of_due hr hb]
    · have hspecial : special b = false := by
        simp only [special, Bool.or_eq_false_iff, decide_eq_false_iff_not,
          UInt8.lt_iff_toNat_lt, ← UInt8.toNat_inj, UInt8.reduceToNat] at hb ⊢
        omega
      rw [escape_of_not_special hspecial]
      cases due with
      | nil =>
        rw [List.cons_append, List.cons_append, List.nil_append, utf8From, utf8From]
        cases hc : continuation b with
        | none => rfl
        | some due => exact ih (due_continuation hc)
      | cons r due =>
        rw [List.cons_append, List.cons_append, List.nil_append, utf8From, utf8From,
          ih fun r' hr' => hdue r' (List.mem_cons_of_mem r hr')]

/-- A string in UTF-8 stays so between quotes. -/
theorem utf8_quoted {s : Bytes} (hs : utf8 s = true) (t : Bytes) :
    utf8 (quoted s ++ t) = utf8 t := by
  have hquote (u : Bytes) : utf8 (34 :: u) = utf8 u := by
    rw [← List.singleton_append, utf8_append_of_ascii (forall_bytes (by decide))]
  rw [quoted, List.cons_append, hquote, List.append_assoc, utf8, utf8From_escapes s _ due_nil,
    ← utf8, utf8_append hs, List.singleton_append, hquote]

/-! ### Numbers -/

theorem head_decimalNat {n : Nat} (hn : n ≠ 0) : (decimalNat n).head? ≠ some 48 := by
  intro h
  rw [decimalNat, if_neg hn, List.head?_reverse, List.getLast?_map, Option.map_eq_some_iff] at h
  obtain ⟨d, hd, hdigit⟩ := h
  have hmem := List.mem_of_getLast? hd
  have hlt : d < 10 := Nat.digits_lt_base (by omega) hmem
  have hzero : d = 0 := by
    have := toNat_digit hlt
    rw [hdigit] at this
    simp at this
    omega
  have hne : Nat.digits 10 n ≠ [] := Nat.digits_ne_nil_iff_ne_zero.mpr hn
  have hlast := Nat.getLast_digit_ne_zero 10 hn
  rw [List.getLast?_eq_some_getLast hne, Option.some.injEq] at hd
  exact hlast (hd.trans hzero)

theorem sign_decimal (n : Int) : sign (decimal n) = (decide (n < 0), decimalNat n.natAbs) := by
  cases n with
  | negSucc n => simp [decimal, sign]
  | ofNat n =>
    cases h : decimalNat n with
    | nil => exact absurd h (decimalNat_ne_nil n)
    | cons b bs =>
      have hb := isDigit_of_mem_decimalNat (n := n) (b := b) (by simp [h])
      have h45 : b ≠ 45 := by
        rintro rfl
        revert hb
        decide
      simp [decimal, h, sign, h45]

theorem number_decimal (n : Int) {t : Bytes} (ht : Follows t) :
    number (decimal n ++ t) = some (.integer n, t) := by
  have hall : ∀ b ∈ decimalNat n.natAbs, isDigit b = true :=
    fun b hb => isDigit_of_mem_decimalNat hb
  have hdigits : (decimalNat n.natAbs).takeWhile isDigit = decimalNat n.natAbs :=
    List.takeWhile_eq_self_iff.mpr hall
  have hrest : (decimalNat n.natAbs).dropWhile isDigit = [] := List.dropWhile_eq_nil_iff.mpr hall
  have hlead : ¬ (decimalNat n.natAbs = [] ∨
      (decimalNat n.natAbs).head? = some 48 ∧ decimalNat n.natAbs ≠ [48]) := by
    rintro (hnil | ⟨hhead, hne⟩)
    · exact decimalNat_ne_nil _ hnil
    · by_cases hn : n.natAbs = 0
      · exact hne (by rw [hn]; rfl)
      · exact head_decimalNat hn hhead
  have hsigned : (if n < 0 then -(n.natAbs : Int) else (n.natAbs : Int)) = n := by
    split <;> omega
  have hwhole : number (decimal n) = some (.integer n, []) := by
    simp only [number, sign_decimal, hdigits, hrest, if_neg hlead, fraction, exponent, numberValue,
      digitsValue_decimalNat, decide_eq_true_eq, hsigned, and_self, if_true]
  exact number_follows ht hwhole

/-! ### Values -/

/-- A text of a number is read as one. -/
theorem value_number {s : Bytes} {r : Json × Bytes} (h : number s = some r) (n : Nat) :
    value (n + 1) s = some r := by
  cases s with
  | nil => simp [number, sign] at h
  | cons b s =>
    have hb : b = 45 ∨ isDigit b = true := by
      by_cases h45 : b = 45
      · exact Or.inl h45
      · cases hdigit : isDigit b with
        | true => exact Or.inr rfl
        | false => simp [number, sign, h45, hdigit] at h
    have hne (c : UInt8) (h45 : c ≠ 45) (hc : isDigit c = false) : b ≠ c := by
      rintro rfl
      cases hb with
      | inl hb => exact h45 hb
      | inr hb => simp [hc] at hb
    have hwhite : isWhite b = false := by
      simp [isWhite, hne 32 (by decide) (by decide), hne 9 (by decide) (by decide),
        hne 10 (by decide) (by decide), hne 13 (by decide) (by decide)]
    simp only [value, skipWhite_of_not_white hwhite, if_neg (hne 34 (by decide) (by decide)),
      if_neg (hne 123 (by decide) (by decide)), if_neg (hne 91 (by decide) (by decide)),
      if_neg (hne 116 (by decide) (by decide)), if_neg (hne 102 (by decide) (by decide)),
      if_neg (hne 110 (by decide) (by decide)), h]

theorem value_quoted (n : Nat) (s t : Bytes) :
    value (n + 1) (quoted s ++ t) = some (.string s, t) := by
  rw [quoted, List.cons_append, value_string, List.append_assoc, List.singleton_append,
    stringBody_escapes]
  rfl

theorem value_null (n : Nat) (t : Bytes) : value (n + 1) (text "null" ++ t) = some (.null, t) := by
  change value (n + 1) (110 :: 117 :: 108 :: 108 :: t) = _
  rw [value, skipWhite_of_not_white (by decide)]
  simp [literal, text, List.isPrefixOf?]

theorem value_boolean (n : Nat) (b : Bool) (t : Bytes) :
    value (n + 1) (dump floatText (.boolean b) ++ t) = some (.boolean b, t) := by
  cases b with
  | true =>
    change value (n + 1) (116 :: 114 :: 117 :: 101 :: t) = _
    rw [value, skipWhite_of_not_white (by decide)]
    simp [literal, text, List.isPrefixOf?]
  | false =>
    change value (n + 1) (102 :: 97 :: 108 :: 115 :: 101 :: t) = _
    rw [value, skipWhite_of_not_white (by decide)]
    simp [literal, text, List.isPrefixOf?]

theorem length_commas (texts : List Bytes) : texts.length ≤ (commas texts).length + 1 := by
  induction texts with
  | nil => simp
  | cons s texts ih =>
    cases texts with
    | nil => simp
    | cons t rest =>
      simp only [commas, List.length_append, List.length_cons] at ih ⊢
      omega

theorem length_le_commas {s : Bytes} {texts : List Bytes} (h : s ∈ texts) :
    s.length ≤ (commas texts).length := by
  induction texts with
  | nil => cases h
  | cons u texts ih =>
    cases texts with
    | nil => simp_all [commas]
    | cons v rest =>
      simp only [commas, List.length_append, List.length_cons]
      cases List.mem_cons.mp h with
      | inl h =>
        subst h
        omega
      | inr h =>
        have := ih h
        omega

section
variable {α : Type} {item : Bytes → Option (α × Bytes)} {close : UInt8}

/-- Items that are read whatever follows are read between commas. -/
theorem separated_commas (hfollow : close ∈ followers) (hwhite : isWhite close = false)
    (h44 : close ≠ 44) (f : α → Bytes) {as : List α} (hne : as ≠ [])
    (has : ∀ a ∈ as, ∀ t, Follows t → item (f a ++ t) = some (a, t)) {n : Nat}
    (hn : as.length ≤ n) (t : Bytes) :
    separated item close n (commas (as.map f) ++ close :: t) = some (as, t) := by
  induction as generalizing n with
  | nil => exact absurd rfl hne
  | cons a as ih =>
    obtain ⟨n, rfl⟩ : ∃ m, n = m + 1 := ⟨n - 1, by simp only [List.length_cons] at hn; omega⟩
    cases as with
    | nil =>
      have ha := has a List.mem_cons_self (close :: t) (follows_cons hfollow t)
      have hcomma : expect 44 (close :: t) = none := expect_ne hwhite h44 t
      simp only [List.map_cons, List.map_nil, commas, separated, ha, hcomma, expect_self hwhite,
        Option.map_some]
    | cons b as =>
      have ha := has a List.mem_cons_self
        (44 :: (commas ((b :: as).map f) ++ close :: t)) (follows_cons (by decide) _)
      have hrest := ih (by simp) (fun c hc => has c (List.mem_cons_of_mem a hc))
        (n := n) (by simp only [List.length_cons] at hn ⊢; omega)
      have htexts : commas ((a :: b :: as).map f) ++ close :: t =
          f a ++ 44 :: (commas ((b :: as).map f) ++ close :: t) := by
        simp [commas]
      rw [htexts, separated_cons ha, hrest]
      rfl

end

theorem member_quoted {item : Bytes → Option (Json × Bytes)} (key s : Bytes) :
    member item (quoted key ++ 58 :: s) = (item s).map fun r => ((key, r.1), r.2) := by
  have hname : stringBody .plain (key.flatMap escape ++ 34 :: 58 :: s) = some (key, 58 :: s) :=
    stringBody_escapes key (58 :: s)
  rw [quoted, List.cons_append, List.append_assoc, List.singleton_append]
  simp only [member, expect_self (by decide : isWhite 34 = false), hname, bind, Option.bind_some,
    expect_self (by decide : isWhite 58 = false)]
  cases item s with
  | none => rfl
  | some r => rfl

/-! ### Members in order -/

theorem setMember_of_lt {key : Bytes} (v : Json) {members : List (Bytes × Json)}
    (h : ∀ m ∈ members, m.1 < key) : setMember key v members = members ++ [(key, v)] := by
  induction members with
  | nil => rfl
  | cons m members ih =>
    have hm := h m List.mem_cons_self
    have hne : key ≠ m.1 := by
      rintro rfl
      exact List.lt_irrefl _ hm
    have hlt : ¬ key < m.1 := List.lt_asymm hm
    rw [setMember, if_neg hne, if_neg hlt, ih fun m' hm' => h m' (List.mem_cons_of_mem m hm')]
    rfl

theorem foldl_setMember {members acc : List (Bytes × Json)}
    (h : (acc ++ members).Pairwise fun m m' => m.1 < m'.1) :
    members.foldl (fun members p => setMember p.1 p.2 members) acc = acc ++ members := by
  induction members generalizing acc with
  | nil => simp
  | cons m members ih =>
    have hacc : ∀ m' ∈ acc, m'.1 < m.1 := fun m' hm' =>
      (List.pairwise_append.mp h).2.2 m' hm' m List.mem_cons_self
    rw [List.foldl_cons, setMember_of_lt m.2 hacc, ih (by simpa using h)]
    simp

theorem ofPairs_of_order {members : List (Bytes × Json)}
    (h : members.Pairwise fun m m' => m.1 < m'.1) : ofPairs members = members := by
  have hfold : members.foldl (fun members p => setMember p.1 p.2 members) [] = [] ++ members :=
    foldl_setMember (by simpa using h)
  rw [ofPairs, hfold, List.nil_append]

/-! ### The round trip -/

/-- The elements of an array, each read back. -/
theorem value_array_dump {elements : List Json} {n : Nat}
    (hitems : ∀ j ∈ elements, ∀ t, Follows t →
      value n (dump floatText j ++ t) = some (j, t)) (hn : elements.length ≤ n) (t : Bytes) :
    value (n + 1) (dump floatText (.array elements) ++ t) = some (.array elements, t) := by
  rw [dump, dumpElements_eq, List.cons_append, List.append_assoc, List.singleton_append]
  by_cases hne : elements = []
  · subst hne
    rw [value, skipWhite_of_not_white (by decide)]
    simp [commas, expect_self (by decide : isWhite 93 = false)]
  · have hread : separated (value n) 93 n (commas (elements.map (dump floatText)) ++ 93 :: t) =
        some (elements, t) :=
      separated_commas (by decide) (by decide) (by decide) (dump floatText) hne hitems hn t
    have hopen : expect 93 (commas (elements.map (dump floatText)) ++ 93 :: t) = none := by
      cases he : expect 93 (commas (elements.map (dump floatText)) ++ 93 :: t) with
      | none => rfl
      | some rest =>
        cases n with
        | zero => cases hread
        | succ n =>
          rw [separated, value_of_expect he] at hread
          cases hread
    rw [value_array hopen, hread]
    rfl

/-- The members of an object, each read back. -/
theorem value_object_dump {members : List (Bytes × Json)}
    (order : members.Pairwise fun m m' => m.1 < m'.1) {n : Nat}
    (hitems : ∀ m ∈ members, ∀ t, Follows t →
      value n (dump floatText m.2 ++ t) = some (m.2, t)) (hn : members.length ≤ n) (t : Bytes) :
    value (n + 1) (dump floatText (.object members) ++ t) = some (.object members, t) := by
  rw [dump, dumpMembers_eq, List.cons_append, List.append_assoc, List.singleton_append]
  by_cases hne : members = []
  · subst hne
    rw [value, skipWhite_of_not_white (by decide)]
    simp [commas, expect_self (by decide : isWhite 125 = false)]
  · have hmembers : ∀ m ∈ members, ∀ t, Follows t → member (value n)
        (quoted m.1 ++ 58 :: dump floatText m.2 ++ t) = some (m, t) := by
      intro m hm t ht
      rw [List.append_assoc, List.cons_append, member_quoted, hitems m hm t ht]
      rfl
    have hread : separated (member (value n)) 125 n (commas (members.map fun m =>
        quoted m.1 ++ 58 :: dump floatText m.2) ++ 125 :: t) = some (members, t) :=
      separated_commas (by decide) (by decide) (by decide) _ hne hmembers hn t
    have hopen : expect 125 (commas (members.map fun m =>
        quoted m.1 ++ 58 :: dump floatText m.2) ++ 125 :: t) = none := by
      have hfirst (key s : Bytes) : expect 125 (quoted key ++ s) = none := by
        rw [quoted, List.cons_append]
        exact expect_ne (by decide) (by decide) _
      cases members with
      | nil => exact absurd rfl hne
      | cons m members =>
        cases members with
        | nil =>
          rw [List.map_cons, List.map_nil, commas, List.append_assoc]
          exact hfirst _ _
        | cons m' members =>
          rw [List.map_cons, List.map_cons, commas, List.append_assoc, List.append_assoc]
          exact hfirst _ _
    rw [value_object _ hopen, hread, Option.map_some, ofPairs_of_order order]

/-- What is written of a value is read as the value, whatever follows. -/
theorem value_dump {j : Json} (hj : Sound (Written floatText) j) {n : Nat}
    (hn : (dump floatText j).length < n) {t : Bytes} (ht : Follows t) :
    value n (dump floatText j ++ t) = some (j, t) := by
  obtain ⟨n, rfl⟩ : ∃ m, n = m + 1 := ⟨n - 1, by omega⟩
  induction hj generalizing n t with
  | null => exact value_null n t
  | boolean b => exact value_boolean floatText n b t
  | integer _ => exact value_number (number_decimal _ ht) n
  | float h => exact value_number (h.1 t ht) n
  | string h => exact value_quoted n _ t
  | @array elements h ih =>
    have hlength := length_commas (elements.map (dump floatText))
    simp only [dump, dumpElements_eq, List.length_cons, List.length_append, List.length_map,
      List.length_nil] at hn hlength
    apply value_array_dump
    · intro j hj u hu
      have hle := length_le_commas (List.mem_map_of_mem (f := dump floatText) hj)
      obtain ⟨k, rfl⟩ : ∃ k, n = k + 1 := ⟨n - 1, by omega⟩
      exact ih j hj hu k (by omega)
    · omega
  | @object members order keys h ih =>
    have hlength := length_commas (members.map fun m => quoted m.1 ++ 58 :: dump floatText m.2)
    simp only [dump, dumpMembers_eq, List.length_cons, List.length_append, List.length_map,
      List.length_nil] at hn hlength
    apply value_object_dump floatText order
    · intro m hm u hu
      have hle := length_le_commas (List.mem_map_of_mem
        (f := fun m : Bytes × Json => quoted m.1 ++ 58 :: dump floatText m.2) hm)
      simp only [List.length_append, List.length_cons] at hle
      obtain ⟨k, rfl⟩ : ∃ k, n = k + 1 := ⟨n - 1, by omega⟩
      exact ih m hm hu k (by omega)
    · omega

theorem utf8_cons_ascii {b : UInt8} (hb : b < 0x80) (s : Bytes) : utf8 (b :: s) = utf8 s := by
  have hsingle : ∀ c ∈ [b], c < 0x80 := fun c hc => by rwa [List.mem_singleton.mp hc]
  exact utf8_append_of_ascii hsingle s

theorem utf8_ascii {s : Bytes} (hs : ∀ b ∈ s, b < 0x80) : utf8 s = true := by
  have h := utf8_append_of_ascii hs []
  rw [List.append_nil] at h
  rw [h]
  rfl

theorem utf8_commas {texts : List Bytes} (h : ∀ s ∈ texts, utf8 s = true) (t : Bytes) :
    utf8 (commas texts ++ t) = utf8 t := by
  induction texts with
  | nil => rfl
  | cons s texts ih =>
    have hs := h s List.mem_cons_self
    have ih := ih fun u hu => h u (List.mem_cons_of_mem s hu)
    cases texts with
    | nil => exact utf8_append hs t
    | cons u rest =>
      rw [commas, List.append_assoc, utf8_append hs, List.cons_append,
        utf8_cons_ascii (by decide), ih]

theorem decimal_ascii (n : Int) : ∀ b ∈ decimal n, b < 0x80 := by
  have hdigits (m : Nat) : ∀ b ∈ decimalNat m, b < 0x80 := by
    intro b hb
    have hdigit := isDigit_of_mem_decimalNat hb
    simp only [isDigit, Bool.and_eq_true, decide_eq_true_eq] at hdigit
    simp only [UInt8.lt_iff_toNat_lt, UInt8.reduceToNat]
    omega
  intro b hb
  cases n with
  | ofNat m => exact hdigits m b hb
  | negSucc m =>
    cases List.mem_cons.mp hb with
    | inl h => exact h ▸ by decide
    | inr h => exact hdigits (m + 1) b h

/-- A text is in UTF-8 if the strings of its value are. -/
theorem utf8_dump {j : Json} (hj : Sound (Written floatText) j) :
    utf8 (dump floatText j) = true := by
  induction hj with
  | null => rfl
  | boolean b =>
    cases b with
    | true => rfl
    | false => rfl
  | integer _ => exact utf8_ascii (decimal_ascii _)
  | float h => exact utf8_ascii h.2
  | string h =>
    have hquoted := utf8_quoted h []
    rw [List.append_nil] at hquoted
    rw [dump, hquoted]
    rfl
  | @array elements h ih =>
    have htexts : ∀ s ∈ elements.map (dump floatText), utf8 s = true := by
      intro s hs
      obtain ⟨j, hj, rfl⟩ := List.mem_map.mp hs
      exact ih j hj
    rw [dump, dumpElements_eq, utf8_cons_ascii (by decide), utf8_commas htexts]
    rfl
  | @object members order keys h ih =>
    have htexts : ∀ s ∈ members.map fun m => quoted m.1 ++ 58 :: dump floatText m.2,
        utf8 s = true := by
      intro s hs
      obtain ⟨m, hm, rfl⟩ := List.mem_map.mp hs
      rw [utf8_quoted (keys m hm), utf8_cons_ascii (by decide)]
      exact ih m hm
    rw [dump, dumpMembers_eq, utf8_cons_ascii (by decide), utf8_commas htexts]
    rfl

/-- Writing a value and reading the text gives the value. -/
theorem parse_dump {j : Json} (hj : Sound (Written floatText) j) :
    parse (dump floatText j) = some j := by
  have hv := value_dump floatText hj (Nat.lt_succ_self _) (t := []) (by simp [Follows])
  rw [List.append_nil] at hv
  exact parse_eq_some.mpr ⟨utf8_dump floatText hj, [], hv, rfl⟩

end OpcUaTestTool.JsonDump
