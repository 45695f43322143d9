import OpcUaTestTool.JsonBrackets

/-! The JSON library that the program is built with. Its functions are not part of the program; what
the program relies on is stated about them here, and every result on the service is one for all
libraries of which this is true. -/
namespace OpcUaTestTool.JsonLibrary
open Numerals JsonValues JsonText JsonArrays JsonDump JsonSound JsonBrackets

/-- The numbers of a value: integers of 64 bits, with or without a sign, and doubles. -/
def Number (double : ℚ → Prop) : Json → Prop
  | .integer n => -2 ^ 63 ≤ n ∧ n < 2 ^ 64
  | .float x => double x
  | _ => True

/-- A text that does not begin with a byte order mark, which is passed over, and has no zero byte,
which ends it. -/
def Plain (s : Bytes) : Prop := 0 ∉ s ∧ s.head? ≠ some 239

/- Reading, writing and conversion, and which rational numbers are values of `double`. -/
structure Library where
  /-- `json::parse`; `none` where it throws. -/
  parse : Bytes → Option Json
  /-- `dump()` and `operator<<` -/
  dump : Json → Bytes
  /-- `get<int>()` -/
  getInt : Json → Option Int
  double : ℚ → Prop
  /-- Only texts of the grammar are read. -/
  parse_strict : ∀ {s : Bytes} {j : Json}, Plain s → parse s = some j →
    ∃ v, JsonText.parse s = some v
  /-- What is read is a value with numbers of these types. -/
  parse_sound : ∀ {s : Bytes} {j : Json}, parse s = some j → Sound (Number double) j
  /-- Line feeds around a text do not matter. -/
  parse_feed : ∀ {s : Bytes} {j : Json}, Plain s → parse s = some j →
    parse (10 :: s) = some j ∧ parse (s ++ [10]) = some j
  /-- Texts with commas between them, in brackets, are read as the array of their values. -/
  parse_array : ∀ {items : List (Bytes × Json)} {s : Bytes} {j : Json},
    (∀ p ∈ items, Plain p.1 ∧ parse p.1 = some p.2) → Plain s → parse s = some j →
      parse (91 :: (withCommas items ++ (s ++ [93, 10]))) =
        some (.array (items.map Prod.snd ++ [j]))
  parse_empty : parse (text "[\n]\n") = some (.array [])
  /-- A value that is written is read again. -/
  parse_dump : ∀ {j : Json}, Sound (Number double) j → parse (dump j) = some j
  /-- In what is written, zero bytes are escaped, and the first byte is one of a value. -/
  dump_plain : ∀ {j : Json}, Sound (Number double) j → Plain (dump j)
  /-- An object is written in braces. -/
  dump_object : ∀ {members : List (Bytes × Json)}, Sound (Number double) (.object members) →
    ∃ body, dump (.object members) = 123 :: (body ++ [125])
  getInt_integer : ∀ {n : Int}, InInt n → getInt (.integer n) = some n
  getInt_fits : ∀ {j : Json} {n : Int}, getInt j = some n → InInt n
  double_zero : double 0

/-- The values of a library. -/
abbrev Library.Value (L : Library) : Json → Prop := Sound (Number L.double)

section
variable (L : Library)

theorem Library.value_int {n : Int} (h : InInt n) : L.Value (.integer n) :=
  .integer (by obtain ⟨hlo, hhi⟩ := h; constructor <;> omega)

theorem Library.parse_none {s : Bytes} (hs : Plain s) (h : JsonText.parse s = none) :
    L.parse s = none := by
  cases hj : L.parse s with
  | none => rfl
  | some j =>
    obtain ⟨v, hv⟩ := L.parse_strict hs hj
    rw [h] at hv
    cases hv

theorem Plain.of_piece {s p : Bytes} (h : Plain s) (hp : p <+: s) : Plain p := by
  refine ⟨fun h0 => h.1 (hp.mem h0), ?_⟩
  cases p with
  | nil => simp
  | cons b p =>
    obtain ⟨rest, rfl⟩ := hp
    exact h.2

theorem plain_nil : Plain [] := ⟨List.not_mem_nil, by simp⟩

/- A complete text of an object. -/
structure Whole (bytes : Bytes) : Prop where
  plain : Plain bytes
  enclosed : Enclosed bytes
  value : ∃ v, L.parse bytes = some v

theorem whole_dump {members : List (Bytes × Json)} (h : L.Value (.object members)) :
    Whole L (L.dump (.object members)) := by
  have hplain := L.dump_plain h
  have hparse := L.parse_dump h
  obtain ⟨v, hv⟩ := L.parse_strict hplain hparse
  obtain ⟨body, hbody⟩ := L.dump_object h
  refine ⟨hplain, ?_, _, hparse⟩
  rw [hbody] at hv ⊢
  exact enclosed_of_parse hv

variable {L}

/-- Of a text that is cut nothing is read. -/
theorem Whole.torn {s p : Bytes} (hs : Whole L s) (hp : p <+: s) (hcut : p ≠ s) :
    L.parse p = none :=
  L.parse_none (hs.plain.of_piece hp) (parse_torn hs.enclosed hp hcut)

end

/-! ### A library -/

section
variable (p : Json → Bool)

mutual

/-- A check of all numbers in a value. -/
def allNumbers : Json → Bool
  | .integer n => p (.integer n)
  | .float x => p (.float x)
  | .array elements => allInElements elements
  | .object members => allInMembers members
  | _ => true

def allInElements : List Json → Bool
  | [] => true
  | j :: elements => allNumbers j && allInElements elements

def allInMembers : List (Bytes × Json) → Bool
  | [] => true
  | (_, j) :: members => allNumbers j && allInMembers members

end

theorem allInElements_eq (elements : List Json) :
    allInElements p elements = elements.all (allNumbers p) := by
  induction elements with
  | nil => rw [allInElements, List.all_nil]
  | cons j elements ih => rw [allInElements, ih, List.all_cons]

theorem allInMembers_eq (members : List (Bytes × Json)) :
    allInMembers p members = members.all fun m => allNumbers p m.2 := by
  induction members with
  | nil => rw [allInMembers, List.all_nil]
  | cons m members ih =>
    obtain ⟨key, j⟩ := m
    rw [allInMembers, ih, List.all_cons]

theorem sound_of_allNumbers {j : Json} (hj : Sound (fun _ => True) j) (h : allNumbers p j = true) :
    Sound (fun j => p j = true) j := by
  induction hj with
  | null => exact .null
  | boolean b => exact .boolean b
  | integer _ => exact .integer (by simpa only [allNumbers] using h)
  | float _ => exact .float (by simpa only [allNumbers] using h)
  | string hs => exact .string hs
  | array _ ih =>
    simp only [allNumbers, allInElements_eq, List.all_eq_true] at h
    exact .array fun j hj => ih j hj (h j hj)
  | object order keys _ ih =>
    simp only [allNumbers, allInMembers_eq, List.all_eq_true] at h
    exact .object order keys fun m hm => ih m hm (h m hm)

theorem allNumbers_of_sound {j : Json} (hj : Sound (fun j => p j = true) j) :
    allNumbers p j = true := by
  induction hj with
  | null => rfl
  | boolean b => rfl
  | integer h => rw [allNumbers, h]
  | float h => rw [allNumbers, h]
  | string _ => rfl
  | array _ ih =>
    rw [allNumbers, allInElements_eq, List.all_eq_true]
    exact ih
  | object _ _ _ ih =>
    rw [allNumbers, allInMembers_eq, List.all_eq_true]
    exact ih

end

/- The grammar and its writer make a library that has two doubles only. -/

def sampleFloatText (x : ℚ) : Bytes := if x = 0 then text "0.0" else text "1.5"

def sampleNumber : Json → Bool
  | .integer n => -2 ^ 63 ≤ n && n < 2 ^ 64
  | .float x => x = 0 || x = 3 / 2
  | _ => true

def sampleDouble (x : ℚ) : Prop := x = 0 ∨ x = 3 / 2

theorem sampleNumber_iff (j : Json) : sampleNumber j = true ↔ Number sampleDouble j := by
  cases j with
  | integer n => simp [sampleNumber, Number]
  | float x => simp [sampleNumber, Number, sampleDouble]
  | _ => simp [sampleNumber, Number]

theorem reads_sample {x : ℚ} (h : sampleDouble x) : Reads sampleFloatText x := by
  have hzero : number (text "0.0") = some (.float 0, []) := by
    have hvalue : numberValue false (text "0") (some (text "0")) none = .float (mkRat 0 10) := by
      rfl
    have hrat : mkRat 0 10 = 0 := by norm_num [Rat.mkRat_eq_div]
    rw [← hrat, ← hvalue]
    rfl
  have hhalf : number (text "1.5") = some (.float (3 / 2), []) := by
    have hvalue : numberValue false (text "1") (some (text "5")) none = .float (mkRat 15 10) := by
      rfl
    have hrat : mkRat 15 10 = 3 / 2 := by norm_num [Rat.mkRat_eq_div]
    rw [← hrat, ← hvalue]
    rfl
  cases h with
  | inl h =>
    subst h
    exact ⟨fun t ht => number_follows ht hzero, forall_bytes (by decide)⟩
  | inr h =>
    subst h
    have htext : sampleFloatText (3 / 2) = text "1.5" := if_neg (by norm_num)
    rw [Reads, htext]
    exact ⟨fun t ht => number_follows ht hhalf, forall_bytes (by decide)⟩

theorem sound_sample {j : Json} (h : Sound (Number sampleDouble) j) :
    Sound (Written sampleFloatText) j := by
  refine h.imp fun n hn => ?_
  cases n with
  | float x => exact reads_sample hn
  | _ => trivial

def sampleParse (s : Bytes) : Option Json :=
  (JsonText.parse s).filter (allNumbers sampleNumber)

theorem sampleParse_eq_some {s : Bytes} {j : Json} : sampleParse s = some j ↔
    JsonText.parse s = some j ∧ allNumbers sampleNumber j = true :=
  Option.filter_eq_some_iff

theorem sampleParse_sound {s : Bytes} {j : Json} (h : sampleParse s = some j) :
    Sound (Number sampleDouble) j := by
  obtain ⟨hj, hnumbers⟩ := sampleParse_eq_some.mp h
  exact (sound_of_allNumbers _ (JsonSound.parse_sound hj) hnumbers).imp
    fun n hn => (sampleNumber_iff n).mp hn

theorem allNumbers_sample {j : Json} (h : Sound (Number sampleDouble) j) :
    allNumbers sampleNumber j = true :=
  allNumbers_of_sound _ (h.imp fun n hn => (sampleNumber_iff n).mpr hn)

theorem sampleParse_array {items : List (Bytes × Json)} {s : Bytes} {j : Json}
    (hitems : ∀ p ∈ items, sampleParse p.1 = some p.2) (hs : sampleParse s = some j) :
    sampleParse (91 :: (withCommas items ++ (s ++ [93, 10]))) =
      some (.array (items.map Prod.snd ++ [j])) := by
  obtain ⟨hj, hnumbers⟩ := sampleParse_eq_some.mp hs
  have htexts : Texts items := fun p hp => (sampleParse_eq_some.mp (hitems p hp)).1
  refine sampleParse_eq_some.mpr ⟨JsonArrays.parse_array htexts hj (by decide), ?_⟩
  rw [allNumbers, allInElements_eq, List.all_eq_true]
  intro v hv
  cases List.mem_append.mp hv with
  | inl hmem =>
    obtain ⟨p, hp, rfl⟩ := List.mem_map.mp hmem
    exact (sampleParse_eq_some.mp (hitems p hp)).2
  | inr hlast => exact List.mem_singleton.mp hlast ▸ hnumbers

theorem sampleDump_plain {j : Json} (h : Sound (Number sampleDouble) j) :
    Plain (JsonDump.dump sampleFloatText j) := by
  have hparse := JsonDump.parse_dump sampleFloatText (sound_sample h)
  refine ⟨no_zero_of_parse hparse, fun hhead => ?_⟩
  -- no text of the grammar begins with such a byte
  obtain ⟨_, rest, hv, _⟩ := parse_eq_some.mp hparse
  obtain ⟨t, ht⟩ := List.head?_eq_some_iff.mp hhead
  rw [ht] at hv
  simp [value, skipWhite, isWhite, number, sign, isDigit] at hv

def sampleGetInt : Json → Option Int
  | .integer n => some (int32 n)
  | _ => none

def sampleLibrary : Library where
  parse := sampleParse
  dump := JsonDump.dump sampleFloatText
  getInt := sampleGetInt
  double := sampleDouble
  parse_strict := fun _ h => ⟨_, (sampleParse_eq_some.mp h).1⟩
  parse_sound := sampleParse_sound
  parse_feed := by
    intro s j _ h
    obtain ⟨hj, hnumbers⟩ := sampleParse_eq_some.mp h
    exact ⟨sampleParse_eq_some.mpr ⟨parse_cons_white (by decide) hj, hnumbers⟩,
      sampleParse_eq_some.mpr ⟨parse_append_newline hj, hnumbers⟩⟩
  parse_array := fun hitems _ hs => sampleParse_array (fun p hp => (hitems p hp).2) hs
  parse_empty := rfl
  parse_dump := fun h => sampleParse_eq_some.mpr
    ⟨JsonDump.parse_dump sampleFloatText (sound_sample h), allNumbers_sample h⟩
  dump_plain := sampleDump_plain
  dump_object := fun _ => ⟨_, by rw [JsonDump.dump]⟩
  getInt_integer := fun h => congrArg some (int32_eq_self h)
  getInt_fits := by
    intro j n h
    cases j with
    | integer m =>
      obtain rfl := Option.some.inj h
      exact int32_inInt m
    | _ => cases h
  double_zero := Or.inl rfl

theorem parse_sampleLibrary {s : Bytes} {j : Json} (hj : JsonText.parse s = some j)
    (hnumbers : allNumbers sampleNumber j = true) : sampleLibrary.parse s = some j :=
  sampleParse_eq_some.mpr ⟨hj, hnumbers⟩

end OpcUaTestTool.JsonLibrary
