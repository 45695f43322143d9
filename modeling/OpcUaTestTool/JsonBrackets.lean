import OpcUaTestTool.JsonSound

/-! The brackets of JSON texts, counted outside of strings. A text with a bracket left open is no
value, whatever stands around it. -/
namespace OpcUaTestTool.JsonBrackets
open Numerals JsonValues JsonText JsonArrays JsonDump JsonSound

/-- Outside of strings, inside of one, or there behind a backslash. -/
inductive Place where
  | outside
  | inside
  | escaped
  deriving DecidableEq

/-- How many brackets are open, and where the next byte stands. -/
structure State where
  depth : Nat
  place : Place
  deriving DecidableEq

def next (q : State) (b : UInt8) : Option State :=
  match q.place with
  | .outside =>
    if b = 34 then some ⟨q.depth, .inside⟩
    else if b = 91 ∨ b = 123 then some ⟨q.depth + 1, .outside⟩
    else if b = 93 ∨ b = 125 then if q.depth = 0 then none else some ⟨q.depth - 1, .outside⟩
    else some q
  | .inside =>
    if b = 34 then some ⟨q.depth, .outside⟩
    else if b = 92 then some ⟨q.depth, .escaped⟩
    else if b < 32 then none
    else some q
  | .escaped => if b < 32 then none else some ⟨q.depth, .inside⟩

def scan : State → Bytes → Option State
  | q, [] => some q
  | q, b :: s => (next q b).bind fun q' => scan q' s

theorem scan_append (q : State) (a b : Bytes) :
    scan q (a ++ b) = (scan q a).bind fun r => scan r b := by
  induction a generalizing q with
  | nil => rfl
  | cons c a ih =>
    rw [List.cons_append, scan, scan]
    cases next q c with
    | none => rfl
    | some q' => exact ih q'

theorem scan_cons {q q' : State} {b : UInt8} (h : next q b = some q') (s : Bytes) :
    scan q (b :: s) = scan q' s := by
  rw [scan, h, Option.bind_some]

theorem next_inert {b : UInt8} (h : inert b = true) (d : Nat) :
    next ⟨d, .outside⟩ b = some ⟨d, .outside⟩ := by
  simp only [inert, Bool.and_eq_true, decide_eq_true_eq] at h
  obtain ⟨⟨⟨⟨⟨_, h34⟩, h91⟩, h93⟩, h123⟩, h125⟩ := h
  simp [next, h34, h91, h93, h123, h125]

/-- The bytes before the rest lead from one place to another, and all brackets in them
are closed. -/
def Leads (a b : Place) (s rest : Bytes) : Prop :=
  ∃ p, s = p ++ rest ∧ ∀ d, scan ⟨d, a⟩ p = some ⟨d, b⟩

theorem Leads.refl (a : Place) (s : Bytes) : Leads a a s s := ⟨[], rfl, fun _ => rfl⟩

theorem Leads.trans {a b c : Place} {s t u : Bytes} (h : Leads a b s t) (h' : Leads b c t u) :
    Leads a c s u := by
  obtain ⟨p, rfl, hp⟩ := h
  obtain ⟨q, rfl, hq⟩ := h'
  refine ⟨p ++ q, by rw [List.append_assoc], fun d => ?_⟩
  rw [scan_append, hp d, Option.bind_some, hq d]

theorem leads_cons {a a' : Place} {b : UInt8} (h : ∀ d, next ⟨d, a⟩ b = some ⟨d, a'⟩) (s : Bytes) :
    Leads a a' (b :: s) s :=
  ⟨[b], rfl, fun d => by rw [scan_cons (h d), scan]⟩

theorem scan_inert {p : Bytes} (hp : ∀ b ∈ p, inert b = true) (d : Nat) :
    scan ⟨d, .outside⟩ p = some ⟨d, .outside⟩ := by
  induction p with
  | nil => rfl
  | cons b p ih =>
    rw [scan_cons (next_inert (hp b List.mem_cons_self) d)]
    exact ih fun c hc => hp c (List.mem_cons_of_mem b hc)

theorem leads_passes {s rest : Bytes} (h : Passes s rest) : Leads .outside .outside s rest := by
  obtain ⟨p, rfl, hp⟩ := h
  exact ⟨p, rfl, scan_inert hp⟩

/-- Where the reader of a string is. -/
def placeOf : Mode → Place
  | .plain => .inside
  | .escape => .escaped
  | .hex _ _ _ => .inside
  | .backslash _ => .inside
  | .letter _ => .escaped

theorem next_inside {b : UInt8} (h34 : b ≠ 34) (h92 : b ≠ 92) (h : ¬ b < 32) (d : Nat) :
    next ⟨d, .inside⟩ b = some ⟨d, .inside⟩ := by
  simp [next, h34, h92, h]

/-- The digits of an escape are no quotes. -/
theorem next_hexValue {b : UInt8} {v : Nat} (h : hexValue b = some v) (d : Nat) :
    next ⟨d, .inside⟩ b = some ⟨d, .inside⟩ := by
  have hb : 48 ≤ b.toNat ∧ b.toNat ≤ 57 ∨ 65 ≤ b.toNat ∧ b.toNat ≤ 70 ∨
      97 ≤ b.toNat ∧ b.toNat ≤ 102 := by
    simp only [hexValue, UInt8.le_iff_toNat_le, UInt8.reduceToNat] at h
    split_ifs at h <;> omega
  apply next_inside
  · simp only [ne_eq, ← UInt8.toNat_inj, UInt8.reduceToNat]
    omega
  · simp only [ne_eq, ← UInt8.toNat_inj, UInt8.reduceToNat]
    omega
  · simp only [UInt8.lt_iff_toNat_lt, UInt8.reduceToNat]
    omega

theorem next_escaped {b : UInt8} (h : ¬ b < 32) (d : Nat) :
    next ⟨d, .escaped⟩ b = some ⟨d, .inside⟩ := by
  simp [next, h]

theorem simpleEscape_not_control {b c : UInt8} (h : simpleEscape b = some c) : ¬ b < 32 := by
  intro hb
  have hne (e : UInt8) (he : ¬ e < 32) : b ≠ e := fun heq => he (heq ▸ hb)
  simp [simpleEscape, hne 34 (by decide), hne 92 (by decide), hne 47 (by decide),
    hne 98 (by decide), hne 102 (by decide), hne 110 (by decide), hne 114 (by decide),
    hne 116 (by decide)] at h

/-- A string leads out of itself. -/
theorem leads_stringBody {mode : Mode} {s t rest : Bytes} (h : stringBody mode s = some (t, rest)) :
    Leads (placeOf mode) .outside s rest := by
  induction s generalizing mode t with
  | nil => simp [stringBody] at h
  | cons b s ih =>
    cases mode with
    | plain =>
      by_cases hquote : b = 34
      · rw [stringBody, if_pos hquote, Option.some.injEq, Prod.mk.injEq] at h
        rw [← h.2]
        exact leads_cons (fun d => by simp [next, placeOf, hquote]) s
      · by_cases hback : b = 92
        · rw [stringBody, if_neg hquote, if_pos hback] at h
          have hnext (d : Nat) : next ⟨d, .inside⟩ b = some ⟨d, .escaped⟩ := by simp [next, hback]
          exact (leads_cons hnext s).trans (ih h)
        · simp only [stringBody, if_neg hquote, if_neg hback] at h
          split_ifs at h with hcontrol
          simp only [Option.map_eq_some_iff, Prod.mk.injEq] at h
          obtain ⟨r, hr, rfl, rfl⟩ := h
          exact (leads_cons (next_inside hquote hback hcontrol) s).trans (ih hr)
    | escape =>
      by_cases hu : b = 117
      · rw [stringBody, if_pos hu] at h
        exact (leads_cons (next_escaped (hu ▸ by decide)) s).trans (ih h)
      · cases hc : simpleEscape b with
        | none => simp [stringBody, hu, hc] at h
        | some c =>
          simp only [stringBody, if_neg hu, hc, Option.map_eq_some_iff, Prod.mk.injEq] at h
          obtain ⟨r, hr, rfl, rfl⟩ := h
          exact (leads_cons (next_escaped (simpleEscape_not_control hc)) s).trans (ih hr)
    | hex n v high =>
      cases hd : hexValue b with
      | none => simp [stringBody, hd] at h
      | some digit =>
        refine (leads_cons (next_hexValue hd) s).trans ?_
        simp only [stringBody, hd] at h
        split_ifs at h
        · exact ih h
        · cases hu : codeUnit (v * 16 + digit) high with
          | none => simp [hu] at h
          | some u =>
            cases u with
            | high hi =>
              simp only [hu] at h
              exact ih h
            | character c =>
              simp only [hu, Option.map_eq_some_iff, Prod.mk.injEq] at h
              obtain ⟨r, hr, rfl, rfl⟩ := h
              exact ih hr
    | backslash hi =>
      by_cases hb : b = 92
      · rw [stringBody, if_pos hb] at h
        have hnext (d : Nat) : next ⟨d, .inside⟩ b = some ⟨d, .escaped⟩ := by simp [next, hb]
        exact (leads_cons hnext s).trans (ih h)
      · simp [stringBody, hb] at h
    | letter hi =>
      by_cases hb : b = 117
      · rw [stringBody, if_pos hb] at h
        exact (leads_cons (next_escaped (hb ▸ by decide)) s).trans (ih h)
      · simp [stringBody, hb] at h

theorem next_quote (d : Nat) : next ⟨d, .outside⟩ 34 = some ⟨d, .inside⟩ := by simp [next]

theorem next_open {b : UInt8} (hb : b = 91 ∨ b = 123) (d : Nat) :
    next ⟨d, .outside⟩ b = some ⟨d + 1, .outside⟩ := by
  have hne : b ≠ 34 := by
    rintro rfl
    revert hb
    decide
  simp [next, hne, hb]

theorem next_close {b : UInt8} (hb : b = 93 ∨ b = 125) (d : Nat) :
    next ⟨d + 1, .outside⟩ b = some ⟨d, .outside⟩ := by
  have hne : b ≠ 34 ∧ ¬ (b = 91 ∨ b = 123) := by
    cases hb with
    | inl hb => exact hb ▸ by decide
    | inr hb => exact hb ▸ by decide
  simp [next, hne, hb]

theorem leads_quote {s body t rest : Bytes} (hs : Passes s (34 :: body))
    (h : stringBody .plain body = some (t, rest)) : Leads .outside .outside s rest :=
  ((leads_passes hs).trans (leads_cons next_quote body)).trans (leads_stringBody h)

/-- Brackets around bytes whose brackets are closed. -/
theorem leads_bracketed {o c : UInt8} (ho : o = 91 ∨ o = 123) (hc : c = 93 ∨ c = 125)
    {s body mid rest : Bytes} (hs : Passes s (o :: body))
    (hbody : Leads .outside .outside body mid) (h : expect c mid = some rest) :
    Leads .outside .outside s rest := by
  obtain ⟨p, rfl, hp⟩ := hs
  obtain ⟨q, rfl, hq⟩ := hbody.trans (leads_passes (passes_expect h))
  refine ⟨p ++ o :: (q ++ [c]), by simp, fun d => ?_⟩
  rw [scan_append, scan_inert hp d, Option.bind_some, scan_cons (next_open ho d), scan_append,
    hq (d + 1), Option.bind_some, scan_cons (next_close hc d), scan]

theorem leads_comma {s rest : Bytes} (h : expect 44 s = some rest) :
    Leads .outside .outside s rest :=
  (leads_passes (passes_expect h)).trans (leads_cons (next_inert (by decide)) rest)

theorem leads_member {item : Bytes → Option (Json × Bytes)}
    (hitem : ∀ s j rest, item s = some (j, rest) → Leads .outside .outside s rest)
    {s rest : Bytes} {m : Bytes × Json} (h : member item s = some (m, rest)) :
    Leads .outside .outside s rest := by
  obtain ⟨name, t, mid, hname, hkey, hcolon, hv⟩ := member_eq_some h
  have hbehind := (leads_passes hcolon).trans (leads_cons (next_inert (by decide)) mid)
  exact ((leads_quote hname hkey).trans hbehind).trans (hitem _ _ _ hv)

section
variable {α : Type} {item : Bytes → Option (α × Bytes)}

/-- Items whose brackets are closed, with commas between them. -/
theorem leads_separated
    (hitem : ∀ s a rest, item s = some (a, rest) → Leads .outside .outside s rest)
    {close : UInt8} {n : Nat} {s rest : Bytes} {as : List α}
    (h : separated item close n s = some (as, rest)) :
    ∃ mid, Leads .outside .outside s mid ∧ expect close mid = some rest := by
  obtain ⟨_, mid, hmid, hend⟩ := separated_induct (P := Leads .outside .outside s)
    (Q := fun _ => True) (fun t rest ht hs => hs.trans (leads_comma ht))
    (fun t a rest ht hs => ⟨trivial, hs.trans (hitem t a rest ht)⟩) h (Leads.refl _ s)
  exact ⟨mid, hmid, hend⟩

end

theorem leads_value {n : Nat} {s rest : Bytes} {j : Json} (h : value n s = some (j, rest)) :
    Leads .outside .outside s rest := by
  induction n generalizing s rest j with
  | zero => simp [value] at h
  | succ n ih =>
    cases production h with
    | scalar hpass _ => exact leads_passes hpass
    | string hpass hbody => exact leads_quote hpass hbody
    | emptyArray hpass hend =>
      exact leads_bracketed (Or.inl rfl) (Or.inl rfl) hpass (Leads.refl _ _) hend
    | array hpass hbody =>
      obtain ⟨mid, hmid, hend⟩ := leads_separated (fun _ _ _ h => ih h) hbody
      exact leads_bracketed (Or.inl rfl) (Or.inl rfl) hpass hmid hend
    | emptyObject hpass hend =>
      exact leads_bracketed (Or.inr rfl) (Or.inr rfl) hpass (Leads.refl _ _) hend
    | object hpass hbody =>
      obtain ⟨mid, hmid, hend⟩ :=
        leads_separated (fun _ _ _ h => leads_member (fun _ _ _ h => ih h) h) hbody
      exact leads_bracketed (Or.inr rfl) (Or.inr rfl) hpass hmid hend

/-- All brackets of a text that is read are closed. -/
theorem scan_of_parse {s : Bytes} {j : Json} (h : parse s = some j) (d : Nat) :
    scan ⟨d, .outside⟩ s = some ⟨d, .outside⟩ := by
  obtain ⟨_, rest, hv, hw⟩ := parse_eq_some.mp h
  have hrest := passes_dropWhile inert_of_white rest
  rw [← skipWhite, hw] at hrest
  obtain ⟨p, hp, hscan⟩ := (leads_value hv).trans (leads_passes hrest)
  rw [hp, List.append_nil]
  exact hscan d

/-! ### Texts that are cut -/

/-- The brackets of a text are closed, each behind the one that opens it. -/
def Balanced (s : Bytes) : Prop := ∀ d, scan ⟨d, .outside⟩ s = some ⟨d, .outside⟩

theorem Balanced.append {a b : Bytes} (ha : Balanced a) (hb : Balanced b) : Balanced (a ++ b) := by
  intro d
  rw [scan_append, ha d, Option.bind_some, hb d]

theorem balanced_inert {p : Bytes} (hp : ∀ b ∈ p, inert b = true) : Balanced p := scan_inert hp

/-- Braces around a text whose brackets are closed. -/
def Enclosed (s : Bytes) : Prop := ∃ body, s = 123 :: (body ++ [125]) ∧ Balanced body

theorem skipWhite_eq_nil {s : Bytes} (h : skipWhite s = []) : ∀ b ∈ s, isWhite b = true :=
  List.dropWhile_eq_nil_iff.mp h

/-- The braces of an object that is read are those around its members. -/
theorem enclosed_of_parse {body : Bytes} {j : Json} (h : parse (123 :: (body ++ [125])) = some j) :
    Enclosed (123 :: (body ++ [125])) := by
  obtain ⟨_, rest, hv, hw⟩ := parse_eq_some.mp h
  have hwhite := skipWhite_eq_nil hw
  -- the text begins with a brace, which is no white space
  have hbegin {c : UInt8} {t : Bytes} (hs : Passes (123 :: (body ++ [125])) (c :: t)) :
      c = 123 ∧ t = body ++ [125] := by
    obtain ⟨p, hp, hinert⟩ := hs
    cases p with
    | nil =>
      rw [List.nil_append, List.cons_eq_cons] at hp
      exact ⟨hp.1.symm, hp.2.symm⟩
    | cons b p =>
      rw [List.cons_append, List.cons_eq_cons] at hp
      have hb := hinert b List.mem_cons_self
      rw [← hp.1] at hb
      exact absurd hb (by decide)
  -- the closing brace of the members is the last byte
  have hclosed {t mid : Bytes} (hs : Passes (123 :: (body ++ [125])) (123 :: t))
      (hmid : Leads .outside .outside t mid) (hend : expect 125 mid = some rest) :
      Enclosed (123 :: (body ++ [125])) := by
    obtain ⟨p, hp, hscan⟩ := hmid.trans (leads_passes (passes_expect hend))
    rw [(hbegin hs).2] at hp
    cases hlast : rest.getLast? with
    | none =>
      obtain rfl := List.getLast?_eq_none_iff.mp hlast
      obtain ⟨rfl, _⟩ := List.append_inj' hp rfl
      exact ⟨body, rfl, hscan⟩
    | some b =>
      obtain ⟨front, rfl⟩ := List.getLast?_eq_some_iff.mp hlast
      have heq : body ++ [125] = (p ++ 125 :: front) ++ [b] := by rw [hp]; simp
      obtain ⟨_, hb⟩ := List.append_inj' heq rfl
      have hbwhite := hwhite b (by simp)
      rw [← List.singleton_inj.mp hb] at hbwhite
      exact absurd hbwhite (by decide)
  cases production hv with
  | scalar hpass _ =>
    cases rest with
    | nil =>
      obtain ⟨p, hp, hinert⟩ := hpass
      exact absurd (hinert 123 (by rw [← List.append_nil p, ← hp]; simp)) (by decide)
    | cons b rest =>
      have hb := hwhite b List.mem_cons_self
      rw [(hbegin hpass).1] at hb
      exact absurd hb (by decide)
  | string hpass _ => exact absurd (hbegin hpass).1 (by decide)
  | emptyArray hpass _ => exact absurd (hbegin hpass).1 (by decide)
  | array hpass _ => exact absurd (hbegin hpass).1 (by decide)
  | emptyObject hpass hend => exact hclosed hpass (Leads.refl _ _) hend
  | object hpass hbody =>
    obtain ⟨mid, hmid, hend⟩ :=
      leads_separated (fun _ _ _ h => leads_member (fun _ _ _ h => leads_value h) h) hbody
    exact hclosed hpass hmid hend

theorem next_lift {q q' : State} {b : UInt8} (h : next q b = some q') (k : Nat) :
    next ⟨q.depth + k, q.place⟩ b = some ⟨q'.depth + k, q'.place⟩ := by
  obtain ⟨d, place⟩ := q
  cases place with
  | outside =>
    simp only [next] at h ⊢
    split_ifs at h ⊢ with h34 hopen hclose hzero hlifted
    · cases h
      rfl
    · cases h
      simp only [Option.some.injEq, State.mk.injEq, and_true]
      omega
    · omega
    · cases h
      simp only [Option.some.injEq, State.mk.injEq, and_true]
      omega
    · cases h
      rfl
  | inside =>
    simp only [next] at h ⊢
    split_ifs at h ⊢
    all_goals
      cases h
      rfl
  | escaped =>
    simp only [next] at h ⊢
    split_ifs at h ⊢
    cases h
    rfl

/-- Brackets that were open before are never missed. -/
theorem scan_lift {q q' : State} {s : Bytes} (h : scan q s = some q') (k : Nat) :
    scan ⟨q.depth + k, q.place⟩ s = some ⟨q'.depth + k, q'.place⟩ := by
  induction s generalizing q with
  | nil =>
    cases h
    rfl
  | cons b s ih =>
    simp only [scan, Option.bind_eq_some_iff] at h
    obtain ⟨r, hr, hs⟩ := h
    rw [scan_cons (next_lift hr k)]
    exact ih hs

/-- A text in braces that is cut leaves a bracket open. -/
theorem scan_torn {s p : Bytes} (hs : Enclosed s) (hp : p <+: s) (hne : p ≠ []) (hcut : p ≠ s)
    (d : Nat) : ∃ q, scan ⟨d, .outside⟩ p = some q ∧ d < q.depth := by
  obtain ⟨body, rfl, hbody⟩ := hs
  cases p with
  | nil => exact absurd rfl hne
  | cons b p =>
    obtain ⟨rfl, htail⟩ := List.cons_prefix_cons.mp hp
    have hbegin : p <+: body := by
      cases List.prefix_concat_iff.mp htail with
      | inl h => exact absurd (by rw [h]) hcut
      | inr h => exact h
    obtain ⟨rest, rfl⟩ := hbegin
    have hzero := hbody 0
    rw [scan_append] at hzero
    obtain ⟨q, hq, _⟩ := Option.bind_eq_some_iff.mp hzero
    have hlift := scan_lift hq (d + 1)
    rw [Nat.zero_add] at hlift
    exact ⟨_, by rw [scan_cons (next_open (Or.inr rfl) d), hlift], by dsimp only; omega⟩

/-- A text that can be scanned from outside of strings ends outside of them, at least so much
deeper. -/
def Rises (k : Nat) (s : Bytes) : Prop :=
  ∀ d q, scan ⟨d, .outside⟩ s = some q → q.place = .outside ∧ d + k ≤ q.depth

theorem Balanced.rises {s : Bytes} (h : Balanced s) : Rises 0 s := by
  intro d q hq
  rw [h d, Option.some.injEq] at hq
  subst hq
  exact ⟨rfl, le_rfl⟩

theorem Rises.append {k l : Nat} {a b : Bytes} (ha : Rises k a) (hb : Rises l b) :
    Rises (k + l) (a ++ b) := by
  intro d q hq
  rw [scan_append, Option.bind_eq_some_iff] at hq
  obtain ⟨⟨d', place⟩, hd', hq⟩ := hq
  obtain ⟨hplace, hdepth⟩ := ha d _ hd'
  obtain rfl : place = .outside := hplace
  obtain ⟨hout, hle⟩ := hb d' q hq
  dsimp only at hdepth
  exact ⟨hout, by omega⟩

theorem Rises.mono {k l : Nat} (hkl : k ≤ l) {s : Bytes} (h : Rises l s) : Rises k s := by
  intro d q hq
  obtain ⟨hout, hle⟩ := h d q hq
  exact ⟨hout, by omega⟩

/-- A line feed inside of a string ends the scan. -/
theorem rises_torn {s p : Bytes} (hs : Enclosed s) (hp : p <+: s) (hne : p ≠ []) (hcut : p ≠ s) :
    Rises 1 (p ++ [10]) := by
  intro d q hq
  obtain ⟨⟨d', place⟩, hd', hlt⟩ := scan_torn hs hp hne hcut d
  rw [scan_append, hd', Option.bind_some] at hq
  cases place with
  | outside =>
    rw [scan_cons (next_inert (by decide) d')] at hq
    cases hq
    exact ⟨rfl, hlt⟩
  | inside => simp [scan, next] at hq
  | escaped => simp [scan, next] at hq

/-- A text with a bracket left open is no value. -/
theorem parse_of_rises {s : Bytes} (h : Rises 1 s) : parse s = none := by
  cases hp : parse s with
  | none => rfl
  | some j =>
    obtain ⟨_, hle⟩ := h 0 _ (scan_of_parse hp 0)
    dsimp only at hle
    omega

theorem parse_torn {s p : Bytes} (hs : Enclosed s) (hp : p <+: s) (hcut : p ≠ s) :
    parse p = none := by
  by_cases hne : p = []
  · subst hne
    rfl
  · cases hj : parse p with
    | none => rfl
    | some j =>
      obtain ⟨q, hq, hlt⟩ := scan_torn hs hp hne hcut 0
      rw [scan_of_parse hj 0, Option.some.injEq] at hq
      rw [← hq] at hlt
      dsimp only at hlt
      omega

end OpcUaTestTool.JsonBrackets
