import OpcUaTestTool.Api
import OpcUaTestTool.FinishedRange

/-! The `int` arithmetic of `DataBase::getFinishedJobs`, with exact results: the bounds of its two
loops, evaluated with every check, and the steps of their variable. -/
namespace OpcUaTestTool.FinishedBounds
open FiniteMap Numerals Directory FinishedJobs ResultFiles FinishedRange

/-- The results of the operations in the loop upwards, from the check for an id on. -/
def forwardOps (finished : Dir) (fromId max : Int) : Nat → Int → List Int
  | 0, _ => []
  | fuel + 1, id =>
    (fromId + max) ::
      if id < fromId + max ∧ decimal id ∈ finished then
        (id + 1) :: forwardOps finished fromId max fuel (id + 1)
      else []

/-- The results of the operations in the loop downwards. A negative id ends the loop before its
bound is computed. -/
def reverseOps (finished : Dir) (highestId max : Int) : Nat → Int → List Int
  | 0, _ => []
  | fuel + 1, id =>
    if 0 ≤ id then
      (highestId - max) ::
        if highestId - max ≤ id ∧ decimal id ∈ finished then
          (id - 1) :: reverseOps finished highestId max fuel (id - 1)
        else []
    else []

/- Every turn that goes on has read another file. -/
def intOps (entries : List Bytes) (finished : Dir) (fromId max : Int) : List Int :=
  let (highestId, fromFound) := scan fromId entries (-1)
  if fromFound then forwardOps finished fromId max (size finished + 1) fromId
  else reverseOps finished highestId max (size finished + 1) highestId

/-- A name in the directory that `std::stoi` reads as the id. -/
def Reads (entries : List Bytes) (id : Int) : Prop := ∃ e ∈ entries, stoi e = some id

instance (entries : List Bytes) (id : Int) : Decidable (Reads entries id) :=
  inferInstanceAs (Decidable (∃ e ∈ entries, stoi e = some id))

/-- The bound of the loop that is taken is an `int`. -/
def BoundIsInt (entries : List Bytes) (fromId max : Int) : Prop :=
  (Reads entries fromId → InInt (fromId + max)) ∧
  (¬ Reads entries fromId → ∀ h, 0 ≤ h → Reads entries h → (∀ id, Reads entries id → id ≤ h) →
    InInt (h - max))

theorem range_map_cons (n : Nat) (f : Nat → Int) :
    (List.range (n + 1)).map f = f 0 :: (List.range n).map fun k => f (k + 1) := by
  rw [List.range_succ_eq_map, List.map_cons, List.map_map]
  rfl

/-- A loop never reads more files than there are. -/
theorem length_readable_le (finished : Dir) {ids : List Int} (hn : ids.Nodup) :
    (readable finished ids).length ≤ size finished := by
  have hread := readable_eq finished ids
  have hnodup : ((readable finished ids).map fun p => decimal p.1).Nodup := by
    have : ((readable finished ids).map Prod.fst).Nodup := by
      rw [hread]
      exact hn.sublist (List.takeWhile_sublist _)
    simpa [List.map_map, Function.comp_def] using this.map decimal_injective
  have hle := length_le_size (m := finished) hnodup (by
    intro name hname
    obtain ⟨p, hp, rfl⟩ := List.mem_map.mp hname
    have hid : p.1 ∈ ids.takeWhile fun id => decimal id ∈ finished := by
      rw [← hread]
      exact List.mem_map_of_mem hp
    simpa using List.mem_takeWhile_imp hid)
  simpa using hle

/-- Upwards: the bound and a step for each file that is read, and the bound once more. -/
theorem forwardOps_eq (finished : Dir) (fromId max : Int) (fuel n : Nat) (id : Int)
    (hn : n = (fromId + max - id).toNat)
    (hfuel : (readable finished ((List.range n).map fun k : Nat => id + k)).length < fuel) :
    forwardOps finished fromId max fuel id =
      ((readable finished ((List.range n).map fun k : Nat => id + k)).flatMap fun p =>
        [fromId + max, p.1 + 1]) ++ [fromId + max] := by
  induction fuel generalizing n id with
  | zero => omega
  | succ fuel ih =>
    cases n with
    | zero =>
      have hend : ¬ id < fromId + max := by omega
      simp [forwardOps, readable, hend]
    | succ n =>
      have hlt : id < fromId + max := by omega
      have hids : (List.range (n + 1)).map (fun k : Nat => id + k) =
          id :: (List.range n).map fun k : Nat => id + 1 + k := by
        rw [range_map_cons]
        simp only [Nat.cast_zero, add_zero, Nat.cast_add, Nat.cast_one, List.cons.injEq, true_and]
        exact List.map_congr_left fun k _ => by omega
      rw [hids] at hfuel ⊢
      cases hl : finished.lookup (decimal id) with
      | none =>
        have hmem : decimal id ∉ finished := AList.lookup_eq_none.mp hl
        simp [forwardOps, readable, hl, hmem]
      | some content =>
        have hmem : decimal id ∈ finished := AList.lookup_isSome.mp (by simp [hl])
        simp only [readable, hl, List.length_cons] at hfuel ⊢
        rw [forwardOps, if_pos ⟨hlt, hmem⟩, ih n (id + 1) (by omega) (by omega)]
        simp

/-- Downwards: the same, but without the bound once an id is negative. -/
theorem reverseOps_eq (finished : Dir) (highestId max : Int) (fuel n : Nat) (id : Int)
    (hn : n = (min id (id - (highestId - max)) + 1).toNat)
    (hfuel : (readable finished ((List.range n).map fun k : Nat => id - k)).length < fuel) :
    reverseOps finished highestId max fuel id =
      ((readable finished ((List.range n).map fun k : Nat => id - k)).flatMap fun p =>
        [highestId - max, p.1 - 1]) ++
      if (readable finished ((List.range n).map fun k : Nat => id - k)).length ≤ id then
        [highestId - max] else [] := by
  induction fuel generalizing n id with
  | zero => omega
  | succ fuel ih =>
    by_cases h0 : 0 ≤ id
    · cases n with
      | zero =>
        have hend : ¬ highestId - max ≤ id := by omega
        simp [reverseOps, readable, h0, hend]
      | succ n =>
        have hle : highestId - max ≤ id := by omega
        have hids : (List.range (n + 1)).map (fun k : Nat => id - k) =
            id :: (List.range n).map fun k : Nat => id - 1 - k := by
          rw [range_map_cons]
          simp only [Nat.cast_zero, sub_zero, Nat.cast_add, Nat.cast_one, List.cons.injEq, true_and]
          exact List.map_congr_left fun k _ => by omega
        rw [hids] at hfuel ⊢
        cases hl : finished.lookup (decimal id) with
        | none =>
          have hmem : decimal id ∉ finished := AList.lookup_eq_none.mp hl
          simp [reverseOps, readable, h0, hl, hmem]
        | some content =>
          have hmem : decimal id ∈ finished := AList.lookup_isSome.mp (by simp [hl])
          simp only [readable, hl, List.length_cons] at hfuel ⊢
          rw [reverseOps, if_pos h0, if_pos ⟨hle, hmem⟩, ih n (id - 1) (by omega) (by omega)]
          have hnext (m : Nat) : (m : Int) ≤ id - 1 ↔ ((m + 1 : Nat) : Int) ≤ id := by omega
          simp [hnext]
    · obtain rfl : n = 0 := by omega
      simp [reverseOps, readable, h0]

theorem mem_readable {finished : Dir} {ids : List Int} {p : Int × Bytes}
    (h : p ∈ readable finished ids) : p.1 ∈ ids := by
  have hmem : p.1 ∈ (readable finished ids).map Prod.fst := List.mem_map_of_mem h
  rw [readable_eq] at hmem
  exact (List.takeWhile_sublist _).subset hmem

section
variable {finished : Dir} {fromId max : Int}

/-- The loop upwards stays within the range if its bound does. -/
theorem forwardOps_inInt (hfrom : InInt fromId) :
    (∀ x ∈ forwardOps finished fromId max (size finished + 1) fromId, InInt x) ↔
      InInt (fromId + max) := by
  have hfuel := length_readable_le finished (nodup_finishedIds fromId max .fromFound)
  rw [finishedIds] at hfuel
  rw [forwardOps_eq finished fromId max (size finished + 1) max.toNat fromId
    (by rw [add_sub_cancel_left]) (by omega)]
  constructor
  · intro hall
    exact hall _ (List.mem_append_right _ (List.mem_singleton_self _))
  · intro hbound x hx
    simp only [List.mem_append, List.mem_flatMap, List.mem_cons, List.not_mem_nil, or_false] at hx
    cases hx with
    | inr heq => exact heq ▸ hbound
    | inl hx =>
      obtain ⟨p, hp, hx⟩ := hx
      obtain ⟨k, hk, hid⟩ := List.mem_map.mp (mem_readable hp)
      rw [List.mem_range] at hk
      cases hx with
      | inl heq => exact heq ▸ hbound
      | inr heq =>
        unfold InInt at *
        omega

/-- The loop downwards computes no bound from a negative id, and stays within the range if the
bound does. -/
theorem reverseOps_inInt {highestId : Int} (hhigh : InInt highestId) :
    (∀ x ∈ reverseOps finished highestId max (size finished + 1) highestId, InInt x) ↔
      (0 ≤ highestId → InInt (highestId - max)) := by
  by_cases h0 : 0 ≤ highestId
  · have hfuel := length_readable_le finished (nodup_finishedIds 0 max (.highestId highestId))
    rw [finishedIds] at hfuel
    constructor
    · intro hall _
      exact hall _ (by simp [reverseOps, h0])
    · intro hbound x hx
      have hbound := hbound h0
      rw [reverseOps_eq finished highestId max (size finished + 1) (min highestId max + 1).toNat
        highestId (by rw [sub_sub_cancel]) (by omega)] at hx
      cases List.mem_append.mp hx with
      | inr hx =>
        split at hx
        · rw [List.mem_singleton] at hx
          exact hx ▸ hbound
        · cases hx
      | inl hx =>
        simp only [List.mem_flatMap, List.mem_cons, List.not_mem_nil, or_false] at hx
        obtain ⟨p, hp, hx⟩ := hx
        obtain ⟨k, hk, hid⟩ := List.mem_map.mp (mem_readable hp)
        rw [List.mem_range] at hk
        cases hx with
        | inl heq => exact heq ▸ hbound
        | inr heq =>
          unfold InInt at *
          omega
  · simp [reverseOps, h0]

end

theorem number_inInt {value : Option Bytes} {n : Int} (h : Api.number value = .ok n) :
    InInt n := by
  cases value with
  | none =>
    simp only [Api.number, Except.ok.injEq] at h
    exact h ▸ (by decide)
  | some value =>
    cases hs : stoi value with
    | none => simp [Api.number, hs] at h
    | some m =>
      simp only [Api.number, hs, Except.ok.injEq] at h
      exact h ▸ stoi_inInt hs

/-- For every `from` the handler can read, and every `max`, the call has no overflow exactly if the
bound of its loop is an `int`. -/
theorem int_ops_iff (entries : List Bytes) (finished : Dir) (fromValue : Option Bytes)
    (fromId max : Int) (hfrom : Api.number fromValue = .ok fromId) :
    (∀ x ∈ intOps entries finished fromId max, InInt x) ↔ BoundIsInt entries fromId max := by
  obtain ⟨hfound, hend⟩ := scan_spec fromId entries (-1)
  cases hf : (scan fromId entries (-1)).2 with
  | true =>
    have hreads : Reads entries fromId := hfound.mp hf
    simp only [intOps, hf, if_true]
    rw [forwardOps_inInt (number_inInt hfrom)]
    constructor
    · intro hbound
      exact ⟨fun _ => hbound, fun hnot => absurd hreads hnot⟩
    · intro hbound
      exact hbound.1 hreads
  | false =>
    have hnot : ¬ Reads entries fromId := fun h => by simp [hfound.mpr h] at hf
    obtain ⟨hle, hall, hreached⟩ := hend hf
    simp only [intOps, hf, Bool.false_eq_true, if_false]
    generalize (scan fromId entries (-1)).1 = highestId at hle hall hreached
    have hread (h0 : 0 ≤ highestId) : Reads entries highestId := by
      cases hreached with
      | inl heq => omega
      | inr hr => exact hr
    have hhigh : InInt highestId := by
      by_cases h0 : 0 ≤ highestId
      · obtain ⟨e, _, hs⟩ := hread h0
        exact stoi_inInt hs
      · exact ⟨by omega, by omega⟩
    rw [reverseOps_inInt hhigh]
    constructor
    · intro hbound
      refine ⟨fun h => absurd h hnot, fun _ h h0 hr hmost => ?_⟩
      obtain ⟨e, he, hs⟩ := hr
      have hge := hall e he h hs
      have := hmost highestId (hread (by omega))
      obtain rfl : h = highestId := by omega
      exact hbound h0
    · intro hbound h0
      refine hbound.2 hnot highestId h0 (hread h0) ?_
      rintro id ⟨e, he, hs⟩
      exact hall e he id hs

theorem int_ops_sample :
    intOps sampleEntries sampleDir.files 2 2147483647 ≠ [] ∧
    ∀ x ∈ intOps sampleEntries sampleDir.files 2 2147483647, InInt x := by
  refine ⟨by decide, (int_ops_iff sampleEntries sampleDir.files (some (text "2")) 2 2147483647
    rfl).mpr ⟨fun h2 => absurd h2 (by decide), fun _ h h0 hr hmost => ?_⟩⟩
  have h4 : Reads sampleEntries 4 := ⟨text "4", by decide, by decide⟩
  have := hmost 4 h4
  obtain ⟨e, _, hs⟩ := hr
  have := stoi_inInt hs
  unfold InInt at *
  omega

/-- The largest range from a finished job on: its end is no `int`. -/
theorem range_end_overflows :
    Api.number (some (text "1")) = .ok 1 ∧
    Api.number (some (text "2147483647")) = .ok 2147483647 ∧
    intOps sampleEntries sampleDir.files 1 2147483647 = [2147483648, 2, 2147483648] ∧
    ¬ ∀ x ∈ intOps sampleEntries sampleDir.files 1 2147483647, InInt x := by
  have hops : intOps sampleEntries sampleDir.files 1 2147483647 = [2147483648, 2, 2147483648] := by
    decide
  refine ⟨rfl, rfl, hops, fun hall => ?_⟩
  rw [hops] at hall
  have := hall 2147483648 (by decide)
  revert this
  decide

end OpcUaTestTool.FinishedBounds
