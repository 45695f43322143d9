import Mathlib.Data.Finset.Sort

/-! Lists that are followed up to the first element without a property, against all the elements
that have it. -/
namespace OpcUaTestTool.FirstGap
variable {α : Type*} {p : α → Bool}

theorem takeWhile_prefix_filter (l : List α) : l.takeWhile p <+: l.filter p := by
  induction l with
  | nil => exact List.prefix_refl []
  | cons a l ih =>
    cases ha : p a with
    | false => simp [ha]
    | true =>
      rw [List.takeWhile_cons_of_pos ha, List.filter_cons_of_pos ha]
      exact List.cons_prefix_cons.mpr ⟨rfl, ih⟩

/-- Stopping at the first element without the property loses none that has it, if each of those
comes before all that do not. -/
theorem takeWhile_eq_filter_iff (l : List α) :
    l.takeWhile p = l.filter p ↔ l.Pairwise fun a b => p b = true → p a = true := by
  induction l with
  | nil => simp
  | cons a l ih =>
    cases ha : p a with
    | true => simp [ha, ih]
    | false =>
      have hnone : (∀ b ∈ l, p b = true → p a = true) ↔ ∀ b ∈ l, ¬ p b = true := by simp [ha]
      have hvacuous : (∀ b ∈ l, ¬ p b = true) → l.Pairwise fun a b => p b = true → p a = true :=
        fun h => List.pairwise_iff_forall_sublist.mpr fun {_ y} hs hy =>
          absurd hy (h y (hs.subset (by simp)))
      rw [List.takeWhile_cons_of_neg (by simp [ha]), List.filter_cons_of_neg (by simp [ha]),
        List.pairwise_cons, hnone, and_iff_left_of_imp hvacuous, eq_comm, List.filter_eq_nil_iff]

/-- Prefixes of one list are the same where their lengths are. -/
theorem prefix_eq_iff {l₁ l₂ l : List α} (h₁ : l₁ <+: l) (h₂ : l₂ <+: l) :
    l₁ = l₂ ↔ l₁.length = l₂.length := by
  refine ⟨fun h => by rw [h], fun h => ?_⟩
  rw [List.prefix_iff_eq_take.mp h₁, List.prefix_iff_eq_take.mp h₂, h]

/-- Stopping at the first element without the property, one passes those that come before. -/
theorem lt_length_takeWhile_iff (l : List α) (i : Nat) :
    i < (l.takeWhile p).length ↔ i < l.length ∧ ∀ a ∈ l.take (i + 1), p a = true := by
  induction l generalizing i with
  | nil => simp
  | cons a l ih =>
    cases ha : p a with
    | false => simp [ha]
    | true =>
      cases i with
      | zero => simp [ha]
      | succ i => simp [ha, ih]

/-- One place too many for the elements up to the first gap, against all of them. -/
theorem take_takeWhile_eq_take_filter_iff (l : List α) (n : Nat) :
    (l.takeWhile p).take (n + 1) = (l.filter p).take n ↔
      (l.takeWhile p).length ≤ n ∧
        ((l.takeWhile p).length = n ∨ l.takeWhile p = l.filter p) := by
  have hpre := takeWhile_prefix_filter (p := p) l
  have hle := hpre.length_le
  rw [prefix_eq_iff ((List.take_prefix _ _).trans hpre) (List.take_prefix _ _),
    prefix_eq_iff hpre (List.prefix_refl _), List.length_take, List.length_take]
  omega

/-- The elements of a sorted list with a property, as a sorted set. -/
theorem filter_eq_sort {r : α → α → Prop} [DecidableRel r] [IsTrans α r] [Std.Antisymm r]
    [Std.Total r] {l : List α} {S : Finset α} (hl : l.Pairwise r) (hn : l.Nodup)
    (hmem : ∀ a, a ∈ l ∧ p a = true ↔ a ∈ S) : l.filter p = S.sort r := by
  apply List.Perm.eq_of_pairwise' (hl.filter p) (S.pairwise_sort r)
  rw [List.perm_ext_iff_of_nodup (hn.filter p) (S.sort_nodup r)]
  intro a
  rw [List.mem_filter, hmem, Finset.mem_sort]

/-- Along a row of elements nothing is lost exactly if no element with the property comes after one
without it. -/
theorem takeWhile_row_iff (f : Nat → α) (n : Nat) :
    ((List.range n).map f).takeWhile p = ((List.range n).map f).filter p ↔
      ∀ i j, i < j → j < n → p (f j) = true → p (f i) = true := by
  rw [takeWhile_eq_filter_iff, List.pairwise_map, List.pairwise_iff_getElem]
  simp only [List.length_range, List.getElem_range]
  constructor
  · intro h i j hij hj
    exact h i j (by omega) hj hij
  · intro h i j _ hj hij
    exact h i j hij hj

end OpcUaTestTool.FirstGap
