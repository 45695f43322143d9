import OpcUaTestTool.FiniteMap

/-! Processes of which some are inside a section that no other one may disturb. -/
namespace OpcUaTestTool.CriticalSections
open FiniteMap
variable {κ π : Type*} [DecidableEq κ] {busy : π → Prop}

def Idle (busy : π → Prop) (ps : Map κ π) : Prop := ∀ i p, ps.lookup i = some p → ¬ busy p

/-- No process but this one is inside. -/
def Alone (busy : π → Prop) (ps : Map κ π) (i : κ) : Prop :=
  ∀ j p, j ≠ i → ps.lookup j = some p → ¬ busy p

def Exclusive (busy : π → Prop) (ps : Map κ π) : Prop :=
  ∀ i p, ps.lookup i = some p → busy p → Alone busy ps i

instance [DecidablePred busy] (ps : Map κ π) : Decidable (Idle busy ps) :=
  decidable_of_iff (∀ i ∈ ps.keys, ∀ p ∈ ps.lookup i, ¬ busy p) (by
    constructor
    · intro h i p hp
      exact h i (AList.mem_keys.mp (AList.lookup_isSome.mp (by rw [hp]; rfl))) p hp
    · intro h i _ p hp
      exact h i p hp)

instance [DecidablePred busy] (ps : Map κ π) (i : κ) : Decidable (Alone busy ps i) :=
  decidable_of_iff (∀ j ∈ ps.keys, j ≠ i → ∀ p ∈ ps.lookup j, ¬ busy p) (by
    constructor
    · intro h j p hne hp
      exact h j (AList.mem_keys.mp (AList.lookup_isSome.mp (by rw [hp]; rfl))) hne p hp
    · intro h j _ hne p hp
      exact h j p hne hp)

theorem idle_empty : Idle busy (∅ : Map κ π) := by
  intro i p hp
  cases hp

theorem Idle.alone {ps : Map κ π} (h : Idle busy ps) (i : κ) : Alone busy ps i :=
  fun j p _ hp => h j p hp

theorem Idle.exclusive {ps : Map κ π} (h : Idle busy ps) : Exclusive busy ps :=
  fun i p hp hb => absurd hb (h i p hp)

theorem Alone.insert {ps : Map κ π} {i : κ} (h : Alone busy ps i) (p : π) :
    Alone busy (ps.insert i p) i := by
  intro j q hne hq
  rw [AList.lookup_insert_ne hne] at hq
  exact h j q hne hq

theorem Exclusive.insert {ps : Map κ π} {i : κ} (h : Alone busy ps i) (p : π) :
    Exclusive busy (ps.insert i p) := by
  intro j q hq hb
  by_cases hne : j = i
  · exact hne ▸ h.insert p
  · exact absurd hb (h.insert p j q hne hq)

theorem Idle.insert {ps : Map κ π} {i : κ} (h : Alone busy ps i) {p : π} (hp : ¬ busy p) :
    Idle busy (ps.insert i p) := by
  intro j q hq
  cases lookup_insert_eq_some.mp hq with
  | inl hq => exact hq.2 ▸ hp
  | inr hq => exact h j q hq.1 hq.2

theorem Idle.erase {ps : Map κ π} {i : κ} (h : Alone busy ps i) : Idle busy (ps.erase i) := by
  intro j q hq
  have hback := lookup_erase_eq_some.mp hq
  exact h j q hback.1 hback.2

/-- A process that is not inside changes nothing about who is. -/
theorem Exclusive.insert_outside {ps : Map κ π} {i : κ} (h : Exclusive busy ps) {p : π}
    (hp : ¬ busy p) : Exclusive busy (ps.insert i p) := by
  intro j q hq hb k r hne hr
  cases lookup_insert_eq_some.mp hq with
  | inl hq => exact absurd (hq.2 ▸ hb) hp
  | inr hq =>
    cases lookup_insert_eq_some.mp hr with
    | inl hr => exact hr.2 ▸ hp
    | inr hr => exact h j q hq.2 hb k r hne hr.2

/-- A process inside may change, and one that is outside stays there. -/
theorem Exclusive.replace {ps : Map κ π} {i : κ} {p q : π} (h : Exclusive busy ps)
    (hl : ps.lookup i = some p) (hb : busy q → busy p) : Exclusive busy (ps.insert i q) := by
  by_cases hq : busy q
  · exact Exclusive.insert (h i p hl (hb hq)) q
  · exact h.insert_outside hq

theorem Exclusive.erase {ps : Map κ π} (h : Exclusive busy ps) (i : κ) :
    Exclusive busy (ps.erase i) := by
  have hback : ∀ j p, (ps.erase i).lookup j = some p → ps.lookup j = some p :=
    fun j p hp => (lookup_erase_eq_some.mp hp).2
  intro j p hp hb k q hne hq
  exact h j p (hback j p hp) hb k q hne (hback k q hq)

theorem Idle.of_insert {ps : Map κ π} {i : κ} {p : π} (h : Idle busy (ps.insert i p))
    (hi : ∀ q, ps.lookup i = some q → ¬ busy q) : Idle busy ps := by
  intro j q hq
  by_cases hj : j = i
  · exact hi q (hj ▸ hq)
  · exact h j q (by rw [AList.lookup_insert_ne hj, hq])

theorem Idle.of_erase {ps : Map κ π} {i : κ} (h : Idle busy (ps.erase i))
    (hi : ∀ q, ps.lookup i = some q → ¬ busy q) : Idle busy ps := by
  intro j q hq
  by_cases hj : j = i
  · exact hi q (hj ▸ hq)
  · exact h j q (by rw [AList.lookup_erase_ne hj, hq])

/-- A key that is not there has no process, inside or outside. -/
theorem outside_of_notMem {ps : Map κ π} {i : κ} (h : i ∉ ps) :
    ∀ q, ps.lookup i = some q → ¬ busy q := by
  intro q hq
  exact absurd (AList.lookup_isSome.mp (by rw [hq]; rfl)) h

end OpcUaTestTool.CriticalSections
