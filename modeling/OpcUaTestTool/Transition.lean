import Mathlib.Data.Option.Basic
import Mathlib.Tactic.Common

/-! Runs of a partial step function over labelled actions, for any state and action types.
All nondeterminism of a system is in the action, so that a run can be evaluated. -/
namespace OpcUaTestTool.Transition
variable {σ α : Type*} {step : σ → α → Option σ}

/-- The state after a list of actions, if each of them was enabled when its turn came. -/
def run (step : σ → α → Option σ) : σ → List α → Option σ
  | s, [] => some s
  | s, a :: as => (step s a).bind fun t => run step t as

@[simp] theorem run_nil (s : σ) : run step s [] = some s := rfl

theorem run_cons_eq_some {s u : σ} {a : α} {as : List α} :
    run step s (a :: as) = some u ↔ ∃ t, step s a = some t ∧ run step t as = some u := by
  simp [run, Option.bind_eq_some_iff]

theorem run_append (s : σ) (as bs : List α) :
    run step s (as ++ bs) = (run step s as).bind fun t => run step t bs := by
  induction as generalizing s with
  | nil => rfl
  | cons a as ih =>
    cases h : step s a with
    | none => simp [run, h]
    | some t => simpa [run, h] using ih t

/-- What holds at the start and survives every step holds at the end of every run. -/
theorem run_invariant {inv : σ → Prop} (hstep : ∀ s a t, inv s → step s a = some t → inv t)
    {s u : σ} {as : List α} (hs : inv s) (h : run step s as = some u) : inv u := by
  induction as generalizing s with
  | nil => simp only [run_nil, Option.some.injEq] at h; exact h ▸ hs
  | cons a as ih =>
    obtain ⟨t, ht, hu⟩ := run_cons_eq_some.mp h
    exact ih (hstep s a t hs ht) hu

/-- Every step taken along the actions meets a condition on the state before it. -/
def Meets (step : σ → α → Option σ) (cond : σ → α → Prop) : σ → List α → Prop
  | _, [] => True
  | s, a :: as => cond s a ∧ ∀ t, step s a = some t → Meets step cond t as

/-- Every state passed along the actions, the first one included, satisfies a predicate. -/
def Along (step : σ → α → Option σ) (P : σ → Prop) : σ → List α → Prop
  | s, [] => P s
  | s, a :: as => P s ∧ ∀ t, step s a = some t → Along step P t as

variable {cond good : σ → α → Prop} {inv P : σ → Prop}

theorem meets_append {s : σ} {as bs : List α} (ha : Meets step cond s as)
    (hb : ∀ t, run step s as = some t → Meets step cond t bs) : Meets step cond s (as ++ bs) := by
  induction as generalizing s with
  | nil => exact hb s rfl
  | cons a as ih =>
    refine ⟨ha.1, fun t ht => ih (ha.2 t ht) fun u hu => hb u ?_⟩
    exact run_cons_eq_some.mpr ⟨t, ht, hu⟩

theorem Along.head {s : σ} {as : List α} (h : Along step P s as) : P s := by
  cases as with
  | nil => exact h
  | cons a as => exact h.1

/-- What follows from an invariant that is kept under a condition holds along every run that meets
the condition. -/
theorem along_of_invariant
    (hstep : ∀ s a t, inv s → cond s a → step s a = some t → inv t)
    (hP : ∀ s, inv s → P s) {s : σ} {as : List α} (hs : inv s) (hm : Meets step cond s as) :
    Along step P s as := by
  induction as generalizing s with
  | nil => exact hP s hs
  | cons a as ih => exact ⟨hP s hs, fun t ht => ih (hstep s a t hs hm.1 ht) (hm.2 t ht)⟩

theorem run_invariant_of_meets
    (hstep : ∀ s a t, inv s → cond s a → step s a = some t → inv t)
    {s u : σ} {as : List α} (hs : inv s) (hm : Meets step cond s as)
    (h : run step s as = some u) : inv u := by
  induction as generalizing s with
  | nil => simp only [run_nil, Option.some.injEq] at h; exact h ▸ hs
  | cons a as ih =>
    obtain ⟨t, ht, hu⟩ := run_cons_eq_some.mp h
    exact ih (hstep s a t hs hm.1 ht) (hm.2 t ht) hu

theorem Meets.and_actions {A : α → Prop} {s : σ} {as : List α} (hm : Meets step cond s as)
    (hA : ∀ a ∈ as, A a) : Meets step (fun s a => cond s a ∧ A a) s as := by
  induction as generalizing s with
  | nil => trivial
  | cons a as ih =>
    refine ⟨⟨hm.1, hA a List.mem_cons_self⟩, fun t ht => ?_⟩
    exact ih (hm.2 t ht) fun b hb => hA b (List.mem_cons_of_mem a hb)

/-- An invariant kept under a condition turns the condition into a property of each step. -/
theorem meets_of_meets
    (hstep : ∀ s a t, inv s → cond s a → step s a = some t → inv t)
    (hgood : ∀ s a t, inv s → cond s a → step s a = some t → good s a)
    {s u : σ} {as : List α} (hs : inv s) (hm : Meets step cond s as)
    (h : run step s as = some u) : Meets step good s as := by
  induction as generalizing s with
  | nil => trivial
  | cons a as ih =>
    obtain ⟨t, ht, hu⟩ := run_cons_eq_some.mp h
    refine ⟨hgood s a t hs hm.1 ht, ?_⟩
    intro t' ht'
    obtain rfl : t = t' := by rw [ht] at ht'; exact Option.some.inj ht'
    exact ih (hstep s a t hs hm.1 ht) (hm.2 t ht) hu

/-- A condition that follows from another at each step taken follows along the whole run. -/
theorem Meets.imp (hgood : ∀ s a t, cond s a → step s a = some t → good s a)
    {s u : σ} {as : List α} (hm : Meets step cond s as) (h : run step s as = some u) :
    Meets step good s as := by
  have hkeep : ∀ s a t, (fun _ : σ => True) s → cond s a → step s a = some t →
      (fun _ : σ => True) t := fun _ _ _ h _ _ => h
  exact meets_of_meets hkeep (fun s a t _ hc ht => hgood s a t hc ht) trivial hm h

/-- Conditions that are the same under an invariant are the same along the runs that keep it. -/
theorem meets_congr {good' : σ → α → Prop}
    (hstep : ∀ s a t, inv s → cond s a → step s a = some t → inv t)
    (heq : ∀ s a, inv s → (good s a ↔ good' s a)) {s : σ} {as : List α} (hs : inv s)
    (hm : Meets step cond s as) : Meets step good s as ↔ Meets step good' s as := by
  induction as generalizing s with
  | nil => exact Iff.rfl
  | cons a as ih =>
    refine and_congr (heq s a hs) (forall_congr' fun t => ?_)
    exact imp_congr_right fun ht => ih (hstep s a t hs hm.1 ht) (hm.2 t ht)

theorem along_of_meets
    (hstep : ∀ s a t, inv s → step s a = some t → inv t)
    (hP : ∀ s a t, inv s → P s → cond s a → step s a = some t → P t)
    {s : σ} {as : List α} (hs : inv s) (h0 : P s) (hm : Meets step cond s as) :
    Along step P s as := by
  induction as generalizing s with
  | nil => exact h0
  | cons a as ih =>
    refine ⟨h0, ?_⟩
    intro t ht
    exact ih (hstep s a t hs ht) (hP s a t hs h0 hm.1 ht) (hm.2 t ht)

/-- The converse: a condition that is forced by the predicate after a step was met by each. -/
theorem meets_of_along
    (hstep : ∀ s a t, inv s → step s a = some t → inv t)
    (hcond : ∀ s a t, inv s → P s → step s a = some t → P t → cond s a)
    {s u : σ} {as : List α} (hs : inv s) (ha : Along step P s as)
    (h : run step s as = some u) : Meets step cond s as := by
  induction as generalizing s with
  | nil => trivial
  | cons a as ih =>
    obtain ⟨t, ht, hu⟩ := run_cons_eq_some.mp h
    refine ⟨hcond s a t hs ha.1 ht (ha.2 t ht).head, ?_⟩
    intro t' ht'
    obtain rfl : t = t' := by rw [ht] at ht'; exact Option.some.inj ht'
    exact ih (hstep s a t hs ht) (ha.2 t ht) hu

/-- A condition that each step needs and that is enough for it decides about whole runs. -/
theorem along_iff_meets
    (hstep : ∀ s a t, inv s → step s a = some t → inv t)
    (hP : ∀ s a t, inv s → P s → cond s a → step s a = some t → P t)
    (hcond : ∀ s a t, inv s → P s → step s a = some t → P t → cond s a)
    {s u : σ} {as : List α} (hs : inv s) (h0 : P s) (h : run step s as = some u) :
    Along step P s as ↔ Meets step cond s as :=
  ⟨fun ha => meets_of_along hstep hcond hs ha h, fun hm => along_of_meets hstep hP hs h0 hm⟩

instance decidableMeets [∀ s a, Decidable (cond s a)] :
    ∀ (s : σ) (as : List α), Decidable (Meets step cond s as)
  | _, [] => isTrue trivial
  | s, a :: as =>
    match h : step s a with
    | none => decidable_of_iff (cond s a) (by simp [Meets, h])
    | some t =>
      have := decidableMeets t as
      decidable_of_iff (cond s a ∧ Meets step cond t as) (by simp [Meets, h])

end OpcUaTestTool.Transition
