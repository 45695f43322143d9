import Mathlib.Tactic.Common

/-! Computations that come to a result, raise an error, or do not come to an end. -/
namespace OpcUaTestTool.Raising
variable {ε α β γ δ : Type}

@[simp]
theorem lift_some (a : α) : (liftM (some a) : ExceptT ε Option α) = pure a := rfl

theorem lift_map (f : α → β) (x : Option α) :
    (liftM (x.map f) : ExceptT ε Option β) = f <$> liftM x := by
  cases x with
  | none => rfl
  | some a => rfl

/-- All that can come of a computation. -/
theorem outcomes (x : ExceptT ε Option α) :
    x = ExceptT.mk none ∨ (∃ e, x = throw e) ∨ ∃ a, x = pure a := by
  match x with
  | none => exact Or.inl rfl
  | some (.error e) => exact Or.inr (Or.inl ⟨e, rfl⟩)
  | some (.ok a) => exact Or.inr (Or.inr ⟨a, rfl⟩)

theorem pure_inj {a b : α} : (pure a : ExceptT ε Option α) = pure b ↔ a = b :=
  ⟨fun h => Except.ok.inj (Option.some.inj h), congrArg pure⟩

/-- What both steps come to. -/
theorem bind_eq_pure {x : ExceptT ε Option α} {f : α → ExceptT ε Option β} {b : β} :
    x >>= f = pure b ↔ ∃ a, x = pure a ∧ f a = pure b := by
  rcases outcomes x with rfl | ⟨e, rfl⟩ | ⟨a, rfl⟩
  · constructor
    · intro h
      cases h
    · rintro ⟨_, h, _⟩
      cases h
  · constructor
    · intro h
      cases h
    · rintro ⟨_, h, _⟩
      cases h
  · simp [pure_inj]

theorem map_eq_pure {x : ExceptT ε Option α} {f : α → β} {b : β} :
    f <$> x = pure b ↔ ∃ a, x = pure a ∧ f a = b := by
  rw [map_eq_pure_bind, bind_eq_pure]
  simp only [pure_inj]

/-- What comes behind a step matters for its results only. -/
theorem bind_congr_of_pure {x : ExceptT ε Option α} {f g : α → ExceptT ε Option β}
    (h : ∀ a, x = pure a → f a = g a) : x >>= f = x >>= g := by
  rcases outcomes x with rfl | ⟨e, rfl⟩ | ⟨a, rfl⟩
  · rfl
  · rfl
  · rw [pure_bind, pure_bind]
    exact h a rfl

/-- Steps that agree in what they have in common may be followed by what agrees there. -/
theorem bind_congr_of_map {x : ExceptT ε Option α} {y : ExceptT ε Option β} {f : α → γ} {g : β → γ}
    {k : α → ExceptT ε Option δ} {k' : β → ExceptT ε Option δ} (h : f <$> x = g <$> y)
    (hk : ∀ a b, f a = g b → k a = k' b) : x >>= k = y >>= k' := by
  rcases outcomes y with rfl | ⟨e, rfl⟩ | ⟨b, rfl⟩
  · rcases outcomes x with rfl | ⟨e, rfl⟩ | ⟨a, rfl⟩
    · rfl
    · cases h
    · cases h
  · rcases outcomes x with rfl | ⟨e, rfl⟩ | ⟨a, rfl⟩
    · cases h
    · cases h
      rfl
    · cases h
  · obtain ⟨a, rfl, ha⟩ := map_eq_pure.mp (h.trans (map_pure g b))
    rw [pure_bind, pure_bind]
    exact hk a b ha

/-- It comes to a result, or raises an error. -/
def Ends (x : ExceptT ε Option α) : Prop := x.run.isSome

/-- Every error it raises is of a kind. -/
def Raises (P : ε → Prop) (x : ExceptT ε Option α) : Prop := ∀ e, x = throw e → P e

/-- Under a condition it comes to an end; its errors are of one kind, and its results of another. -/
structure Spec (E : Prop) (P : ε → Prop) (Q : α → Prop) (x : ExceptT ε Option α) : Prop where
  ends : E → Ends x
  raises : Raises P x
  result : ∀ a, x = pure a → Q a

section Spec
variable {E E' : Prop} {P : ε → Prop} {Q : α → Prop} {R : β → Prop}

theorem Spec.none (h : ¬ E) : Spec E P Q (ExceptT.mk none) := by
  refine ⟨fun hE => absurd hE h, fun e he => ?_, fun a ha => ?_⟩
  · cases he
  · cases ha

theorem Spec.pure {a : α} (h : Q a) : Spec E P Q (pure a) := by
  refine ⟨fun _ => rfl, fun e he => ?_, fun b hb => ?_⟩
  · cases he
  · exact pure_inj.mp hb ▸ h

theorem Spec.throw {e : ε} (h : P e) : Spec E P Q (throw e) := by
  refine ⟨fun _ => rfl, fun e' he => ?_, fun a ha => ?_⟩
  · cases he
    exact h
  · cases ha

theorem Spec.lift {x : Option α} (hE : E → x.isSome) (hQ : ∀ a, x = some a → Q a) :
    Spec E P Q (liftM x) := by
  cases x with
  | none => exact Spec.none fun h => Bool.false_ne_true (hE h)
  | some a => exact Spec.pure (hQ a rfl)

theorem Spec.weaken {R : α → Prop} {x : ExceptT ε Option α} (h : Spec E P Q x) (hE : E' → E)
    (hQ : ∀ a, Q a → R a) : Spec E' P R x :=
  ⟨fun h' => h.ends (hE h'), h.raises, fun a ha => hQ a (h.result a ha)⟩

/-- A step and what comes behind it, where its results are of their kind. -/
theorem Spec.bind {x : ExceptT ε Option α} {f : α → ExceptT ε Option β} (hx : Spec E P Q x)
    (hf : ∀ a, Q a → Spec E P R (f a)) : Spec E P R (x >>= f) := by
  rcases outcomes x with rfl | ⟨e, rfl⟩ | ⟨a, rfl⟩
  · exact Spec.none fun hE => Bool.false_ne_true (hx.ends hE)
  · exact Spec.throw (hx.raises e rfl)
  · rw [pure_bind]
    exact hf a (hx.result a rfl)

end Spec

end OpcUaTestTool.Raising
