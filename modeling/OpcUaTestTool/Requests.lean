import OpcUaTestTool.FiniteMap

/-! Requests of one kind, each answered at most once and in any order: they are numbered as they
are issued, and in flight until they are finished. -/
namespace OpcUaTestTool.Requests
open FiniteMap
variable {α : Type*}

structure Channel (α : Type*) where
  issued : Nat := 0
  inFlight : Map Nat α := ∅

def Channel.issue (c : Channel α) (request : α) : Channel α :=
  { issued := c.issued + 1, inFlight := c.inFlight.insert c.issued request }

def Channel.finish (c : Channel α) (n : Nat) : Channel α :=
  { c with inFlight := c.inFlight.erase n }

/-- The request issued last is in flight. -/
def Channel.Awaiting (c : Channel α) : Prop := ∃ n ∈ c.inFlight, n + 1 = c.issued

instance (c : Channel α) : Decidable c.Awaiting :=
  decidable_of_iff (∃ n ∈ c.inFlight.keys, n + 1 = c.issued)
    (by simp only [Channel.Awaiting, AList.mem_keys])

/-- What holds unless the answer to the request issued last is still to come. -/
def Settled (c : Channel α) (P : Prop) : Prop := c.Awaiting ∨ P

theorem awaiting_issue (c : Channel α) (request : α) : (c.issue request).Awaiting :=
  ⟨c.issued, (AList.mem_insert _).mpr (Or.inl rfl), rfl⟩

theorem settled_issue (c : Channel α) (request : α) (P : Prop) : Settled (c.issue request) P :=
  Or.inl (awaiting_issue c request)

theorem Settled.of_quiet {c : Channel α} {P : Prop} (h : Settled c P)
    (hc : c.inFlight = ∅) : P := by
  cases h with
  | inl h =>
    obtain ⟨n, hn, _⟩ := h
    rw [hc] at hn
    exact absurd hn (AList.notMem_empty n)
  | inr h => exact h

/-- Finishing a request settles what the last one establishes and what the others leave alone. -/
theorem Settled.finish {c : Channel α} {P Q : Prop} (h : Settled c P) (n : Nat)
    (hlast : n + 1 = c.issued → Q) (hkeep : ¬ c.Awaiting → P → Q) : Settled (c.finish n) Q := by
  by_cases hn : n + 1 = c.issued
  · exact Or.inr (hlast hn)
  · by_cases ha : c.Awaiting
    · obtain ⟨m, hm, hlt⟩ := ha
      have hne : m ≠ n := by
        rintro rfl
        exact hn hlt
      exact Or.inl ⟨m, AList.mem_erase.mpr ⟨hne, hm⟩, hlt⟩
    · exact Or.inr (hkeep ha (h.resolve_left ha))

end OpcUaTestTool.Requests
