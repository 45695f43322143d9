import Mathlib.Data.List.Perm.Basic
import Mathlib.Tactic.Common

/-! A first-in first-out queue in front of `k` servers, where every operation ends by giving at
most one waiting item to a free server. No server is ever left idle beside a waiting item, and
the items started are a prefix of the items submitted whose length is known in closed form. -/
namespace OpcUaTestTool.FifoSlots
variable {J : Type*}

structure Slots (J : Type*) where
  submitted : List J := []
  started : List J := []
  waiting : List J := []
  running : List J := []
  finished : List J := []

/-- The first waiting item goes to a server. -/
def Slots.start (s : Slots J) (j : J) (rest : List J) : Slots J :=
  { s with waiting := rest, running := j :: s.running, started := s.started ++ [j] }

/-- Hand the first waiting item to a server, if one is free. -/
def Slots.fill (k : Nat) (s : Slots J) : Slots J :=
  match s.waiting with
  | [] => s
  | j :: rest => if s.running.length < k then s.start j rest else s

def Slots.enqueue (s : Slots J) (j : J) : Slots J :=
  { s with submitted := s.submitted ++ [j], waiting := s.waiting ++ [j] }

/- `running` is what is left after `j`, in any order. -/
def Slots.release (s : Slots J) (j : J) (running : List J) : Slots J :=
  { s with running := running, finished := s.finished ++ [j] }

/-- Items wait, run or are finished, in the order in which they were submitted. -/
structure Slots.Ordered (k : Nat) (s : Slots J) : Prop where
  fifo : s.submitted = s.started ++ s.waiting
  partition : s.started.Perm (s.finished ++ s.running)
  bound : s.running.length ≤ k

/-- No server is idle beside a waiting item. -/
def Slots.Busy (k : Nat) (s : Slots J) : Prop := s.waiting = [] ∨ s.running.length = k

variable {k : Nat} {s : Slots J}

theorem Slots.fill_cases (k : Nat) (s : Slots J) :
    (s.fill k = s ∧ (s.waiting = [] ∨ k ≤ s.running.length)) ∨
    ∃ j rest, s.waiting = j :: rest ∧ s.running.length < k ∧ s.fill k = s.start j rest := by
  cases hw : s.waiting with
  | nil => exact Or.inl ⟨by simp [Slots.fill, hw], Or.inl rfl⟩
  | cons j rest =>
    by_cases hk : s.running.length < k
    · exact Or.inr ⟨j, rest, rfl, hk, by simp [Slots.fill, hw, hk]⟩
    · exact Or.inl ⟨by simp [Slots.fill, hw, hk], Or.inr (by omega)⟩

theorem Slots.Ordered.start (h : s.Ordered k) {j : J} {rest : List J}
    (hw : s.waiting = j :: rest) (hk : s.running.length < k) : (s.start j rest).Ordered k := by
  constructor
  · simp [Slots.start, h.fifo, hw]
  · have h1 : (s.started ++ [j]).Perm (j :: s.started) := List.perm_append_singleton j s.started
    have h2 : (j :: s.started).Perm (j :: (s.finished ++ s.running)) := h.partition.cons j
    have h3 : (j :: (s.finished ++ s.running)).Perm (s.finished ++ j :: s.running) :=
      List.perm_middle.symm
    exact (h1.trans h2).trans h3
  · simp only [Slots.start, List.length_cons]
    omega

theorem Slots.Ordered.fill (h : s.Ordered k) : (s.fill k).Ordered k := by
  cases s.fill_cases k with
  | inl hcase =>
    obtain ⟨he, _⟩ := hcase
    rw [he]
    exact h
  | inr hcase =>
    obtain ⟨j, rest, hw, hk, he⟩ := hcase
    rw [he]
    exact h.start hw hk

/-- Filling one slot is enough where at most one item or one server is out of place. -/
theorem Slots.busy_fill (hb : s.running.length ≤ k)
    (h : s.waiting.length ≤ 1 ∨ k ≤ s.running.length + 1) : (s.fill k).Busy k := by
  rcases s.fill_cases k with ⟨he, hw | hk⟩ | ⟨j, rest, hw, hk, he⟩
  · rw [he]
    exact Or.inl hw
  · rw [he]
    exact Or.inr (by omega)
  · rw [he]
    cases h with
    | inl h =>
      simp only [hw, List.length_cons] at h
      exact Or.inl (List.length_eq_zero_iff.mp (by simp only [Slots.start]; omega))
    | inr h => exact Or.inr (by simp only [Slots.start, List.length_cons]; omega)

theorem Slots.Ordered.enqueue (h : s.Ordered k) (j : J) : (s.enqueue j).Ordered k := by
  constructor
  · simp [Slots.enqueue, h.fifo]
  · exact h.partition
  · exact h.bound

theorem Slots.Ordered.release (h : s.Ordered k) {j : J} {running : List J}
    (hr : s.running.Perm (j :: running)) : (s.release j running).Ordered k := by
  constructor
  · exact h.fifo
  · have hp : s.started.Perm (s.finished ++ j :: running) :=
      h.partition.trans (hr.append_left s.finished)
    simpa [Slots.release] using hp
  · have hlen := hr.length_eq
    have hb := h.bound
    simp only [List.length_cons] at hlen
    simp only [Slots.release]
    omega

theorem Slots.busy_submit (h : s.Ordered k) (hb : s.Busy k) (j : J) :
    ((s.enqueue j).fill k).Busy k := by
  apply Slots.busy_fill (h.enqueue j).bound
  cases hb with
  | inl hw => exact Or.inl (by simp [Slots.enqueue, hw])
  | inr hk => exact Or.inr (by simp only [Slots.enqueue]; omega)

theorem Slots.busy_finish (h : s.Ordered k) (hb : s.Busy k) {j : J} {running : List J}
    (hr : s.running.Perm (j :: running)) : ((s.release j running).fill k).Busy k := by
  apply Slots.busy_fill (h.release hr).bound
  have hlen := hr.length_eq
  simp only [List.length_cons] at hlen
  cases hb with
  | inl hw => exact Or.inl (by simp [Slots.release, hw])
  | inr hk => exact Or.inr (by simp only [Slots.release]; omega)

/-- Where no server is idle, an attempt to fill a slot changes nothing. -/
theorem Slots.fill_of_busy (hb : s.Busy k) : s.fill k = s := by
  cases s.fill_cases k with
  | inl hcase =>
    obtain ⟨he, _⟩ := hcase
    exact he
  | inr hcase =>
    obtain ⟨j, rest, hw, hk, _⟩ := hcase
    cases hb with
    | inl h => simp [hw] at h
    | inr h => omega

/-- One operation: an item arrives, an item leaves, or nothing happens, and then one slot is
filled. -/
inductive Slots.Round (k : Nat) (s : Slots J) : Slots J → Prop where
  | submit (j : J) : s.Round k ((s.enqueue j).fill k)
  | finish (j : J) (running : List J) (hr : s.running.Perm (j :: running)) :
      s.Round k ((s.release j running).fill k)
  | retry : s.Round k (s.fill k)

theorem Slots.Round.ordered {t : Slots J} (hr : s.Round k t) (h : s.Ordered k) : t.Ordered k := by
  cases hr with
  | submit j => exact (h.enqueue j).fill
  | finish j running hp => exact (h.release hp).fill
  | retry => exact h.fill

theorem Slots.Round.busy {t : Slots J} (hr : s.Round k t) (h : s.Ordered k) (hb : s.Busy k) :
    t.Busy k := by
  cases hr with
  | submit j => exact Slots.busy_submit h hb j
  | finish j running hp => exact Slots.busy_finish h hb hp
  | retry =>
    rw [Slots.fill_of_busy hb]
    exact hb

/-- The items started are the first `finished + k` of those submitted, or all of them. -/
theorem Slots.started_eq_take (h : s.Ordered k) (hb : s.Busy k) :
    s.started = s.submitted.take (min s.submitted.length (s.finished.length + k)) := by
  have hlen := h.partition.length_eq
  have hbound := h.bound
  rw [List.length_append] at hlen
  have hsub : s.submitted.length = s.started.length + s.waiting.length := by
    rw [h.fifo, List.length_append]
  have hmin : min s.submitted.length (s.finished.length + k) = s.started.length := by
    cases hb with
    | inl hw =>
      simp only [hw, List.length_nil] at hsub
      omega
    | inr hk => omega
  rw [hmin, h.fifo]
  simp

end OpcUaTestTool.FifoSlots
