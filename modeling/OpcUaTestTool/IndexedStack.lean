import Mathlib.Data.List.Basic
import Mathlib.Tactic.Common

/-! A stack whose values are addressed by integers: from 1 at the bottom upwards, or from -1 at the
top downwards. An operation that is given an index without a value, or more values to take than
there are, has no result. -/
namespace OpcUaTestTool.IndexedStack
variable {α : Type*}

/-- How many values are below the one an index leads to. -/
def position (s : List α) (i : Int) : Option Nat :=
  if 0 < i ∧ i ≤ s.length then some (i - 1).toNat
  else if i < 0 ∧ -i ≤ s.length then some (s.length + i).toNat
  else none

def value (s : List α) (i : Int) : Option α := (position s i).bind fun k => s[k]?

def pop (s : List α) (n : Nat) : Option (List α) :=
  if n ≤ s.length then some (s.take (s.length - n)) else none

/-- The value at an index is taken out, and what is above it moves down. -/
def remove (s : List α) (i : Int) : Option (List α) := (position s i).map s.eraseIdx

/-- The value at the top moves to an index, and what was there and above it moves up. -/
def insert (s : List α) (i : Int) : Option (List α) :=
  (position s i).bind fun k =>
    s.getLast?.map fun v => s.dropLast.take k ++ v :: s.dropLast.drop k

/-- The uppermost values are taken off; they are returned as they lay. -/
def popValues (s : List α) (n : Nat) : Option (List α × List α) :=
  (pop s n).map fun rest => (rest, s.drop rest.length)

theorem position_append {a b : List α} {i : Int} (hb : b ≠ [])
    (h : i = a.length + 1 ∨ i = -b.length) : position (a ++ b) i = some a.length := by
  have hlen : 0 < b.length := List.length_pos_of_ne_nil hb
  cases h with
  | inl h =>
    rw [position, if_pos ⟨by omega, by rw [List.length_append]; omega⟩]
    congr 1
    omega
  | inr h =>
    rw [position, if_neg (by omega), if_pos ⟨by omega, by rw [List.length_append]; omega⟩]
    rw [List.length_append]
    congr 1
    omega

theorem value_append {a b : List α} {v : α} {i : Int}
    (h : i = a.length + 1 ∨ i = -(b.length + 1)) : value (a ++ v :: b) i = some v := by
  have hp : position (a ++ v :: b) i = some a.length :=
    position_append (List.cons_ne_nil v b) (by simpa using h)
  rw [value, hp, Option.bind_some]
  simp

theorem remove_append {a b : List α} {v : α} {i : Int}
    (h : i = a.length + 1 ∨ i = -(b.length + 1)) : remove (a ++ v :: b) i = some (a ++ b) := by
  have hp : position (a ++ v :: b) i = some a.length :=
    position_append (List.cons_ne_nil v b) (by simpa using h)
  rw [remove, hp, Option.map_some]
  simp [List.eraseIdx_append_of_length_le]

theorem insert_append {a b : List α} {v : α} {i : Int}
    (h : i = a.length + 1 ∨ i = -(b.length + 1)) :
    insert (a ++ (b ++ [v])) i = some (a ++ v :: b) := by
  have hp : position (a ++ (b ++ [v])) i = some a.length :=
    position_append (by simp) (by simpa using h)
  rw [insert, hp, Option.bind_some, ← List.append_assoc, List.getLast?_concat, Option.map_some,
    List.dropLast_concat]
  simp

theorem pop_append (a b : List α) : pop (a ++ b) b.length = some a := by
  rw [pop, if_pos (by simp), List.length_append, Nat.add_sub_cancel]
  simp

theorem popValues_append (a b : List α) : popValues (a ++ b) b.length = some (a, b) := by
  rw [popValues, pop_append, Option.map_some]
  simp

end OpcUaTestTool.IndexedStack
