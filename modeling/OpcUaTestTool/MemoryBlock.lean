import Mathlib.Data.List.Infix
import Mathlib.Data.List.TakeDrop

/-! Blocks of memory as lists of cells: growing a block, and writing inside its bounds. -/
namespace OpcUaTestTool.MemoryBlock
variable {α : Type*}

/-- The block of `n` cells with the contents of the old one as far as they fit. What the cells
beyond hold is left open. -/
def realloc (old : List α) (n : Nat) (fresh : Nat → α) : List α :=
  (List.range n).map fun i => (old[i]?).getD (fresh i)

/-- Copying `src` to the cells from `i` on. -/
def copy (block : List α) (i : Nat) (src : List α) (_ : i + src.length ≤ block.length) : List α :=
  block.take i ++ src ++ block.drop (i + src.length)

@[simp] theorem length_realloc (old : List α) (n : Nat) (fresh : Nat → α) :
    (realloc old n fresh).length = n := by
  simp [realloc]

@[simp] theorem length_copy (block : List α) (i : Nat) (src : List α)
    (h : i + src.length ≤ block.length) : (copy block i src h).length = block.length := by
  simp only [copy, List.length_append, List.length_take, List.length_drop]
  omega

/-- What the old block begins with is kept. -/
theorem prefix_realloc {old xs : List α} (h : xs <+: old) {n : Nat} (hn : xs.length ≤ n)
    (fresh : Nat → α) : xs <+: realloc old n fresh := by
  rw [List.prefix_iff_getElem?]
  intro i hi
  have hold : old[i]? = some xs[i] := List.prefix_iff_getElem?.mp h i hi
  simp [realloc, List.getElem?_range (show i < n by omega), hold]

/-- Behind what a block begins with stands what is copied there. -/
theorem prefix_copy {block xs src : List α} {i : Nat} (h : xs <+: block) (hi : i = xs.length)
    (hb : i + src.length ≤ block.length) : xs ++ src <+: copy block i src hb := by
  subst hi
  rw [copy, ← List.prefix_iff_eq_take.mp h]
  exact List.prefix_append _ _

/-- A block that begins with some elements and a terminator has them up to the terminator. -/
theorem terminated {block xs : List α} {z : α} (h : xs ++ [z] <+: block) :
    block.take xs.length = xs ∧ block[xs.length]? = some z := by
  obtain ⟨rest, rfl⟩ := h
  simp

end OpcUaTestTool.MemoryBlock
