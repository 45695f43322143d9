import Mathlib.Data.List.Basic
import Mathlib.Tactic.Common

/-! File descriptors of a process. What is opened takes the lowest number that is free. -/
namespace OpcUaTestTool.FileDescriptors
variable {F : Type*}

/- The files by their numbers; all numbers behind the last one are free. -/
abbrev Fds (F : Type*) := List (Option F)

def Fds.file : Fds F → Nat → Option F
  | [], _ => none
  | f :: _, 0 => f
  | _ :: t, fd + 1 => Fds.file t fd

def Fds.put : Fds F → Nat → Option F → Fds F
  | [], 0, f => [f]
  | [], fd + 1, f => none :: Fds.put [] fd f
  | _ :: t, 0, f => f :: t
  | g :: t, fd + 1, f => g :: Fds.put t fd f

/-- The lowest descriptor that is free. -/
def Fds.free : Fds F → Nat
  | [] => 0
  | none :: _ => 0
  | some _ :: t => Fds.free t + 1

def Fds.openFile (t : Fds F) (f : F) : Fds F := t.put t.free (some f)

def Fds.close (t : Fds F) (fd : Nat) : Fds F := t.put fd none

/-- Closes the descriptors from `first` up to `last`. -/
def Fds.closeFrom (t : Fds F) (first last : Nat) : Fds F :=
  (List.range' first (last - first)).foldl Fds.close t

/-- Leaves everything as it is where `fd` is not open. -/
def Fds.dup2 (t : Fds F) (fd fd' : Nat) : Fds F :=
  match t.file fd with
  | some f => t.put fd' (some f)
  | none => t

theorem file_put (t : Fds F) (fd : Nat) (f : Option F) (fd' : Nat) :
    (t.put fd f).file fd' = if fd' = fd then f else t.file fd' := by
  induction fd generalizing t fd' with
  | zero =>
    cases t with
    | nil => cases fd' <;> simp [Fds.put, Fds.file]
    | cons g t => cases fd' <;> simp [Fds.put, Fds.file]
  | succ fd ih =>
    cases t with
    | nil =>
      cases fd' with
      | zero => simp [Fds.put, Fds.file]
      | succ fd' => simpa [Fds.put, Fds.file] using ih [] fd'
    | cons g t =>
      cases fd' with
      | zero => simp [Fds.put, Fds.file]
      | succ fd' => simpa [Fds.put, Fds.file] using ih t fd'

theorem file_free (t : Fds F) : t.file t.free = none := by
  induction t with
  | nil => rfl
  | cons f t ih =>
    cases f with
    | none => rfl
    | some f => simpa [Fds.free, Fds.file] using ih

theorem free_le {t : Fds F} {fd : Nat} (h : t.file fd = none) : t.free ≤ fd := by
  induction t generalizing fd with
  | nil => exact Nat.zero_le fd
  | cons f t ih =>
    cases f with
    | none => exact Nat.zero_le fd
    | some f =>
      cases fd with
      | zero => cases h
      | succ fd => exact Nat.succ_le_succ (ih h)

theorem lt_free_iff {t : Fds F} {fd : Nat} : fd < t.free ↔ ∀ n ≤ fd, t.file n ≠ none := by
  constructor
  · intro h n hn hfree
    have := free_le hfree
    omega
  · intro h
    by_contra hlt
    exact h t.free (by omega) (file_free t)

theorem file_openFile (t : Fds F) (f : F) (fd : Nat) :
    (t.openFile f).file fd = if fd = t.free then some f else t.file fd := file_put t _ _ fd

theorem file_close (t : Fds F) (fd fd' : Nat) :
    (t.close fd).file fd' = if fd' = fd then none else t.file fd' := file_put t fd none fd'

theorem file_dup2 (t : Fds F) (fd fd' n : Nat) :
    (t.dup2 fd fd').file n =
      if n = fd' ∧ t.file fd ≠ none then t.file fd else t.file n := by
  cases h : t.file fd with
  | none => simp [Fds.dup2, h]
  | some f => simp [Fds.dup2, h, file_put]

theorem file_closeAll (t : Fds F) (fds : List Nat) (fd : Nat) :
    (fds.foldl Fds.close t).file fd = if fd ∈ fds then none else t.file fd := by
  induction fds generalizing t with
  | nil => rfl
  | cons n fds ih =>
    rw [List.foldl_cons, ih, file_close]
    by_cases hmem : fd ∈ fds
    · simp [hmem]
    · simp [hmem, List.mem_cons]

theorem file_closeFrom (t : Fds F) (first last fd : Nat) :
    (t.closeFrom first last).file fd =
      if first ≤ fd ∧ fd < last then none else t.file fd := by
  rw [Fds.closeFrom, file_closeAll]
  apply if_congr _ rfl rfl
  rw [List.mem_range'_1]
  omega

theorem mem_iff_file {t : Fds F} {f : F} : some f ∈ t ↔ ∃ fd, t.file fd = some f := by
  induction t with
  | nil => simp [Fds.file]
  | cons g t ih =>
    rw [List.mem_cons, ih]
    constructor
    · rintro (heq | ⟨fd, hfd⟩)
      · exact ⟨0, heq.symm⟩
      · exact ⟨fd + 1, hfd⟩
    · rintro ⟨fd, hfd⟩
      cases fd with
      | zero => exact Or.inl hfd.symm
      | succ fd => exact Or.inr ⟨fd, hfd⟩

theorem mem_of_put {t : Fds F} {fd : Nat} {g : Option F} {f : F} (h : some f ∈ t.put fd g) :
    g = some f ∨ some f ∈ t := by
  obtain ⟨n, hn⟩ := mem_iff_file.mp h
  rw [file_put] at hn
  by_cases heq : n = fd
  · exact Or.inl (by rwa [if_pos heq] at hn)
  · exact Or.inr (mem_iff_file.mpr ⟨n, by rwa [if_neg heq] at hn⟩)

theorem mem_of_openFile {t : Fds F} {f g : F} (h : some f ∈ t.openFile g) : f = g ∨ some f ∈ t := by
  cases mem_of_put h with
  | inl heq => exact Or.inl (Option.some.inj heq).symm
  | inr hold => exact Or.inr hold

theorem mem_of_close {t : Fds F} {fd : Nat} {f : F} (h : some f ∈ t.close fd) : some f ∈ t :=
  (mem_of_put h).resolve_left (by simp)

theorem mem_of_dup2 {t : Fds F} {fd fd' : Nat} {f : F} (h : some f ∈ t.dup2 fd fd') :
    some f ∈ t := by
  cases hfile : t.file fd with
  | none => simpa [Fds.dup2, hfile] using h
  | some g =>
    simp only [Fds.dup2, hfile] at h
    cases mem_of_put h with
    | inl heq => exact mem_iff_file.mpr ⟨fd, hfile.trans heq⟩
    | inr hold => exact hold

theorem mem_of_closeFrom {t : Fds F} {first last : Nat} {f : F}
    (h : some f ∈ t.closeFrom first last) : some f ∈ t := by
  obtain ⟨fd, hfd⟩ := mem_iff_file.mp h
  rw [file_closeFrom] at hfd
  by_cases hclosed : first ≤ fd ∧ fd < last
  · rw [if_pos hclosed] at hfd
    cases hfd
  · exact mem_iff_file.mpr ⟨fd, by rwa [if_neg hclosed] at hfd⟩

/-! ### Numbers that are free -/

def Fds.freeBelow (t : Fds F) (n : Nat) : Nat := (List.range n).countP fun fd => (t.file fd).isNone

theorem freeBelow_succ (t : Fds F) (n : Nat) :
    t.freeBelow (n + 1) = t.freeBelow n + if t.file n = none then 1 else 0 := by
  rw [Fds.freeBelow, Fds.freeBelow, List.range_succ, List.countP_append, List.countP_singleton]
  simp

theorem freeBelow_pos_iff {t : Fds F} {n : Nat} : 0 < t.freeBelow n ↔ t.free < n := by
  induction n with
  | zero => simp [Fds.freeBelow]
  | succ n ih =>
    rw [freeBelow_succ]
    by_cases hn : t.file n = none
    · have := free_le hn
      simp only [hn, if_true]
      omega
    · have hne : t.free ≠ n := fun heq => hn (heq ▸ file_free t)
      simp only [hn, if_false, Nat.add_zero, ih]
      omega

/-- What is opened takes one of the free numbers. -/
theorem freeBelow_openFile (t : Fds F) (f : F) (n : Nat) :
    (t.openFile f).freeBelow n = t.freeBelow n - 1 := by
  induction n with
  | zero => rfl
  | succ n ih =>
    have hpos := freeBelow_pos_iff (t := t) (n := n)
    rw [freeBelow_succ, freeBelow_succ, ih, file_openFile]
    by_cases heq : n = t.free
    · have hfree : t.file n = none := heq ▸ file_free t
      simp only [if_pos heq, hfree, if_true, reduceCtorEq, if_false]
      omega
    · by_cases hn : t.file n = none
      · have := free_le hn
        simp only [if_neg heq, hn, if_true]
        omega
      · simp only [if_neg heq, hn, if_false, Nat.add_zero]

end OpcUaTestTool.FileDescriptors
