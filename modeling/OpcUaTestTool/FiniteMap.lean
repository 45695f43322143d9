import Mathlib.Data.List.AList

/-! Finite maps with at most one value for each key: the associative containers of the program
and its directories. The values are kept as a list, so that they can be counted. -/
namespace OpcUaTestTool.FiniteMap
variable {κ ν : Type*}

abbrev Map (κ ν : Type*) := AList fun _ : κ => ν

theorem entries_length (m : Map κ ν) : m.entries.length = m.keys.length := by
  simp [AList.keys, List.keys]

def values (m : Map κ ν) : List ν := m.entries.map Sigma.snd

def size (m : Map κ ν) : Nat := m.keys.length

theorem length_values (m : Map κ ν) : (values m).length = size m := by
  simp [values, size, entries_length]

@[simp] theorem values_empty : values (∅ : Map κ ν) = [] := rfl

@[simp] theorem size_empty : size (∅ : Map κ ν) = 0 := rfl

/-- Distinct keys of a map are no more than its entries. -/
theorem length_le_size {m : Map κ ν} {ks : List κ} (hn : ks.Nodup) (h : ∀ k ∈ ks, k ∈ m) :
    ks.length ≤ size m :=
  (List.subperm_of_subset hn fun k hk => AList.mem_keys.mp (h k hk)).length_le

variable [DecidableEq κ]

theorem entries_perm_of_lookup {m : Map κ ν} {a : κ} {b : ν} (h : m.lookup a = some b) :
    m.entries.Perm (⟨a, b⟩ :: (m.erase a).entries) := by
  have hmem : a ∈ m.entries.keys := AList.lookup_isSome.mp (by rw [h]; rfl)
  obtain ⟨b', l₁, l₂, _, hl, he⟩ := List.exists_of_kerase hmem
  have hb : b' ∈ m.lookup a := AList.mem_lookup_iff.mpr (by rw [hl]; simp)
  obtain rfl : b = b' := by rw [h] at hb; exact Option.some.inj hb
  have herase : (m.erase a).entries = l₁ ++ l₂ := he
  rw [herase, hl]
  exact List.perm_middle

theorem values_insert {m : Map κ ν} {a : κ} (b : ν) (h : a ∉ m) :
    values (m.insert a b) = b :: values m := by
  rw [values, AList.entries_insert_of_notMem h, List.map_cons]
  rfl

theorem values_erase {m : Map κ ν} {a : κ} {b : ν} (h : m.lookup a = some b) :
    (values m).Perm (b :: values (m.erase a)) := by
  have hp := (entries_perm_of_lookup h).map (fun e : Sigma fun _ : κ => ν => e.snd)
  simpa [values] using hp

theorem values_update {m : Map κ ν} {a : κ} (b' : ν) :
    values (m.insert a b') = b' :: values (m.erase a) := by
  rw [values, AList.entries_insert]
  rfl

theorem mem_values_of_lookup {m : Map κ ν} {a : κ} {b : ν} (h : m.lookup a = some b) :
    b ∈ values m :=
  (values_erase h).symm.subset List.mem_cons_self

/-- Storing under a key that is present leaves the keys as they are. -/
theorem keys_insert_perm {m : Map κ ν} {a : κ} {b : ν} (b' : ν) (h : m.lookup a = some b) :
    (m.insert a b').keys.Perm m.keys := by
  have hp := (entries_perm_of_lookup h).map (fun e : Sigma fun _ : κ => ν => e.fst)
  have hi : (m.insert a b').entries = ⟨a, b'⟩ :: (m.erase a).entries := AList.entries_insert
  have hk : (m.insert a b').keys = a :: ((m.erase a).entries.map fun e => e.fst) := by
    rw [AList.keys, hi]
    rfl
  rw [hk]
  exact hp.symm

theorem lookup_insert_ne {m : Map κ ν} {a a' : κ} {b : ν} (h : a' ≠ a) :
    (m.insert a b).lookup a' = m.lookup a' :=
  AList.lookup_insert_ne h

theorem lookup_insert_eq_some {m : Map κ ν} {a a' : κ} {b c : ν} :
    (m.insert a b).lookup a' = some c ↔ a' = a ∧ b = c ∨ a' ≠ a ∧ m.lookup a' = some c := by
  by_cases h : a' = a
  · subst a'
    simp
  · simp [lookup_insert_ne h, h]

theorem lookup_erase_eq_some {m : Map κ ν} {a a' : κ} {c : ν} :
    (m.erase a).lookup a' = some c ↔ a' ≠ a ∧ m.lookup a' = some c := by
  by_cases h : a' = a
  · subst a'
    simp
  · simp [AList.lookup_erase_ne h, h]

theorem erase_insert_self {m : Map κ ν} {a : κ} {b : ν} : (m.insert a b).erase a = m.erase a := by
  apply AList.ext
  change (m.insert a b).entries.kerase a = m.entries.kerase a
  rw [AList.entries_insert]
  exact List.kerase_cons_eq rfl

/-- An entry survives the insertion of a key that was absent. -/
theorem lookup_insert_fresh {m : Map κ ν} {a a' : κ} {b c : ν}
    (ha : a ∉ m) (h : m.lookup a' = some b) : (m.insert a c).lookup a' = some b := by
  have hne : a' ≠ a := by
    intro he
    rw [he, AList.lookup_eq_none.mpr ha] at h
    simp at h
  rw [lookup_insert_ne hne, h]

end OpcUaTestTool.FiniteMap
