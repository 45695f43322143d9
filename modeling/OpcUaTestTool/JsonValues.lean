import OpcUaTestTool.Numerals
import Mathlib.Data.Rat.Defs

/-! JSON values and the accesses of the program to them. The members of an object are an ordered
map, kept as a list sorted by key. Reading JSON text and writing it are parameters of what uses
them. -/
namespace OpcUaTestTool.JsonValues
open Numerals

inductive Json where
  | null
  | boolean (b : Bool)
  | integer (n : Int)
  | float (x : ℚ)
  | string (s : Bytes)
  | array (elements : List Json)
  | object (members : List (Bytes × Json))

/-- `j.at(key)`; it throws where there is no such member. -/
def Json.at (key : Bytes) : Json → Option Json
  | object members => members.lookup key
  | _ => none

/-- `j.get<std::string>()`; it throws for other types. -/
def Json.getString : Json → Option Bytes
  | string s => some s
  | _ => none

/-- `j[key] = value` on the members of an object. -/
def setMember (key : Bytes) (value : Json) : List (Bytes × Json) → List (Bytes × Json)
  | [] => [(key, value)]
  | (k, v) :: members =>
    if key = k then (key, value) :: members
    else if key < k then (key, value) :: (k, v) :: members
    else (k, v) :: setMember key value members

/-- An object from an initializer list of pairs. -/
def ofPairs (pairs : List (Bytes × Json)) : List (Bytes × Json) :=
  pairs.foldl (fun members p => setMember p.1 p.2 members) []

theorem lookup_cons_ne {key k : Bytes} (h : key ≠ k) (v : Json) (members : List (Bytes × Json)) :
    ((k, v) :: members).lookup key = members.lookup key := by
  rw [List.lookup_cons, beq_eq_false_iff_ne.mpr h]

@[simp] theorem lookup_setMember_self (key : Bytes) (value : Json)
    (members : List (Bytes × Json)) : (setMember key value members).lookup key = some value := by
  induction members with
  | nil => simp [setMember]
  | cons m members ih =>
    by_cases hk : key = m.1
    · simp [setMember, hk]
    · by_cases hlt : key < m.1
      · simp [setMember, hk, hlt]
      · simpa [setMember, hk, hlt, lookup_cons_ne hk] using ih

theorem lookup_setMember_ne {key other : Bytes} (h : other ≠ key) (value : Json)
    (members : List (Bytes × Json)) :
    (setMember key value members).lookup other = members.lookup other := by
  induction members with
  | nil => exact lookup_cons_ne h value []
  | cons m members ih =>
    obtain ⟨k, v⟩ := m
    by_cases hk : key = k
    · subst hk
      simp [setMember, lookup_cons_ne h]
    · by_cases hlt : key < k
      · simp [setMember, hk, hlt, lookup_cons_ne h]
      · by_cases ho : other = k
        · simp [setMember, hk, hlt, ho]
        · simpa [setMember, hk, hlt, lookup_cons_ne ho] using ih

end OpcUaTestTool.JsonValues
