import Mathlib.Logic.Function.Basic
import Mathlib.Data.List.Basic

/-! Registries: maps in which the first value added under a key stays. -/

namespace Lib

variable {κ α : Type*}

/-- What is found under each key. -/
abbrev Registry (κ α : Type*) := κ → Option α

namespace Registry

/-- The registry in which nothing is found. -/
def empty : Registry κ α := fun _ => none

variable [DecidableEq κ]

/-- Add a value under a key, unless something is found there already. -/
def add (registry : Registry κ α) (key : κ) (value : α) : Registry κ α :=
  Function.update registry key ((registry key).or (some value))

theorem add_of_ne {registry : Registry κ α} {key key' : κ} (value : α) (other : key' ≠ key) :
    registry.add key value key' = registry key' :=
  Function.update_of_ne other _ _

theorem add_self (registry : Registry κ α) (key : κ) (value : α) :
    registry.add key value key = (registry key).or (some value) :=
  Function.update_self _ _ _

theorem add_of_isSome {registry : Registry κ α} {key : κ} (value : α)
    (found : (registry key).isSome) : registry.add key value = registry := by
  obtain ⟨value', found⟩ := Option.isSome_iff_exists.mp found
  rw [add, found, Option.some_or, ← found, Function.update_eq_self]

theorem isSome_add {registry : Registry κ α} {key : κ} (key' : κ) (value : α)
    (found : (registry key).isSome) : (registry.add key' value key).isSome := by
  by_cases same : key = key'
  · subst same
    rw [add_of_isSome value found]
    exact found
  · rw [add_of_ne value same]
    exact found

theorem add_comp {κ' : Type*} [DecidableEq κ'] {registry : Registry κ α}
    {registry' : Registry κ' α} {f : κ → κ'} {key key' : κ} {value : α}
    (same : registry key' = registry' (f key')) (atKey : registry key = registry' (f key))
    (apart : f key' = f key → key' = key) :
    registry.add key value key' = registry'.add (f key) value (f key') := by
  by_cases equal : key' = key
  · subst equal
    rw [add_self, add_self, atKey]
  · rw [add_of_ne _ equal, add_of_ne _ fun images => equal (apart images), same]

/-- After a list of additions the first value of the list under a key is found there. -/
theorem foldl_add {ι : Type*} (keyOf : ι → κ) (valueOf : ι → α) (entries : List ι)
    (registry : Registry κ α) (key : κ) :
    (entries.foldl (fun r e => r.add (keyOf e) (valueOf e)) registry) key =
      (registry key).or ((entries.find? fun e => keyOf e = key).map valueOf) := by
  induction entries generalizing registry with
  | nil => simp
  | cons entry entries ih =>
    rw [List.foldl_cons, ih]
    by_cases same : keyOf entry = key
    · -- The value is found from now on, unless an earlier one is.
      rw [← same, add_self, List.find?_cons_of_pos (by simp)]
      cases registry (keyOf entry) <;> rfl
    · rw [add_of_ne _ (Ne.symm same), List.find?_cons_of_neg (by simpa using same)]

/--
A registry that tells apart the names it is asked for finds a value of the very name, and nothing
under a name without values.
-/
theorem find_separated {ι ν : Type*} {keyOf : ι → κ} {nameOf : ι → ν} {entries : List ι} {key : κ}
    {name : ν} (same : ∀ e ∈ entries, nameOf e = name → keyOf e = key)
    (separated : ∀ e ∈ entries, keyOf e = key → nameOf e = name) :
    (∃ e ∈ entries, nameOf e = name ∧ (entries.find? fun e => keyOf e = key) = some e) ∨
      (∀ e ∈ entries, nameOf e ≠ name) ∧ (entries.find? fun e => keyOf e = key) = none := by
  cases found : entries.find? fun e => decide (keyOf e = key) with
  | some e =>
    left
    have member := List.mem_of_find?_eq_some found
    have keyed : keyOf e = key := by simpa using List.find?_some found
    exact ⟨e, member, separated e member keyed, rfl⟩
  | none =>
    right
    refine ⟨fun e member named => ?_, rfl⟩
    have absent := List.find?_eq_none.mp found e member
    exact absent (by simpa using same e member named)

end Registry

end Lib
