import Mathlib.Algebra.Group.Nat.Defs
import Mathlib.Data.List.Basic
import Mathlib.Tactic.Common

/-! Octets of a 64-bit address space, read and written as contiguous slices. -/

namespace Lib

/-- An address space: the octet held at every address. -/
abbrev Mem := UInt64 → UInt8

/-- The octets of a region, given by its first address and its length. -/
def slice (mem : Mem) (addr : UInt64) : Nat → List UInt8
  | 0 => []
  -- The rest of the region starts at the next address.
  | n + 1 => mem addr :: slice mem (addr + 1) n

/-- Storing octets from an address on; every other address keeps its octet. -/
def store (mem : Mem) (addr : UInt64) (octets : List UInt8) : Mem := fun at_ =>
  -- The distance from the first address selects the stored octet, if there is one.
  (octets[(at_ - addr).toNat]?).getD (mem at_)

@[simp] theorem length_slice (mem : Mem) (addr : UInt64) (n : Nat) :
    (slice mem addr n).length = n := by
  induction n generalizing addr with
  | zero => rfl
  | succ n ih => simp [slice, ih]

@[simp] theorem slice_eq_nil_iff {mem : Mem} {addr : UInt64} {n : Nat} :
    slice mem addr n = [] ↔ n = 0 := by
  rw [← List.length_eq_zero_iff, length_slice]

theorem slice_add (mem : Mem) (addr : UInt64) (m n : Nat) :
    slice mem addr (m + n) = slice mem addr m ++ slice mem (addr + UInt64.ofNat m) n := by
  -- Each octet moved into the first part shifts the second part by one address.
  induction m generalizing addr with
  | zero => simp [slice]
  | succ m ih =>
    have shift : addr + 1 + UInt64.ofNat m = addr + UInt64.ofNat (m + 1) := by
      rw [UInt64.ofNat_add, UInt64.add_assoc, UInt64.add_comm 1]
      rfl
    rw [Nat.succ_add_eq_add_succ, Nat.add_succ, slice, ih, shift]
    rfl

theorem take_slice (mem : Mem) (addr : UInt64) {m n : Nat} (within : m ≤ n) :
    (slice mem addr n).take m = slice mem addr m := by
  obtain ⟨rest, rfl⟩ := Nat.exists_eq_add_of_le within
  rw [slice_add, List.take_left' (length_slice ..)]

theorem drop_slice (mem : Mem) (addr : UInt64) {m n : Nat} (within : m ≤ n) :
    (slice mem addr n).drop m = slice mem (addr + UInt64.ofNat m) (n - m) := by
  obtain ⟨rest, rfl⟩ := Nat.exists_eq_add_of_le within
  rw [slice_add, List.drop_left' (length_slice ..), Nat.add_sub_cancel_left]

/-- The octet at a position of a region is the one held that far from its first address. -/
theorem getElem?_slice (mem : Mem) (addr : UInt64) {i n : Nat} (within : i < n) :
    (slice mem addr n)[i]? = some (mem (addr + UInt64.ofNat i)) := by
  induction n generalizing addr i with
  | zero => omega
  | succ n ih =>
    cases i with
    | zero => simp [slice]
    | succ i =>
      have shift : addr + 1 + UInt64.ofNat i = addr + UInt64.ofNat (i + 1) := by
        rw [UInt64.ofNat_add, UInt64.add_assoc, UInt64.add_comm 1]
        rfl
      rw [slice, List.getElem?_cons_succ, ih (addr + 1) (by omega), shift]

theorem slice_congr {mem mem' : Mem} {addr : UInt64} {n : Nat}
    (agree : ∀ i, i < n → mem (addr + UInt64.ofNat i) = mem' (addr + UInt64.ofNat i)) :
    slice mem addr n = slice mem' addr n := by
  -- Equal lists are compared position by position.
  apply List.ext_getElem?
  intro i
  by_cases within : i < n
  · rw [getElem?_slice _ _ within, getElem?_slice _ _ within, agree i within]
  · rw [List.getElem?_eq_none (by simpa using within),
      List.getElem?_eq_none (by simpa using within)]

theorem toNat_add_ofNat_sub {addr : UInt64} {i : Nat} (small : i < 2 ^ 64) :
    (addr + UInt64.ofNat i - addr).toNat = i := by
  have cancel : addr + UInt64.ofNat i - addr = UInt64.ofNat i := by grind
  rw [cancel, UInt64.toNat_ofNat', Nat.mod_eq_of_lt small]

theorem slice_store (mem : Mem) (addr : UInt64) {octets : List UInt8}
    (fits : octets.length ≤ 2 ^ 64) :
    slice (store mem addr octets) addr octets.length = octets := by
  -- Every position of the region is closer than the end of the stored octets.
  apply List.ext_getElem?
  intro i
  by_cases within : i < octets.length
  · rw [getElem?_slice _ _ within, store, toNat_add_ofNat_sub (by omega),
      List.getElem?_eq_getElem within]
    rfl
  · rw [List.getElem?_eq_none (by simpa using within), List.getElem?_eq_none (by omega)]

/-- A region that starts where the stored octets end keeps its octets. -/
theorem slice_store_after (mem : Mem) (addr : UInt64) (octets : List UInt8) {n : Nat}
    (fits : octets.length + n ≤ 2 ^ 64) :
    slice (store mem addr octets) (addr + UInt64.ofNat octets.length) n =
      slice mem (addr + UInt64.ofNat octets.length) n := by
  apply slice_congr
  intro i within
  -- The address lies past the last stored octet, so the store does not reach it.
  have sum : addr + UInt64.ofNat octets.length + UInt64.ofNat i =
      addr + UInt64.ofNat (octets.length + i) := by
    rw [UInt64.ofNat_add, UInt64.add_assoc]
  rw [sum, store, toNat_add_ofNat_sub (by omega), List.getElem?_eq_none (by omega)]
  rfl

/-- Copying a region out of memory; a region that runs past the last address cannot exist. -/
def memcpy (mem : Mem) (src n : UInt64) : Option (List UInt8) :=
  -- C has no object that wraps around the address space, so such a copy never completes.
  if src.toNat + n.toNat < 2 ^ 64 then some (slice mem src n.toNat) else none

end Lib
