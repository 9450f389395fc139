import Mathlib.Data.List.Basic
import Mathlib.Tactic.Ring

/-! Numbers to the base 128, the top bit of every octet but the last one set. -/

namespace Lib

/-- The seven bits that an octet adds to a number. -/
@[grind =] def addGroup (n : Nat) (c : UInt8) : Nat :=
  128 * n + c.toNat % 128

/-- The octets in front of the last one. -/
def leadOctets (n : Nat) : List UInt8 :=
  if n < 128 then [] else leadOctets (n / 128) ++ [UInt8.ofNat (128 + n / 128 % 128)]

/-- The octets of a number. -/
@[grind =] def groupOctets (n : Nat) : List UInt8 :=
  leadOctets n ++ [UInt8.ofNat (n % 128)]

theorem leadOctets_of_lt {n : Nat} (short : n < 128) : leadOctets n = [] := by
  rw [leadOctets, if_pos short]

theorem leadOctets_of_le {n : Nat} (long : 128 ≤ n) :
    leadOctets n = leadOctets (n / 128) ++ [UInt8.ofNat (128 + n / 128 % 128)] := by
  rw [leadOctets, if_neg (by omega)]

@[simp] theorem length_groupOctets (n : Nat) :
    (groupOctets n).length = (leadOctets n).length + 1 := by
  rw [groupOctets, List.length_append, List.length_singleton]

theorem le_of_mem_leadOctets {n : Nat} {c : UInt8} (lead : c ∈ leadOctets n) : 128 ≤ c.toNat := by
  induction n using Nat.strong_induction_on with
  | h n ih =>
    by_cases short : n < 128
    · rw [leadOctets_of_lt short] at lead
      cases lead
    · rw [leadOctets_of_le (by omega), List.mem_append, List.mem_singleton] at lead
      rcases lead with before | rfl
      · exact ih (n / 128) (by omega) before
      · rw [UInt8.toNat_ofNat_of_lt' (by rw [UInt8.size]; omega)]
        omega

theorem toNat_lastGroup (n : Nat) : (UInt8.ofNat (n % 128)).toNat = n % 128 := by
  rw [UInt8.toNat_ofNat_of_lt' (by rw [UInt8.size]; omega)]

/-- The octet at a place in front of the last one. -/
theorem leadOctets_eq_map (n : Nat) :
    leadOctets n = (List.range (leadOctets n).length).map fun i =>
      UInt8.ofNat (128 + n / 128 ^ ((leadOctets n).length - i) % 128) := by
  -- Each division leaves the places of what is in front as they are.
  induction n using Nat.strong_induction_on with
  | h n ih =>
    by_cases short : n < 128
    · rw [leadOctets_of_lt short]
      rfl
    · have step := leadOctets_of_le (n := n) (by omega)
      have count : (leadOctets n).length = (leadOctets (n / 128)).length + 1 := by
        rw [step, List.length_append, List.length_singleton]
      rw [count, List.range_succ, List.map_append, List.map_singleton, step]
      congr 1
      · conv_lhs => rw [ih (n / 128) (by omega)]
        apply List.map_congr_left
        intro i before
        rw [List.mem_range] at before
        have place : (leadOctets (n / 128)).length + 1 - i =
            (leadOctets (n / 128)).length - i + 1 := by omega
        rw [place, pow_succ', Nat.div_div_eq_div_mul]
      · simp

/-- What the octets in front of the last one add to a number. -/
theorem foldl_leadOctets (acc n : Nat) :
    (leadOctets n).foldl addGroup acc = acc * 128 ^ (leadOctets n).length + n / 128 := by
  induction n using Nat.strong_induction_on with
  | h n ih =>
    by_cases short : n < 128
    · rw [leadOctets_of_lt short, List.foldl_nil, List.length_nil]
      omega
    · have octet : (UInt8.ofNat (128 + n / 128 % 128)).toNat = 128 + n / 128 % 128 := by
        rw [UInt8.toNat_ofNat_of_lt' (by rw [UInt8.size]; omega)]
      rw [leadOctets_of_le (by omega), List.foldl_append, ih (n / 128) (by omega),
        List.foldl_cons, List.foldl_nil, addGroup, octet, List.length_append,
        List.length_singleton, pow_succ]
      have shares : 128 * (acc * 128 ^ (leadOctets (n / 128)).length + n / 128 / 128) =
          acc * (128 ^ (leadOctets (n / 128)).length * 128) + 128 * (n / 128 / 128) := by ring
      omega

theorem foldl_groupOctets (acc n : Nat) :
    (groupOctets n).foldl addGroup acc = acc * 128 ^ (groupOctets n).length + n := by
  rw [groupOctets, List.foldl_append, foldl_leadOctets, List.foldl_cons, List.foldl_nil, addGroup,
    toNat_lastGroup, List.length_append, List.length_singleton, pow_succ]
  have shares : 128 * (acc * 128 ^ (leadOctets n).length + n / 128) =
      acc * (128 ^ (leadOctets n).length * 128) + 128 * (n / 128) := by ring
  omega

/-- A number read from so many octets is below that power. -/
theorem foldl_addGroup_lt (acc : Nat) (octets : List UInt8) :
    octets.foldl addGroup acc < (acc + 1) * 128 ^ octets.length := by
  induction octets generalizing acc with
  | nil => simp
  | cons c octets ih =>
    have more := ih (addGroup acc c)
    have group : addGroup acc c + 1 ≤ (acc + 1) * 128 := by
      rw [addGroup]
      omega
    have scaled := Nat.mul_le_mul_right (128 ^ octets.length) group
    rw [List.foldl_cons, List.length_cons, pow_succ', ← Nat.mul_assoc]
    omega

/-- A number below a power has at most so many octets. -/
theorem length_groupOctets_le {n k : Nat} (some : 0 < k) (below : n < 128 ^ k) :
    (groupOctets n).length ≤ k := by
  induction k generalizing n with
  | zero => omega
  | succ k ih =>
    by_cases short : n < 128
    · rw [length_groupOctets, leadOctets_of_lt short]
      simp
    · have positive : 0 < k := by
        apply Nat.pos_of_ne_zero
        intro zero
        rw [zero] at below
        omega
      have less := ih (n := n / 128) positive (by
        rw [Nat.div_lt_iff_lt_mul (by decide), ← pow_succ]
        exact below)
      rw [length_groupOctets] at less ⊢
      rw [leadOctets_of_le (by omega), List.length_append, List.length_singleton]
      omega

theorem length_groupOctets_foldl {octets : List UInt8} (some : octets ≠ []) :
    (groupOctets (octets.foldl addGroup 0)).length ≤ octets.length := by
  apply length_groupOctets_le (List.length_pos_iff.mpr some)
  have below := foldl_addGroup_lt 0 octets
  rwa [Nat.zero_add, Nat.one_mul] at below

theorem length_groupOctets_mono {m n : Nat} (le : m ≤ n) :
    (groupOctets m).length ≤ (groupOctets n).length := by
  have read := foldl_addGroup_lt 0 (groupOctets n)
  rw [foldl_groupOctets] at read
  apply length_groupOctets_le (by simp)
  omega

end Lib
