import Esnacc.Lib.Bits
import Mathlib.Data.List.Basic
import Mathlib.Data.List.Induction
import Mathlib.Tactic.IntervalCases
import Mathlib.Tactic.Ring

/-! Numbers written as octets or as bits, the most significant one first, and 32-bit words. -/

namespace Lib

/-! ## Octets and bits -/

/-- The number that some bits write. -/
def ofBits (bits : List Bool) : Nat :=
  bits.foldl (fun n bit => 2 * n + bit.toNat) 0

/-- The number that some octets write. -/
def ofOctets (octets : List UInt8) : Nat :=
  octets.foldl (fun n c => 256 * n + c.toNat) 0

/-- The number that some octets write in two's complement. -/
@[grind =] def signedOf (octets : List UInt8) : Int :=
  match octets with
  | [] => 0
  | first :: _ =>
    if first < 0x80 then ofOctets octets else ofOctets octets - 256 ^ octets.length

@[simp] theorem ofBits_nil : ofBits [] = 0 := rfl

@[simp] theorem ofOctets_nil : ofOctets [] = 0 := rfl

theorem ofBits_concat (bits : List Bool) (bit : Bool) :
    ofBits (bits ++ [bit]) = 2 * ofBits bits + bit.toNat := by
  simp [ofBits]

theorem ofOctets_concat (octets : List UInt8) (c : UInt8) :
    ofOctets (octets ++ [c]) = 256 * ofOctets octets + c.toNat := by
  simp [ofOctets]

theorem ofBits_append (bits more : List Bool) :
    ofBits (bits ++ more) = ofBits bits * 2 ^ more.length + ofBits more := by
  induction more using List.reverseRecOn with
  | nil => simp
  | append_singleton more bit ih =>
    rw [← List.append_assoc, ofBits_concat, ofBits_concat, ih, List.length_append,
      List.length_singleton, Nat.pow_succ]
    ring

theorem ofOctets_append (octets more : List UInt8) :
    ofOctets (octets ++ more) = ofOctets octets * 256 ^ more.length + ofOctets more := by
  induction more using List.reverseRecOn with
  | nil => simp
  | append_singleton more c ih =>
    rw [← List.append_assoc, ofOctets_concat, ofOctets_concat, ih, List.length_append,
      List.length_singleton, Nat.pow_succ]
    ring

theorem ofOctets_cons (c : UInt8) (octets : List UInt8) :
    ofOctets (c :: octets) = c.toNat * 256 ^ octets.length + ofOctets octets := by
  have split := ofOctets_append [c] octets
  rwa [List.singleton_append, show ofOctets [c] = c.toNat by simp [ofOctets]] at split

theorem ofBits_zeros (n : Nat) (bits : List Bool) :
    ofBits (List.replicate n false ++ bits) = ofBits bits := by
  have none : ofBits (List.replicate n false) = 0 := by
    induction n with
    | zero => rfl
    | succ n ih => rw [List.replicate_succ', ofBits_concat, ih]; rfl
  rw [ofBits_append, none, Nat.zero_mul, Nat.zero_add]

theorem ofBits_lt (bits : List Bool) : ofBits bits < 2 ^ bits.length := by
  induction bits using List.reverseRecOn with
  | nil => simp
  | append_singleton bits bit ih =>
    have digit : bit.toNat < 2 := by cases bit <;> decide
    rw [ofBits_concat, List.length_append, List.length_singleton, Nat.pow_succ]
    omega

theorem ofOctets_lt (octets : List UInt8) : ofOctets octets < 256 ^ octets.length := by
  induction octets using List.reverseRecOn with
  | nil => simp
  | append_singleton octets c ih =>
    have digit := c.toNat_lt
    rw [ofOctets_concat, List.length_append, List.length_singleton, Nat.pow_succ]
    omega

/-- The largest number of some octets has every bit set. -/
theorem eq_replicate_of_ofOctets (octets : List UInt8)
    (largest : ofOctets octets + 1 = 256 ^ octets.length) :
    octets = List.replicate octets.length 0xFF := by
  induction octets with
  | nil => rfl
  | cons c octets ih =>
    have digit := c.toNat_lt
    have below := ofOctets_lt octets
    rw [ofOctets_cons, List.length_cons, Nat.pow_succ] at largest
    -- The first digit has to be the largest one, or the others could not make up for it.
    have top : c.toNat = 255 := by
      by_contra other
      have less : c.toNat + 1 ≤ 255 := by omega
      have bound := Nat.mul_le_mul_right (256 ^ octets.length) less
      rw [Nat.add_mul, Nat.one_mul] at bound
      omega
    have same : c = 0xFF := UInt8.toNat_inj.mp top
    rw [top] at largest
    rw [List.length_cons, List.replicate_succ, ← ih (by omega), same]

set_option maxRecDepth 8192 in
theorem ofBits_bitsOf (c : UInt8) : ofBits (bitsOf c) = c.toNat := by
  -- There are few enough octets to look at each of them.
  cases c with
  | ofBitVec c =>
    cases c with
    | ofFin c =>
      revert c
      decide

theorem ofBits_flatMap (octets : List UInt8) :
    ofBits (octets.flatMap bitsOf) = ofOctets octets := by
  induction octets with
  | nil => rfl
  | cons c octets ih =>
    rw [List.flatMap_cons, ofBits_append, ih, ofBits_bitsOf, length_flatMap_bitsOf, ofOctets_cons,
      Nat.pow_mul]

theorem shiftLeft_or_octet (n : Nat) (c : UInt8) : n <<< 8 ||| c.toNat = 256 * n + c.toNat := by
  have digit : c.toNat < 2 ^ 8 := c.toNat_lt
  rw [← Nat.shiftLeft_add_eq_or_of_lt digit, Nat.shiftLeft_eq, Nat.mul_comm]

theorem shiftLeft_or_byte (word : UInt64) (c : UInt8) :
    word <<< 8 ||| c.toUInt64 = UInt64.ofNat (256 * word.toNat + c.toNat) := by
  apply UInt64.toNat_inj.mp
  have digit : c.toNat % 2 ^ 64 = c.toNat := Nat.mod_eq_of_lt (by have := c.toNat_lt; omega)
  rw [UInt64.toNat_or, UInt64.toNat_shiftLeft, UInt8.toNat_toUInt64, UInt64.toNat_ofNat',
    ← shiftLeft_or_octet, Nat.or_mod_two_pow, digit]
  rfl

theorem ofNat_digits_behind (word : UInt64) (c : UInt8) (octets : List UInt8) :
    UInt64.ofNat ((word <<< 8 ||| c.toUInt64).toNat * 256 ^ octets.length + ofOctets octets) =
      UInt64.ofNat (word.toNat * 256 ^ (octets.length + 1) + ofOctets (c :: octets)) := by
  rw [shiftLeft_or_byte, ofOctets_cons]
  apply UInt64.toNat_inj.mp
  rw [UInt64.toNat_ofNat', UInt64.toNat_ofNat', UInt64.toNat_ofNat', Nat.add_mod, Nat.mod_mul_mod,
    ← Nat.add_mod]
  congr 1
  ring

/-! ## The octets of a word -/

/-- The word of four octets, the first one at its top. -/
def fourOctets (a b c d : UInt8) : UInt32 :=
  a.toUInt32 <<< 24 ||| b.toUInt32 <<< 16 ||| c.toUInt32 <<< 8 ||| d.toUInt32

section

variable (a b c d : UInt8)

theorem fourOctets_octets :
    (fourOctets a b c d).toUInt8 = d ∧ (fourOctets a b c d >>> 8).toUInt8 = c ∧
      (fourOctets a b c d >>> 16).toUInt8 = b ∧ (fourOctets a b c d >>> 24).toUInt8 = a := by
  unfold fourOctets
  refine ⟨?_, ?_, ?_, ?_⟩
  all_goals
    apply UInt8.eq_of_toBitVec_eq
    apply BitVec.eq_of_getLsbD_eq
    intro i less
    interval_cases i <;> simp

/-- The top bit of the second octet from the end of a word. -/
theorem fourOctets_next :
    (fourOctets a b c d &&& 0x8000 = 0 ↔ c &&& 0x80 = 0) ∧
      (fourOctets a b c d >>> 8 &&& 0x8000 = 0 ↔ b &&& 0x80 = 0) := by
  have bit : ∀ x : UInt32, x &&& 0x8000 = 0 ↔ (x >>> 8).toUInt8 &&& 0x80 = 0 := by
    intro x
    constructor
    · intro clear
      apply UInt8.eq_of_toBitVec_eq
      apply BitVec.eq_of_getLsbD_eq
      intro i less
      have at15 := congrArg (fun y : UInt32 => y.toBitVec.getLsbD 15) clear
      simp at at15
      interval_cases i <;> simp [at15]
    · intro clear
      apply UInt32.eq_of_toBitVec_eq
      apply BitVec.eq_of_getLsbD_eq
      intro i less
      have at7 := congrArg (fun y : UInt8 => y.toBitVec.getLsbD 7) clear
      simp at at7
      interval_cases i <;> simp [at7]
  have twice : fourOctets a b c d >>> 8 >>> 8 = fourOctets a b c d >>> 16 := by
    apply UInt32.eq_of_toBitVec_eq
    apply BitVec.eq_of_getLsbD_eq
    intro i less
    interval_cases i <;> simp
  obtain ⟨-, third, second, -⟩ := fourOctets_octets a b c d
  rw [bit, bit, twice, third, second]
  exact ⟨Iff.rfl, Iff.rfl⟩

end

theorem fourOctets_inj {a b c d a' b' c' d' : UInt8}
    (same : fourOctets a b c d = fourOctets a' b' c' d') : a = a' ∧ b = b' ∧ c = c' ∧ d = d' := by
  obtain ⟨fourth, third, second, first⟩ := fourOctets_octets a b c d
  rw [same] at fourth third second first
  obtain ⟨fourth', third', second', first'⟩ := fourOctets_octets a' b' c' d'
  exact ⟨first.symm.trans first', second.symm.trans second', third.symm.trans third',
    fourth.symm.trans fourth'⟩

end Lib
