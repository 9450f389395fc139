import Esnacc.Lib.BigEndian
import Mathlib.Data.Nat.Digits.Lemmas

/-! The identifier and length octets of basic encoding rules, and the shortest octets of a number. -/

namespace Lib

/-! ## Identifiers and lengths -/

/-- Identifier octets: one, or one that announces more, of which all but the last have the top bit. -/
def IsTag (octets : List UInt8) : Prop :=
  (∃ first, octets = [first] ∧ first &&& 0x1F ≠ 0x1F) ∨
    ∃ first more last, octets = first :: (more ++ [last]) ∧ first &&& 0x1F = 0x1F ∧
      (∀ c ∈ more, c &&& 0x80 ≠ 0) ∧ last &&& 0x80 = 0

/-- Length octets of the short form or of the long form, which write a number. -/
def IsLength (octets : List UInt8) (n : Nat) : Prop :=
  (∃ c, octets = [c] ∧ c < 0x80 ∧ c.toNat = n) ∨
    ∃ c more, octets = c :: more ∧ 0x80 < c ∧ c < 0xFF ∧ c.toNat = 0x80 + more.length ∧
      ofOctets more = n

theorem isLength_short {c : UInt8} (short : c < 0x80) : IsLength [c] c.toNat :=
  .inl ⟨c, rfl, short, rfl⟩

theorem IsTag.ne_nil {octets : List UInt8} (isTag : IsTag octets) : octets ≠ [] := by
  rcases isTag with ⟨first, rfl, -⟩ | ⟨first, more, last, rfl, -⟩ <;> simp

/-- The first octet without the top bit ends what stands in front of it. -/
theorem continued_unique {more more' rest rest' : List UInt8} {last last' : UInt8}
    (top : ∀ c ∈ more, c &&& 0x80 ≠ 0) (clear : last &&& 0x80 = 0)
    (top' : ∀ c ∈ more', c &&& 0x80 ≠ 0) (clear' : last' &&& 0x80 = 0)
    (same : more ++ last :: rest = more' ++ last' :: rest') : more = more' ∧ last = last' := by
  induction more generalizing more' with
  | nil =>
    cases more' with
    | nil => exact ⟨rfl, (List.cons.inj same).1⟩
    | cons c more' =>
      obtain ⟨rfl, -⟩ := List.cons.inj same
      exact absurd clear (top' last List.mem_cons_self)
  | cons c more ih =>
    rw [List.forall_mem_cons] at top
    cases more' with
    | nil =>
      obtain ⟨rfl, -⟩ := List.cons.inj same
      exact absurd clear' top.1
    | cons c' more' =>
      rw [List.forall_mem_cons] at top'
      obtain ⟨rfl, later⟩ := List.cons.inj same
      obtain ⟨rfl, rfl⟩ := ih top.2 top'.2 later
      exact ⟨rfl, rfl⟩

/-- Octets begin with one identifier at most. -/
theorem IsTag.unique {w w' octets : List UInt8} (isTag : IsTag w) (isTag' : IsTag w')
    (starts : w <+: octets) (starts' : w' <+: octets) : w = w' := by
  obtain ⟨rest, tape⟩ := starts
  obtain ⟨rest', tape'⟩ := starts'
  have same := tape.trans tape'.symm
  rcases isTag with ⟨first, rfl, short⟩ | ⟨first, more, last, rfl, long, top, clear⟩
  · rcases isTag' with ⟨first', rfl, -⟩ | ⟨first', more', last', rfl, long', -⟩
    · rw [(List.cons.inj same).1]
    · obtain ⟨rfl, -⟩ := List.cons.inj same
      exact absurd long' short
  · rcases isTag' with ⟨first', rfl, short'⟩ | ⟨first', more', last', rfl, -, top', clear'⟩
    · obtain ⟨rfl, -⟩ := List.cons.inj same
      exact absurd long short'
    · rw [List.cons_append, List.cons_append, List.append_assoc, List.append_assoc] at same
      obtain ⟨rfl, later⟩ := List.cons.inj same
      obtain ⟨rfl, rfl⟩ := continued_unique top clear top' clear' later
      rfl

theorem IsLength.length_pos {octets : List UInt8} {n : Nat} (isLength : IsLength octets n) :
    1 ≤ octets.length := by
  rcases isLength with ⟨c, rfl, -⟩ | ⟨c, more, rfl, -⟩ <;> simp

theorem longForm_first {c : UInt8} {k : Nat} (above : 0x80 < c) (below : c < 0xFF)
    (count : c.toNat = 0x80 + k) : ¬ c < 0x80 ∧ c ≠ 0x80 ∧ (c &&& 0x7F).toNat = k := by
  refine ⟨fun short => UInt8.lt_irrefl c (UInt8.lt_trans short above), ?_, ?_⟩
  · rintro rfl
    exact UInt8.lt_irrefl _ above
  · have masked : c.toNat &&& 127 = c.toNat % 128 := Nat.and_two_pow_sub_one_eq_mod c.toNat 7
    have top := UInt8.lt_iff_toNat_lt.mp below
    have byte : (0xFF : UInt8).toNat = 255 := rfl
    have mask : (0x7F : UInt8).toNat = 127 := rfl
    rw [UInt8.toNat_and, mask, masked]
    omega

theorem IsLength.lt {octets : List UInt8} {n k : Nat} (isLength : IsLength octets n)
    (some : 1 ≤ k) (few : octets.length ≤ k + 1) : n < 256 ^ k := by
  rcases isLength with ⟨c, rfl, -, rfl⟩ | ⟨c, more, rfl, -, -, -, rfl⟩
  · calc
      c.toNat < 256 ^ 1 := c.toNat_lt
      _ ≤ 256 ^ k := Nat.pow_le_pow_right (by decide) some
  · rw [List.length_cons] at few
    calc
      ofOctets more < 256 ^ more.length := ofOctets_lt more
      _ ≤ 256 ^ k := Nat.pow_le_pow_right (by decide) (by omega)

/-! ## The shortest octets -/

/-- The octets of a number, the most significant one first and none of them idle. -/
def minOctets (n : Nat) : List UInt8 :=
  ((Nat.digits 256 n).map UInt8.ofNat).reverse

@[simp] theorem minOctets_zero : minOctets 0 = [] := rfl

theorem minOctets_of_pos {n : Nat} (positive : 0 < n) :
    minOctets n = minOctets (n / 256) ++ [UInt8.ofNat n] := by
  have low : UInt8.ofNat (n % 256) = UInt8.ofNat n := by
    apply UInt8.toNat_inj.mp
    rw [UInt8.toNat_ofNat', UInt8.toNat_ofNat', Nat.mod_mod]
  rw [minOctets, Nat.digits_def' (by decide) positive, List.map_cons, List.reverse_cons, low]
  rfl

theorem ofOctets_minOctets (n : Nat) : ofOctets (minOctets n) = n := by
  induction n using Nat.strong_induction_on with
  | h n ih =>
    by_cases zero : n = 0
    · rw [zero]
      rfl
    have positive : 0 < n := Nat.pos_of_ne_zero zero
    rw [minOctets_of_pos positive, ofOctets_concat, ih (n / 256) (by omega), UInt8.toNat_ofNat']
    exact Nat.div_add_mod n 256

theorem length_minOctets_le {n k : Nat} : (minOctets n).length ≤ k ↔ n < 256 ^ k := by
  rw [minOctets, List.length_reverse, List.length_map, Nat.digits_length_le_iff (by decide)]

theorem length_minOctets_ofOctets (octets : List UInt8) :
    (minOctets (ofOctets octets)).length ≤ octets.length :=
  length_minOctets_le.mpr (ofOctets_lt octets)

/-- The shortest length octets of a number. -/
@[grind =] def minLength (n : Nat) : List UInt8 :=
  if n < 128 then [UInt8.ofNat n]
  else UInt8.ofNat (0x80 + (minOctets n).length) :: minOctets n

/-- A number that has length octets at all is written by the shortest. -/
theorem isLength_minLength {n : Nat} (small : n < 256 ^ 126) : IsLength (minLength n) n := by
  rw [minLength]
  by_cases short : n < 128
  · rw [if_pos short]
    have value : (UInt8.ofNat n).toNat = n := UInt8.toNat_ofNat_of_lt' (by
      rw [UInt8.size]
      omega)
    refine .inl ⟨_, rfl, ?_, value⟩
    rw [UInt8.lt_iff_toNat_lt, value]
    exact short
  · rw [if_neg short]
    have few := length_minOctets_le.mpr small
    have some : (minOctets n).length ≠ 0 := by
      intro none
      have least := length_minOctets_le.mp (Nat.le_of_eq none)
      omega
    have count : (UInt8.ofNat (0x80 + (minOctets n).length)).toNat = 0x80 + (minOctets n).length :=
      UInt8.toNat_ofNat_of_lt' (by rw [UInt8.size]; omega)
    have top : (0x80 : UInt8).toNat = 0x80 := rfl
    have all : (0xFF : UInt8).toNat = 0xFF := rfl
    refine .inr ⟨_, _, rfl, ?_, ?_, count, ofOctets_minOctets n⟩
    · rw [UInt8.lt_iff_toNat_lt, count, top]
      omega
    · rw [UInt8.lt_iff_toNat_lt, count, all]
      omega

theorem length_minLength_le {octets : List UInt8} {n : Nat} (isLength : IsLength octets n) :
    (minLength n).length ≤ octets.length := by
  rw [minLength]
  by_cases short : n < 128
  · rw [if_pos short]
    exact isLength.length_pos
  · rw [if_neg short]
    rcases isLength with ⟨c, rfl, less, rfl⟩ | ⟨c, more, rfl, -, -, -, rfl⟩
    · exact absurd (UInt8.lt_iff_toNat_lt.mp less) short
    · rw [List.length_cons, List.length_cons]
      exact Nat.succ_le_succ (length_minOctets_ofOctets more)

end Lib
