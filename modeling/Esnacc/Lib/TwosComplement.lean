import Esnacc.Lib.BigEndian

/-! Numbers in two's complement: how many octets they need, and their shortest octets. -/

namespace Lib

/-- One more octet moves the others up. -/
theorem signedOf_concat {octets : List UInt8} (some : octets ≠ []) (c : UInt8) :
    signedOf (octets ++ [c]) = 256 * signedOf octets + c.toNat := by
  cases octets with
  | nil => exact absurd rfl some
  | cons first rest =>
    have whole := ofOctets_concat (first :: rest) c
    rw [List.cons_append, signedOf, signedOf, ← List.cons_append, whole, List.length_append,
      List.length_singleton, Int.pow_succ]
    by_cases positive : first < 0x80
    · rw [if_pos positive, if_pos positive]
      push_cast
      rfl
    · rw [if_neg positive, if_neg positive]
      push_cast
      ring

/-- Dropping octets that repeat the sign keeps the number in two's complement. -/
theorem signedOf_cons {a b : UInt8} {rest : List UInt8}
    (sign : a = 0 ∧ b < 0x80 ∨ a = 0xFF ∧ 0x80 ≤ b) :
    signedOf (a :: b :: rest) = signedOf (b :: rest) := by
  have shifted := ofOctets_cons a (b :: rest)
  rw [signedOf, signedOf, shifted]
  rcases sign with ⟨rfl, positive⟩ | ⟨rfl, negative⟩
  · rw [if_pos (by decide), if_pos positive]
    simp
  · rw [if_neg (by decide), if_neg (UInt8.not_lt.mpr negative)]
    have ones : (0xFF : UInt8).toNat = 255 := rfl
    have size : (0xFF :: b :: rest).length = (b :: rest).length + 1 := rfl
    rw [ones, size]
    push_cast
    ring

/-- So many octets hold a number in two's complement. -/
@[grind =] def FitsOctets (z : Int) (k : Nat) : Prop :=
  -256 ^ k ≤ 2 * z ∧ 2 * z < 256 ^ k

theorem signedOf_singleton (c : UInt8) :
    signedOf [c] = if c.toNat < 128 then (c.toNat : Int) else c.toNat - 256 := by
  have less : c < 0x80 ↔ c.toNat < 128 := UInt8.lt_iff_toNat_lt
  have value : ofOctets [c] = c.toNat := by simp [ofOctets]
  rw [signedOf, value, if_congr less rfl rfl]
  rfl

/-- Octets hold the number that they stand for. -/
theorem fitsOctets_signedOf {octets : List UInt8} (some : octets ≠ []) :
    FitsOctets (signedOf octets) octets.length := by
  induction octets using List.reverseRecOn with
  | nil => exact absurd rfl some
  | append_singleton octets c ih =>
    have digit := c.toNat_lt
    by_cases first : octets = []
    · subst first
      rw [List.nil_append, signedOf_singleton, FitsOctets, List.length_singleton]
      split_ifs <;> omega
    · have inner := ih first
      obtain ⟨m, size⟩ := Nat.exists_eq_succ_of_ne_zero (List.length_pos_of_ne_nil first).ne'
      rw [signedOf_concat first, FitsOctets, List.length_append, List.length_singleton, size,
        Int.pow_succ, Int.pow_succ]
      rw [FitsOctets, size, Int.pow_succ] at inner
      omega

theorem FitsOctets.mono {z : Int} {j k : Nat} (fits : FitsOctets z j) (more : j ≤ k) :
    FitsOctets z k := by
  have power : (256 : Int) ^ j ≤ 256 ^ k := by
    exact_mod_cast Nat.pow_le_pow_right (show 0 < 256 by decide) more
  obtain ⟨low, high⟩ := fits
  exact ⟨by omega, by omega⟩

/-- The low octets of a number. -/
@[grind =] def lowOctets : Nat → Int → List UInt8
  | 0, _ => []
  | k + 1, z => lowOctets k (z / 256) ++ [UInt8.ofNat (z % 256).toNat]

@[simp] theorem length_lowOctets (k : Nat) (z : Int) : (lowOctets k z).length = k := by
  induction k generalizing z with
  | zero => rfl
  | succ k ih => rw [lowOctets, List.length_append, ih, List.length_singleton]

/-- As many low octets as hold a number stand for it. -/
theorem signedOf_lowOctets {k : Nat} {z : Int} (some : 0 < k) (fits : FitsOctets z k) :
    signedOf (lowOctets k z) = z := by
  -- The induction is on the octets; the first one alone carries the sign.
  induction k generalizing z with
  | zero => exact absurd some (Nat.lt_irrefl 0)
  | succ k ih =>
    have low : (UInt8.ofNat (z % 256).toNat).toNat = (z % 256).toNat :=
      UInt8.toNat_ofNat_of_lt' (by rw [UInt8.size]; omega)
    rw [FitsOctets, Int.pow_succ] at fits
    cases k with
    | zero =>
      rw [lowOctets, lowOctets, List.nil_append, signedOf_singleton, low]
      rw [Int.pow_zero] at fits
      split_ifs <;> omega
    | succ k =>
      have nonempty : lowOctets (k + 1) (z / 256) ≠ [] := by
        rw [← List.length_pos_iff_ne_nil, length_lowOctets]
        exact Nat.succ_pos k
      have inner : FitsOctets (z / 256) (k + 1) := ⟨by omega, by omega⟩
      rw [lowOctets, signedOf_concat nonempty, ih (Nat.succ_pos k) inner, low]
      omega

/-- Octets stand for a number, which no fewer do. -/
structure ShortestSigned (z : Int) (octets : List UInt8) : Prop where
  some : octets ≠ []
  signed : signedOf octets = z
  least : ∀ {other}, other ≠ [] → signedOf other = z → octets.length ≤ other.length

/-- The least number of octets that hold a number. -/
structure LeastOctets (z : Int) (k : Nat) : Prop where
  some : 0 < k
  fits : FitsOctets z k
  least : ∀ {j}, 0 < j → FitsOctets z j → k ≤ j

theorem LeastOctets.shortestSigned {z : Int} {k : Nat} (least : LeastOctets z k) :
    ShortestSigned z (lowOctets k z) where
  some := by
    rw [← List.length_pos_iff_ne_nil, length_lowOctets]
    exact least.some
  signed := signedOf_lowOctets least.some least.fits
  least := by
    rintro other some rfl
    rw [length_lowOctets]
    exact least.least (List.length_pos_of_ne_nil some) (fitsOctets_signedOf some)

/-- The low octets of the number that octets stand for are the octets. -/
theorem lowOctets_signedOf (octets : List UInt8) :
    lowOctets octets.length (signedOf octets) = octets := by
  -- The induction is on the octets from the last one, which is the low digit.
  induction octets using List.reverseRecOn with
  | nil => rfl
  | append_singleton octets c ih =>
    have digit := c.toNat_lt
    rw [List.length_append, List.length_singleton, lowOctets]
    by_cases first : octets = []
    · subst first
      have low : (signedOf [c] % 256).toNat = c.toNat := by
        rw [signedOf_singleton]
        split_ifs <;> omega
      rw [List.nil_append, low, UInt8.ofNat_toNat]
      rfl
    · have split := signedOf_concat first c
      have above : signedOf (octets ++ [c]) / 256 = signedOf octets := by omega
      have low : (signedOf (octets ++ [c]) % 256).toNat = c.toNat := by omega
      rw [above, low, ih, UInt8.ofNat_toNat]

/-- Octets stand for a negative number where the top bit of the first one is set. -/
theorem signedOf_neg_iff (octets : List UInt8) : signedOf octets < 0 ↔ 0x80 ≤ octets.headD 0 := by
  cases octets with
  | nil => exact iff_of_false (Int.lt_irrefl 0) (by decide)
  | cons first rest =>
    have below : (ofOctets (first :: rest) : Int) < 256 ^ (first :: rest).length := by
      exact_mod_cast ofOctets_lt (first :: rest)
    rw [signedOf, List.headD_cons]
    by_cases positive : first < 0x80
    · rw [if_pos positive]
      exact iff_of_false (Int.not_lt.mpr (Int.natCast_nonneg _)) (UInt8.not_le.mpr positive)
    · rw [if_neg positive]
      exact iff_of_true (by omega) (UInt8.not_lt.mp positive)

theorem signedOf_of_nonneg {octets : List UInt8} (nonneg : 0 ≤ signedOf octets) :
    signedOf octets = ofOctets octets := by
  cases octets with
  | nil => rfl
  | cons first rest =>
    have positive : first < 0x80 :=
      UInt8.not_le.mp fun negative =>
        Int.not_lt.mpr nonneg ((signedOf_neg_iff (first :: rest)).mpr negative)
    rw [signedOf, if_pos positive]

theorem signedOf_of_neg {octets : List UInt8} (negative : signedOf octets < 0) :
    signedOf octets = ofOctets octets - 256 ^ octets.length := by
  cases octets with
  | nil => exact absurd negative (Int.lt_irrefl 0)
  | cons first rest =>
    have top : ¬ first < 0x80 := UInt8.not_lt.mpr ((signedOf_neg_iff (first :: rest)).mp negative)
    rw [signedOf, if_neg top]

/-- Octets of which the first nine bits are not all the same. -/
def NineBits : List UInt8 → Prop
  | [] => False
  | [_] => True
  | a :: b :: _ => ¬ (a = 0 ∧ b < 0x80) ∧ ¬ (a = 0xFF ∧ 0x80 ≤ b)

/-- A number whose octets begin with nine bits that differ needs all of them. -/
theorem not_fitsOctets_of_nineBits {a b : UInt8} {rest : List UInt8}
    (nine : NineBits (a :: b :: rest)) :
    ¬ FitsOctets (signedOf (a :: b :: rest)) (rest.length + 1) := by
  obtain ⟨zeros, ones⟩ := nine
  have low : (ofOctets rest : Int) < 256 ^ rest.length := by exact_mod_cast ofOctets_lt rest
  have power : (0 : Int) < 256 ^ rest.length := Int.pow_pos (by decide)
  have number : (ofOctets (a :: b :: rest) : Int) =
      256 ^ rest.length * (256 * a.toNat + b.toNat) + ofOctets rest := by
    rw [ofOctets_cons, ofOctets_cons, List.length_cons, Nat.pow_succ]
    push_cast
    ring
  have size : (256 : Int) ^ (a :: b :: rest).length = 256 ^ rest.length * 65536 := by
    rw [List.length_cons, List.length_cons, Int.pow_succ, Int.pow_succ]
    ring
  have top : (0x80 : UInt8).toNat = 128 := rfl
  have highB := b.toNat_lt
  rw [FitsOctets, Int.pow_succ]
  rintro ⟨least, most⟩
  -- The two first octets tell where the number lies among multiples of what is behind them.
  by_cases negative : signedOf (a :: b :: rest) < 0
  · rw [signedOf_of_neg negative, number, size] at least
    apply ones
    rw [← UInt8.toNat_inj, UInt8.le_iff_toNat_le, top]
    change a.toNat = 255 ∧ _
    have digit := a.toNat_lt
    by_contra few
    have below : (256 * a.toNat + b.toNat : Int) ≤ 65407 := by omega
    have product := Int.mul_le_mul_of_nonneg_left below (Int.le_of_lt power)
    omega
  · have nonneg := Int.not_lt.mp negative
    rw [signedOf_of_nonneg nonneg, number] at most
    apply zeros
    rw [← UInt8.toNat_inj, UInt8.lt_iff_toNat_lt, top]
    change a.toNat = 0 ∧ _
    by_contra many
    have above : (128 : Int) ≤ 256 * a.toNat + b.toNat := by omega
    have product := Int.mul_le_mul_of_nonneg_left above (Int.le_of_lt power)
    have rest_nonneg : (0 : Int) ≤ ofOctets rest := Int.natCast_nonneg _
    omega

/-- Octets that begin with nine bits that differ are the shortest ones of their number. -/
theorem NineBits.shortestSigned {octets : List UInt8} (nine : NineBits octets) :
    ShortestSigned (signedOf octets) octets := by
  cases octets with
  | nil => exact nine.elim
  | cons a rest =>
    refine ⟨List.cons_ne_nil _ _, rfl, fun {other} some same => ?_⟩
    cases rest with
    | nil => exact List.length_pos_of_ne_nil some
    | cons b rest =>
      by_contra longer
      have fits := fitsOctets_signedOf some
      rw [same] at fits
      rw [List.length_cons, List.length_cons] at longer
      exact not_fitsOctets_of_nineBits nine (fits.mono (by omega))

theorem ShortestSigned.unique {z : Int} {octets other : List UInt8}
    (shortest : ShortestSigned z octets) (shortest' : ShortestSigned z other) : octets = other := by
  have less := shortest.least shortest'.some shortest'.signed
  have more := shortest'.least shortest.some shortest.signed
  rw [← lowOctets_signedOf octets, ← lowOctets_signedOf other, shortest.signed, shortest'.signed,
    Nat.le_antisymm less more]

/-- A number that needs more octets than another one is farther from zero on its side. -/
theorem ShortestSigned.lt_of_length_lt {z w : Int} {octets other : List UInt8}
    (shortest : ShortestSigned z octets) (shortest' : ShortestSigned w other)
    (longer : octets.length < other.length) : if 0 ≤ w then z < w else w < z := by
  have fits := fitsOctets_signedOf shortest.some
  rw [shortest.signed] at fits
  -- As many octets as hold the first number do not hold the second.
  have missing : ¬ FitsOctets w octets.length := by
    intro short
    have positive := List.length_pos_of_ne_nil shortest.some
    have nonempty : lowOctets octets.length w ≠ [] := by
      rw [← List.length_pos_iff_ne_nil, length_lowOctets]
      exact positive
    have bound := shortest'.least nonempty (signedOf_lowOctets positive short)
    rw [length_lowOctets] at bound
    omega
  obtain ⟨least, most⟩ := fits
  rw [FitsOctets] at missing
  split_ifs <;> omega

/-- The bits of a number under a mask that was moved up are those of the number moved down. -/
theorem and_shiftLeft_eq_zero (v m k : Nat) : v &&& m <<< k = 0 ↔ v >>> k &&& m = 0 := by
  constructor
  · intro clear
    apply Nat.eq_of_testBit_eq
    intro i
    have bit := congrArg (Nat.testBit · (i + k)) clear
    simp only [Nat.testBit_and, Nat.testBit_shiftLeft, Nat.zero_testBit] at bit
    rw [Nat.testBit_and, Nat.testBit_shiftRight, Nat.zero_testBit, Nat.add_comm k]
    simpa using bit
  · intro clear
    apply Nat.eq_of_testBit_eq
    intro i
    rw [Nat.testBit_and, Nat.testBit_shiftLeft, Nat.zero_testBit]
    by_cases moved : k ≤ i
    · have bit := congrArg (Nat.testBit · (i - k)) clear
      simp only [Nat.testBit_and, Nat.testBit_shiftRight, Nat.zero_testBit] at bit
      rw [Nat.add_sub_cancel' moved] at bit
      simpa [moved] using bit
    · simp [moved]

theorem and_octet_shiftLeft_eq_zero {v k : Nat} (below : v < 2 ^ (k + 8)) :
    v &&& 0xFF <<< k = 0 ↔ v < 2 ^ k := by
  have mask : (0xFF : Nat) = 2 ^ 8 - 1 := rfl
  have few : v / 2 ^ k < 2 ^ 8 := by
    rw [Nat.div_lt_iff_lt_mul (Nat.two_pow_pos k), ← Nat.pow_add, Nat.add_comm]
    exact below
  rw [and_shiftLeft_eq_zero, mask, Nat.and_two_pow_sub_one_eq_mod, Nat.shiftRight_eq_div_pow,
    Nat.mod_eq_of_lt few, Nat.div_eq_zero_iff_lt (Nat.two_pow_pos k)]

end Lib
