import Esnacc.Cxx.ContentTrips
import Esnacc.Cxx.IntOctets
import Esnacc.Cxx.Contents
import Esnacc.Lib.TwosComplement

/-! What the C++ INTEGER does with the octets that it keeps: BER, comparing, and fixed sizes. -/

namespace Esnacc.Cxx

open Lib

/-! ## Octets that are kept -/

/-- The first octets of two arrays that differ tell which is less. -/
def memcmp : List UInt8 → List UInt8 → Int
  | c :: s1, d :: s2 => if c = d then memcmp s1 s2 else c.toNat - d.toNat
  | _, _ => 0

namespace AsnInt

def bEncContent (x : AsnInt) : BufM AsnLen := do
  putSegRvs x.mBytes
  return .ofNat x.mBytes.length

/-- Whether two integers are equal, by their octets. -/
def equalsInt (x o : AsnInt) : Bool :=
  if x.mBytes.length = o.mBytes.length then memcmp x.mBytes o.mBytes == 0 else false

/-- Whether an integer is before another one, by their lengths and then by their octets. -/
def less (x o : AsnInt) : Bool :=
  if x.mBytes.length < o.mBytes.length then true
  else if o.mBytes.length < x.mBytes.length then false
  else decide (memcmp x.mBytes o.mBytes < 0)

/-- The integer as a `long`. -/
def toLong (x : AsnInt) : Except Thrown Int64 :=
  match x.mBytes with
  | [] => return 0
  | first :: _ =>
    if 8 < x.mBytes.length then throw (decodeError "integer is too big for conversion to type")
    else
      let start : UInt64 := if first >>> 7 = 1 then 0xFFFFFFFFFFFFFFFF else 0
      let iResult := x.mBytes.foldl (fun (n : UInt64) c => n <<< 8 ||| c.toUInt64) start
      return iResult.toInt64

/-- The octets of a new array, all of them zeros. -/
def calloc (size : Nat) : Except Thrown (List UInt8) :=
  -- A null pointer would be written to.
  if 2 ^ 63 ≤ size then throw .fault else return .replicate size 0

/-- Give the octets of an integer in a size, and their number; without a size nothing is given. -/
def getPadded (x : AsnInt) (bigIntDataOut : List UInt8) (padToSize : UInt64) :
    Except Thrown (List UInt8 × Nat) := do
  let bigIntLen := x.mBytes.length
  if 0 < padToSize then
    if bigIntLen < padToSize.toNat then
      let prepend := padToSize.toNat - bigIntLen
      let tmpInt ← calloc (bigIntLen + prepend)
      return (tmpInt.take prepend ++ x.mBytes, bigIntLen + prepend)
    else if padToSize.toNat < bigIntLen then
      if x.mBytes.headD 0 ≠ 0 then throw (integerError "Extra octet is not zero.")
      let _ ← calloc (bigIntLen - 1)
      return (x.mBytes.tail, bigIntLen - 1)
    else
      let _ ← calloc bigIntLen
      return (x.mBytes, bigIntLen)
  else return (bigIntDataOut, bigIntLen)

/-- An integer whose octets were stored. -/
def Stored (x : AsnInt) : Prop :=
  ∃ pData unsignedFlag, storeDERInteger pData unsignedFlag = .ok x

/-- The number that is kept. -/
@[grind =] def value (x : AsnInt) : Int :=
  signedOf x.mBytes

end AsnInt

/-! ## The least octets -/

theorem nineBits_dropZeros {data : List UInt8} (some : data ≠ [])
    (positive : data.headD 0 < 0x80) :
    NineBits (dropZeros data) := by
  induction data with
  | nil => exact absurd rfl some
  | cons a rest ih =>
    cases rest with
    | nil => trivial
    | cons b rest =>
      rw [dropZeros]
      by_cases zeros : a = 0 ∧ b < 0x80
      · rw [if_pos zeros]
        exact ih (List.cons_ne_nil _ _) zeros.2
      · rw [if_neg zeros]
        refine ⟨zeros, ?_⟩
        rintro ⟨rfl, -⟩
        rw [List.headD_cons] at positive
        exact absurd positive (by decide)

/-- Octets that begin with a one are kept whole by the loop over zeros. -/
theorem dropZeros_of_negative {data : List UInt8} (negative : 0x80 ≤ data.headD 0) :
    dropZeros data = data := by
  cases data with
  | nil => exact absurd negative (by decide)
  | cons a rest =>
    cases rest with
    | nil => rfl
    | cons b rest =>
      rw [dropZeros, if_neg]
      rintro ⟨rfl, -⟩
      rw [List.headD_cons] at negative
      exact absurd negative (by decide)

theorem nineBits_dropOnes {data : List UInt8} (negative : 0x80 ≤ data.headD 0) :
    NineBits (dropOnes data) ∧ 0x80 ≤ (dropOnes data).headD 0 := by
  induction data with
  | nil => exact absurd negative (by decide)
  | cons a rest ih =>
    cases rest with
    | nil => exact ⟨trivial, negative⟩
    | cons b rest =>
      rw [dropOnes]
      by_cases ones : a = 0xFF ∧ 0x80 ≤ b
      · rw [if_pos ones]
        exact ih ones.2
      · rw [if_neg ones]
        refine ⟨⟨?_, ones⟩, negative⟩
        rintro ⟨rfl, -⟩
        rw [List.headD_cons] at negative
        exact absurd negative (by decide)

theorem dropOnes_of_positive {data : List UInt8} (positive : data.headD 0 < 0x80) :
    dropOnes data = data := by
  cases data with
  | nil => rfl
  | cons a rest =>
    cases rest with
    | nil => rfl
    | cons b rest =>
      rw [dropOnes, if_neg]
      rintro ⟨rfl, -⟩
      rw [List.headD_cons] at positive
      exact absurd positive (by decide)

/-- The number of octets, read with or without a sign. -/
def readingOf (data : List UInt8) (unsignedFlag : Bool) : Int :=
  if unsignedFlag then ofOctets data else signedOf data

/-- What is stored are the shortest octets of the number. -/
theorem store_shortest {data : List UInt8} (some : data ≠ []) (unsignedFlag : Bool) :
    ∃ x, storeDERInteger data unsignedFlag = .ok x ∧
      ShortestSigned (readingOf data unsignedFlag) x.mBytes := by
  obtain ⟨first, rest, rfl⟩ := List.exists_cons_of_ne_nil some
  rw [storeDERInteger]
  cases unsignedFlag with
  | true =>
    simp only [if_true]
    refine ⟨_, rfl, ?_⟩
    have kept := (dropZeros_shortened some).some
    have number := ofOctets_dropZeros (first :: rest)
    have reading : readingOf (first :: rest) true = ofOctets (first :: rest) := rfl
    rw [reading, ← number]
    by_cases negative : 0x80 ≤ (dropZeros (first :: rest)).headD 0
    · -- The zero octet in front makes the number read as positive.
      rw [if_pos negative]
      obtain ⟨a, more, same⟩ := List.exists_cons_of_ne_nil kept
      rw [same] at negative ⊢
      have nine : NineBits (0 :: a :: more) :=
        ⟨fun zeros => absurd zeros.2 (UInt8.not_lt.mpr negative),
          fun ones => absurd ones.1 (by decide)⟩
      have shortest := nine.shortestSigned
      have positive : ¬ signedOf (0 :: a :: more) < 0 := by
        rw [signedOf_neg_iff, List.headD_cons]
        decide
      have signed := signedOf_of_nonneg (Int.not_lt.mp positive)
      rw [ofOctets_cons] at signed
      rw [signed] at shortest
      simpa using shortest
    · rw [if_neg negative]
      have positive := UInt8.not_le.mp negative
      have nine : NineBits (dropZeros (first :: rest)) := by
        by_cases sign : (first :: rest).headD 0 < 0x80
        · exact nineBits_dropZeros some sign
        · have same := dropZeros_of_negative (UInt8.not_lt.mp sign)
          rw [same] at positive
          exact absurd positive sign
      have shortest := nine.shortestSigned
      have nonneg : ¬ signedOf (dropZeros (first :: rest)) < 0 := by
        rw [signedOf_neg_iff]
        exact negative
      rwa [signedOf_of_nonneg (Int.not_lt.mp nonneg)] at shortest
  | false =>
    have reading : readingOf (first :: rest) false = signedOf (first :: rest) := rfl
    rw [reading]
    simp only [Bool.false_eq_true, if_false]
    by_cases several : 1 < (first :: rest).length
    · rw [if_pos several]
      refine ⟨_, rfl, ?_⟩
      have ones := dropOnes_shortened some
      have signed := (ones.trans (dropZeros_shortened ones.some)).signed
      rw [← signed]
      apply NineBits.shortestSigned
      by_cases sign : (first :: rest).headD 0 < 0x80
      · rw [dropOnes_of_positive sign]
        exact nineBits_dropZeros some sign
      · obtain ⟨nine, negative⟩ := nineBits_dropOnes (UInt8.not_lt.mp sign)
        rwa [dropZeros_of_negative negative]
    · rw [if_neg several]
      refine ⟨_, rfl, ?_⟩
      have single : rest = [] := by
        rw [List.length_cons] at several
        exact List.length_eq_zero_iff.mp (by omega)
      subst single
      have nine : NineBits [first] := trivial
      exact nine.shortestSigned

theorem AsnInt.Stored.shortest {x : AsnInt} (stored : x.Stored) :
    ShortestSigned x.value x.mBytes := by
  obtain ⟨data, unsignedFlag, ran⟩ := stored
  have some : data ≠ [] := by
    rintro rfl
    cases ran
  obtain ⟨y, same, shortest⟩ := store_shortest some unsignedFlag
  rw [ran] at same
  cases same
  rwa [← shortest.signed] at shortest

/-! ## Comparing -/

/-- Arrays of one length are compared by the numbers that they write. -/
theorem memcmp_spec {s1 s2 : List UInt8} (same : s1.length = s2.length) :
    (memcmp s1 s2 < 0 ↔ ofOctets s1 < ofOctets s2) ∧ (memcmp s1 s2 = 0 ↔ s1 = s2) ∧
      (0 < memcmp s1 s2 ↔ ofOctets s2 < ofOctets s1) := by
  induction s1 generalizing s2 with
  | nil =>
    have none := List.length_eq_zero_iff.mp same.symm
    subst none
    exact ⟨iff_of_false (Int.lt_irrefl 0) (Nat.lt_irrefl 0), iff_of_true rfl rfl,
      iff_of_false (Int.lt_irrefl 0) (Nat.lt_irrefl 0)⟩
  | cons c s1 ih =>
    cases s2 with
    | nil => cases same
    | cons d s2 =>
      rw [List.length_cons, List.length_cons, Nat.succ_inj] at same
      obtain ⟨before, equal, after⟩ := ih same
      rw [memcmp, ofOctets_cons, ofOctets_cons, same]
      by_cases first : c = d
      · rw [if_pos first, before, equal, after, first]
        exact ⟨by omega, by simp, by omega⟩
      · -- The first octets decide, whatever is behind them.
        rw [if_neg first]
        have apart : c.toNat ≠ d.toNat := fun both => first (UInt8.toNat_inj.mp both)
        have low := ofOctets_lt s1
        have low' := ofOctets_lt s2
        rw [same] at low
        have differ : ¬ c :: s1 = d :: s2 := fun both => first (List.cons.inj both).1
        rcases Nat.lt_or_gt_of_ne apart with less | more
        · have product := Nat.mul_le_mul_right (256 ^ s2.length) (Nat.succ_le_of_lt less)
          rw [Nat.succ_mul] at product
          exact ⟨iff_of_true (by omega) (by omega), iff_of_false (by omega) differ,
            iff_of_false (by omega) (by omega)⟩
        · have product := Nat.mul_le_mul_right (256 ^ s2.length) (Nat.succ_le_of_lt more)
          rw [Nat.succ_mul] at product
          exact ⟨iff_of_false (by omega) (by omega), iff_of_false (by omega) differ,
            iff_of_true (by omega) (by omega)⟩

namespace AsnInt

theorem equalsInt_iff_mBytes (x o : AsnInt) : x.equalsInt o = true ↔ x.mBytes = o.mBytes := by
  unfold equalsInt
  by_cases same : x.mBytes.length = o.mBytes.length
  · rw [if_pos same, beq_iff_eq]
    exact (memcmp_spec same).2.1
  · rw [if_neg same]
    exact iff_of_false nofun fun equal => same (congrArg List.length equal)

theorem equalsInt_iff {x o : AsnInt} (stored : x.Stored) (stored' : o.Stored) :
    x.equalsInt o = true ↔ x.value = o.value := by
  rw [equalsInt_iff_mBytes]
  constructor
  · intro same
    rw [value, value, same]
  · intro same
    have shortest := stored'.shortest
    rw [← same] at shortest
    exact stored.shortest.unique shortest

theorem less_iff (x o : AsnInt) : x.less o = true ↔ x.mBytes.length < o.mBytes.length ∨
    x.mBytes.length = o.mBytes.length ∧ ofOctets x.mBytes < ofOctets o.mBytes := by
  unfold less
  by_cases shorter : x.mBytes.length < o.mBytes.length
  · rw [if_pos shorter]
    exact iff_of_true rfl (.inl shorter)
  · rw [if_neg shorter]
    by_cases longer : o.mBytes.length < x.mBytes.length
    · rw [if_pos longer]
      exact iff_of_false nofun (by omega)
    · rw [if_neg longer, decide_eq_true_iff]
      have same : x.mBytes.length = o.mBytes.length := by omega
      rw [(memcmp_spec same).1]
      constructor
      · intro before
        exact .inr ⟨same, before⟩
      · intro before
        exact (before.resolve_left shorter).2

/-- Just one of three statements holds. -/
def ExactlyOne (a b c : Prop) : Prop :=
  a ∧ ¬ b ∧ ¬ c ∨ ¬ a ∧ b ∧ ¬ c ∨ ¬ a ∧ ¬ b ∧ c

/-- The order of two integers is that of their numbers, and just one of them is before the other
unless they are equal. -/
def OrderedRight (x o : AsnInt) : Prop :=
  (x.less o = true ↔ x.value < o.value) ∧
    ExactlyOne (x.less o = true) (x.equalsInt o = true) (o.less x = true)

/-- Two integers of which none is negative, or both are with as many octets, or the negative one has
fewer octets. -/
def OrderKept (x o : AsnInt) : Prop :=
  if 0 ≤ x.value then
    if 0 ≤ o.value then True else o.mBytes.length < x.mBytes.length
  else if 0 ≤ o.value then x.mBytes.length < o.mBytes.length
  else x.mBytes.length = o.mBytes.length

theorem exactlyOne_less (x o : AsnInt) :
    ExactlyOne (x.less o = true) (x.equalsInt o = true) (o.less x = true) := by
  rw [less_iff, less_iff, equalsInt_iff_mBytes, ExactlyOne]
  by_cases same : x.mBytes.length = o.mBytes.length
  · obtain ⟨before, equal, after⟩ := memcmp_spec same
    rw [← equal]
    omega
  · have apart : x.mBytes ≠ o.mBytes := fun equal => same (congrArg List.length equal)
    rcases Nat.lt_or_gt_of_ne same with shorter | longer
    · exact .inl ⟨.inl shorter, apart, by omega⟩
    · exact .inr (.inr ⟨by omega, apart, .inl longer⟩)

/-- Integers are ordered by their numbers exactly where the lengths keep the order. -/
theorem orderedRight_iff {x o : AsnInt} (stored : x.Stored) (stored' : o.Stored) :
    x.OrderedRight o ↔ x.OrderKept o := by
  have shortest := stored.shortest
  have shortest' := stored'.shortest
  have right : x.OrderedRight o ↔ (x.less o = true ↔ x.value < o.value) :=
    ⟨fun both => both.1, fun order => ⟨order, exactlyOne_less x o⟩⟩
  rw [right, less_iff, OrderKept]
  -- Different lengths decide by the sign, and the same length by the octets.
  rcases Nat.lt_trichotomy x.mBytes.length o.mBytes.length with shorter | same | longer
  · have apart := shortest.lt_of_length_lt shortest' shorter
    by_cases left : 0 ≤ x.value <;> by_cases other : 0 ≤ o.value <;>
      simp only [left, other, if_true, if_false, iff_true] at apart ⊢ <;> omega
  · have fits := fitsOctets_signedOf shortest.some
    have fits' := fitsOctets_signedOf shortest'.some
    rw [same] at fits
    change FitsOctets x.value _ at fits
    change FitsOctets o.value _ at fits'
    have number : x.value = if 0 ≤ x.value then (ofOctets x.mBytes : Int)
        else ofOctets x.mBytes - 256 ^ o.mBytes.length := by
      split_ifs with sign
      · exact signedOf_of_nonneg sign
      · rw [← same]
        exact signedOf_of_neg (Int.not_le.mp sign)
    have number' : o.value = if 0 ≤ o.value then (ofOctets o.mBytes : Int)
        else ofOctets o.mBytes - 256 ^ o.mBytes.length := by
      split_ifs with sign
      · exact signedOf_of_nonneg sign
      · exact signedOf_of_neg (Int.not_le.mp sign)
    obtain ⟨least, most⟩ := fits
    obtain ⟨least', most'⟩ := fits'
    generalize (256 : Int) ^ o.mBytes.length = p at *
    by_cases left : 0 ≤ x.value <;> by_cases other : 0 ≤ o.value <;>
      simp only [left, other, if_true, if_false, iff_true] at number number' ⊢ <;> omega
  · have apart := shortest'.lt_of_length_lt shortest longer
    by_cases left : 0 ≤ x.value <;> by_cases other : 0 ≤ o.value <;>
      simp only [left, other, if_true, if_false, iff_true] at apart ⊢ <;> omega

/-- Two hundred is before three hundred. -/
theorem orderedRight_iff_hundreds : OrderedRight ⟨[0, 200]⟩ ⟨[1, 44]⟩ := by
  refine (orderedRight_iff ⟨[200], true, rfl⟩ ⟨[1, 44], true, rfl⟩).mpr ?_
  unfold OrderKept
  decide

/-- One is before minus one. -/
theorem not_orderedRight :
    ¬ ∀ x o : AsnInt, x.Stored → o.Stored → x.OrderedRight o := by
  intro right
  obtain ⟨order, -⟩ := right ⟨[1]⟩ ⟨[0xFF]⟩ ⟨[1], true, rfl⟩ ⟨[0xFF], false, rfl⟩
  exact absurd (order.mp (by decide)) (by decide)

/-! ## Fixed sizes -/

/-- An exception is thrown, or as many octets as asked for are given, which write the number. -/
def PadsRight (x : AsnInt) (padToSize : UInt64) : Prop :=
  ∀ bigIntDataOut, (∃ whatStr errorCode,
      x.getPadded bigIntDataOut padToSize = .error (.snaccException whatStr errorCode)) ∨
    ∃ out, x.getPadded bigIntDataOut padToSize = .ok (out, padToSize.toNat) ∧
      out.length = padToSize.toNat ∧ (ofOctets out : Int) = x.value

/-- An integer that is not negative if its octets are few enough, and of which no octet but a first
zero is too much unless the first one is none. -/
def Paddable (x : AsnInt) (padToSize : UInt64) : Prop :=
  if padToSize.toNat < x.mBytes.length then
    x.mBytes.headD 0 ≠ 0 ∨ x.mBytes.length = padToSize.toNat + 1 ∧ padToSize.toNat < 2 ^ 63
  else 0 ≤ x.value ∧ padToSize.toNat < 2 ^ 63

theorem calloc_eq (size : Nat) :
    calloc size = if size < 2 ^ 63 then .ok (.replicate size 0) else .error .fault := by
  rw [calloc]
  by_cases large : 2 ^ 63 ≤ size
  · rw [if_pos large, if_neg (Nat.not_lt.mpr large)]
    rfl
  · rw [if_neg large, if_pos (Nat.not_le.mp large)]
    rfl

theorem ofOctets_eq_value_iff (x : AsnInt) : (ofOctets x.mBytes : Int) = x.value ↔ 0 ≤ x.value := by
  constructor
  · intro same
    rw [← same]
    exact Int.natCast_nonneg _
  · intro nonneg
    exact (signedOf_of_nonneg nonneg).symm

theorem ofOctets_zeros (n : Nat) (octets : List UInt8) :
    ofOctets (List.replicate n 0 ++ octets) = ofOctets octets := by
  induction n with
  | zero => rfl
  | succ n ih => rw [List.replicate_succ, List.cons_append, ofOctets_cons, ih]; simp

/-- What is given for an integer is right exactly if it has the size and writes the number. -/
theorem padsRight_of_eq {x : AsnInt} {padToSize : UInt64} {octets : List UInt8} {size : Nat}
    (given : ∀ bigIntDataOut, x.getPadded bigIntDataOut padToSize =
      do let _ ← calloc size; return (octets, size)) (length : octets.length = size) :
    x.PadsRight padToSize ↔
      size = padToSize.toNat ∧ (ofOctets octets : Int) = x.value ∧ size < 2 ^ 63 := by
  unfold PadsRight
  simp only [given, calloc_eq]
  by_cases room : size < 2 ^ 63
  · simp only [if_pos room]
    constructor
    · intro right
      rcases right [] with ⟨_, _, failed⟩ | ⟨out, same, -, number⟩
      · cases failed
      · obtain ⟨rfl, rfl⟩ := Prod.mk.inj (Except.ok.inj same)
        exact ⟨rfl, number, room⟩
    · rintro ⟨rfl, number, -⟩ bigIntDataOut
      exact .inr ⟨octets, rfl, length, number⟩
  · simp only [if_neg room]
    constructor
    · intro right
      rcases right [] with ⟨_, _, failed⟩ | ⟨out, same, -⟩
      · cases failed
      · cases same
    · rintro ⟨-, -, few⟩
      exact absurd few room

theorem getPadded_longer {x : AsnInt} {padToSize : UInt64} (positive : 0 < padToSize)
    (longer : padToSize.toNat < x.mBytes.length) (zero : x.mBytes.headD 0 = 0)
    (bigIntDataOut : List UInt8) :
    x.getPadded bigIntDataOut padToSize =
      do let _ ← calloc (x.mBytes.length - 1); return (x.mBytes.tail, x.mBytes.length - 1) := by
  unfold getPadded
  dsimp only
  rw [if_pos positive, if_neg (Nat.lt_asymm longer), if_pos longer, if_neg (not_not.mpr zero)]

/-- Octets that are fewer than asked for get zeros in front. -/
theorem getPadded_shorter {x : AsnInt} {padToSize : UInt64} (positive : 0 < padToSize)
    (shorter : x.mBytes.length < padToSize.toNat) (bigIntDataOut : List UInt8) :
    x.getPadded bigIntDataOut padToSize =
      do
        let _ ← calloc (x.mBytes.length + (padToSize.toNat - x.mBytes.length))
        return (.replicate (padToSize.toNat - x.mBytes.length) 0 ++ x.mBytes,
          x.mBytes.length + (padToSize.toNat - x.mBytes.length)) := by
  unfold getPadded
  dsimp only
  rw [if_pos positive, if_pos shorter, calloc_eq]
  by_cases room : x.mBytes.length + (padToSize.toNat - x.mBytes.length) < 2 ^ 63
  · rw [if_pos room]
    dsimp only [bind, Except.bind, pure, Except.pure]
    rw [List.take_replicate, Nat.min_eq_left (by omega)]
  · rw [if_neg room]
    rfl

theorem getPadded_same {x : AsnInt} {padToSize : UInt64} (positive : 0 < padToSize)
    (same : x.mBytes.length = padToSize.toNat) (bigIntDataOut : List UInt8) :
    x.getPadded bigIntDataOut padToSize =
      do let _ ← calloc x.mBytes.length; return (x.mBytes, x.mBytes.length) := by
  unfold getPadded
  dsimp only
  rw [if_pos positive, if_neg (by omega), if_neg (by omega)]

theorem ofOctets_tail_eq_value {x : AsnInt} (some : x.mBytes ≠ []) (zero : x.mBytes.headD 0 = 0) :
    (ofOctets x.mBytes.tail : Int) = x.value := by
  obtain ⟨octets⟩ := x
  obtain ⟨first, rest, rfl⟩ := List.exists_cons_of_ne_nil some
  rw [List.headD_cons] at zero
  subst zero
  have top : (0 : UInt8) < 0x80 := by decide
  rw [value, signedOf, if_pos top, ofOctets_cons]
  simp

/-- An integer is padded, or refused, exactly if it can be. -/
theorem padsRight_iff (x : AsnInt) {padToSize : UInt64} (positive : 0 < padToSize) :
    x.PadsRight padToSize ↔ x.Paddable padToSize := by
  unfold Paddable
  rcases Nat.lt_trichotomy padToSize.toNat x.mBytes.length with longer | same | shorter
  · rw [if_pos longer]
    by_cases extra : x.mBytes.headD 0 ≠ 0
    · refine iff_of_true (fun bigIntDataOut => .inl ⟨"Extra octet is not zero.", 6007, ?_⟩)
        (.inl extra)
      unfold getPadded
      dsimp only
      rw [if_pos positive, if_neg (Nat.lt_asymm longer), if_pos longer, if_pos extra]
      rfl
    · -- One octet is dropped, and that is a zero.
      have zero := not_not.mp extra
      have some : x.mBytes ≠ [] := List.length_pos_iff.mp (by omega)
      have number := ofOctets_tail_eq_value some zero
      rw [padsRight_of_eq (getPadded_longer positive longer zero) List.length_tail]
      constructor
      · rintro ⟨size, -, room⟩
        exact .inr ⟨by omega, by omega⟩
      · rintro (some | ⟨size, room⟩)
        · exact absurd some extra
        · exact ⟨by omega, number, by omega⟩
  · rw [if_neg (by omega), ← ofOctets_eq_value_iff,
      padsRight_of_eq (getPadded_same positive same.symm) rfl]
    constructor
    · rintro ⟨-, number, room⟩
      exact ⟨number, by omega⟩
    · rintro ⟨number, room⟩
      exact ⟨same.symm, number, by omega⟩
  · have length : (List.replicate (padToSize.toNat - x.mBytes.length) (0 : UInt8) ++
        x.mBytes).length = x.mBytes.length + (padToSize.toNat - x.mBytes.length) := by
      rw [List.length_append, List.length_replicate, Nat.add_comm]
    rw [if_neg (by omega), ← ofOctets_eq_value_iff,
      padsRight_of_eq (getPadded_shorter positive shorter) length, ofOctets_zeros]
    constructor
    · rintro ⟨-, number, room⟩
      exact ⟨number, by omega⟩
    · rintro ⟨number, room⟩
      exact ⟨by omega, number, by omega⟩

/-- Two hundred and fifty-five in one octet, without the zero in front. -/
theorem padsRight_iff_octet : PadsRight ⟨[0, 0xFF]⟩ 1 :=
  (padsRight_iff ⟨[0, 0xFF]⟩ (by decide)).mpr (.inr (by decide))

/-- Minus one is padded as two hundred and fifty-five. -/
theorem not_padsRight :
    ¬ ∀ (x : AsnInt) (padToSize : UInt64), 0 < padToSize → x.PadsRight padToSize := by
  intro pads
  rcases pads ⟨[0xFF]⟩ 2 (by decide) [] with ⟨_, _, failed⟩ | ⟨out, same, -, number⟩
  · cases failed
  · cases same
    exact absurd number (by decide)

end AsnInt

/-! ## Contents -/

theorem foldl_bytes (octets : List UInt8) (n : UInt64) :
    octets.foldl (fun (n : UInt64) c => n <<< 8 ||| c.toUInt64) n =
      .ofNat (n.toNat * 256 ^ octets.length + ofOctets octets) := by
  induction octets generalizing n with
  | nil => simp
  | cons c rest ih =>
    rw [List.foldl_cons, ih, ofNat_digits_behind, List.length_cons]

namespace AsnInt

/-- An integer that eight octets hold is the same `long`. -/
theorem toLong_eq {x : AsnInt} (some : x.mBytes ≠ []) (short : x.mBytes.length ≤ 8) :
    ∃ i, x.toLong = .ok i ∧ i.toInt = x.value := by
  have fits := (fitsOctets_signedOf some).mono short
  obtain ⟨octets⟩ := x
  obtain ⟨first, rest, rfl⟩ := List.exists_cons_of_ne_nil some
  dsimp only at short fits
  have sign : first >>> 7 = 1 ↔ 0x80 ≤ first := by
    have each : ∀ c : Fin 256, UInt8.ofFin c >>> 7 = 1 ↔ 0x80 ≤ UInt8.ofFin c := by
      decide +kernel
    exact each first.toFin
  rw [toLong]
  dsimp only
  rw [if_neg (Nat.not_lt.mpr short)]
  refine ⟨_, rfl, ?_⟩
  have read : ∀ w : UInt64, w.toInt64.toInt = (w.toNat : Int).bmod (2 ^ 64) :=
    fun w => BitVec.toInt_eq_toNat_bmod _
  have same : value ⟨first :: rest⟩ = signedOf (first :: rest) := rfl
  have back : (signedOf (first :: rest)).bmod (2 ^ 64) = signedOf (first :: rest) := by
    obtain ⟨least, most⟩ := fits
    exact Int.bmod_eq_of_le (by omega) (by omega)
  rw [read, foldl_bytes, UInt64.toNat_ofNat', Int.natCast_emod]
  change ((_ : Int) % (2 ^ 64 : Nat)).bmod (2 ^ 64) = _
  rw [Int.emod_bmod, same, ← back, signedOf]
  by_cases positive : first < 0x80
  · rw [if_pos positive, if_neg fun top => UInt8.not_le.mpr positive (sign.mp top)]
    simp
  · -- All ones in front of the octets stand for -1.
    rw [if_neg positive, if_pos (sign.mpr (UInt8.not_lt.mp positive))]
    have ones : (0xFFFFFFFFFFFFFFFF : UInt64).toNat = 2 ^ 64 - 1 := rfl
    have around : (((0xFFFFFFFFFFFFFFFF : UInt64).toNat * 256 ^ (first :: rest).length +
        ofOctets (first :: rest) : Nat) : Int) =
        (ofOctets (first :: rest) - 256 ^ (first :: rest).length : Int) +
          (2 ^ 64 : Nat) * 256 ^ (first :: rest).length := by
      rw [ones]
      push_cast
      ring
    rw [around, Int.add_mul_bmod_self_left]

theorem writesFront_bEncContent (x : AsnInt) : WritesFront x.bEncContent x.mBytes :=
  writesFront_putSegRvs x.mBytes

/-- Octets that stand for a number are read as it, and kept in the least octets. -/
theorem bDecContent_reads {b : AsnBuf} (sound : b.Sound) {octets data : List UInt8}
    (some : octets ≠ []) (unread : b.unread = octets ++ data) (n : AsnLen) :
    ∃ y b', (bDecContent (.ofNat octets.length) n).run b =
        .ok (y, n + .ofNat octets.length) b' ∧ b'.unread = data ∧
      ShortestSigned (signedOf octets) y.mBytes := by
  have fits := sound.fits
  have within := congrArg List.length unread
  rw [List.length_append] at within
  have count : (UInt64.ofNat octets.length).toNat = octets.length :=
    UInt64.toNat_ofNat_of_lt' (by rw [UInt64.size]; omega)
  have known : UInt64.ofNat octets.length ≠ INDEFINITE_LEN := by
    intro endless
    have top : INDEFINITE_LEN.toNat = 18446744073709551615 := rfl
    rw [endless, top] at count
    omega
  obtain ⟨b', read, -, left⟩ := getUSeg_append sound unread
  obtain ⟨y, stored, shortest⟩ := store_shortest some (!decide (0x80 ≤ octets.headD 0))
  -- Octets of which the top bit is not set stand for the number that they write.
  have reading : readingOf octets (!decide (0x80 ≤ octets.headD 0)) = signedOf octets := by
    by_cases negative : 0x80 ≤ octets.headD 0
    · rw [decide_eq_true negative]
      rfl
    · have nonneg : 0 ≤ signedOf octets :=
        Int.not_lt.mp fun below => negative ((signedOf_neg_iff octets).mp below)
      rw [decide_eq_false negative, signedOf_of_nonneg nonneg]
      rfl
  rw [reading] at shortest
  refine ⟨y, b', ?_, left, shortest⟩
  rw [bDecContent, if_neg known, run_bind_of_ok read]
  dsimp only
  rw [stored, ofExcept_ok, pure_bind]
  rfl

/--
Octets are stored as the least ones of their number.

These are written again, octets that are decoded are stored in the same way, integers are equal
exactly if their numbers are, and a `long` holds the number if it can.
-/
theorem stored_spec {data : List UInt8} (some : data ≠ []) (unsignedFlag : Bool) :
    (∃ x, storeDERInteger data unsignedFlag = .ok x ∧
      ShortestSigned (readingOf data unsignedFlag) x.mBytes ∧ WritesFront x.bEncContent x.mBytes ∧
      (∀ o : AsnInt, o.Stored → (x.equalsInt o = true ↔ x.value = o.value)) ∧
      (-2 ^ 63 ≤ x.value → x.value < 2 ^ 63 → ∃ i, x.toLong = .ok i ∧ i.toInt = x.value)) ∧
    ∀ (b : AsnBuf) (rest : List UInt8) (n : AsnLen), b.Sound → b.unread = data ++ rest →
      ∃ y b', (bDecContent (.ofNat data.length) n).run b = .ok (y, n + .ofNat data.length) b' ∧
        b'.unread = rest ∧ ShortestSigned (signedOf data) y.mBytes ∧
        WritesFront y.bEncContent y.mBytes := by
  constructor
  · obtain ⟨x, ran, shortest⟩ := store_shortest some unsignedFlag
    refine ⟨x, ran, shortest, x.writesFront_bEncContent,
      fun o stored => equalsInt_iff ⟨data, unsignedFlag, ran⟩ stored, fun least most => ?_⟩
    -- Eight octets hold the number, so that the least ones are no more.
    have same : x.value = readingOf data unsignedFlag := shortest.signed
    have fits : FitsOctets (readingOf data unsignedFlag) 8 := by
      rw [← same]
      exact ⟨by omega, by omega⟩
    have nonempty : lowOctets 8 (readingOf data unsignedFlag) ≠ [] := by
      rw [← List.length_pos_iff_ne_nil, length_lowOctets]
      decide
    have short := shortest.least nonempty (signedOf_lowOctets (by decide) fits)
    rw [length_lowOctets] at short
    exact toLong_eq shortest.some short
  · intro b rest n sound unread
    obtain ⟨y, b', ran, left, shortest⟩ := bDecContent_reads sound some unread n
    exact ⟨y, b', ran, left, shortest, y.writesFront_bEncContent⟩

/-- Minus two in three octets. -/
theorem stored_spec_minus_two :
    ∃ x, storeDERInteger [0xFF, 0xFF, 0xFE] false = .ok x ∧
      ShortestSigned (readingOf [0xFF, 0xFF, 0xFE] false) x.mBytes := by
  have some : [(0xFF : UInt8), 0xFF, 0xFE] ≠ [] := List.cons_ne_nil _ _
  obtain ⟨⟨x, ran, shortest, -⟩, -⟩ := stored_spec some false
  exact ⟨x, ran, shortest⟩

end AsnInt

end Esnacc.Cxx
