import Esnacc.Cxx.PerLists

/-! What the C++ bit buffer appends of its bits to another one. -/

namespace Esnacc.Cxx

open Lib

/-! ## Source -/

/-- Put the first bits of an octet; an exception is dropped. -/
def putFirst (ch : UInt8) (numBits : Nat) (bufBitsOut : AsnBufBits) : AsnBufBits :=
  match (putSeg [ch] numBits).run bufBitsOut with
  | .ok _ bufBitsOut => bufBitsOut
  | .error _ bufBitsOut => bufBitsOut

/-- Move a number of octets, as long as there are any; the last one is returned where all were. -/
def moveOctets : Nat → UInt8 → AsnBufBits → AsnBufBits → Option UInt8 × AsnBufBits × AsnBufBits
  | 0, ch, b, bufBitsOut => (some ch, b, bufBitsOut)
  | count + 1, _, b, bufBitsOut =>
    match readByte.run b with
    | .ok ch b => moveOctets count ch b (putFirst ch 8 bufBitsOut)
    | .error _ b => (none, b, bufBitsOut)

/-- Append a buffer to another one; both are returned, and the octets stay to be read again. -/
def AsnBufBits.appendTo (b bufBitsOut : AsnBufBits) : AsnBufBits × AsnBufBits :=
  let iThisCount := (intOf b.bitsLeft).toInt
  let (ch, b', bufBitsOut) := moveOctets (iThisCount.tdiv 8).toNat 0 b bufBitsOut
  let iLeft := UInt64.ofInt (iThisCount.tmod 8)
  match ch with
  | none => ({ b' with pbuf := b.pbuf }, bufBitsOut)
  | some ch =>
    if iLeft = 0 then ({ b' with pbuf := b.pbuf }, bufBitsOut)
    else
      match (getBits iLeft).run b' with
      -- What is put is the octet that was read before, not the bits that were got.
      | .ok _ b' => ({ b' with pbuf := b.pbuf }, putFirst ch iLeft.toNat bufBitsOut)
      | .error _ b' => ({ b' with pbuf := b.pbuf }, bufBitsOut)

/-! ## What is appended -/

theorem putFirst_wrote {b : AsnBufBits} (wellFormed : b.WellFormed) (ch : UInt8) {numBits : Nat}
    (most : numBits ≤ 8) : b.Wrote ((bitsOf ch).take numBits) (putFirst ch numBits b) := by
  have put := putSeg_puts wellFormed [ch] (n := numBits) (by simpa using most) (by omega)
  obtain ⟨b', ran, wrote⟩ := put
  rw [putFirst, ran]
  rwa [List.flatMap_singleton] at wrote

/-- Octets that are there are moved. -/
theorem moveOctets_pbuf {b : AsnBufBits} {octets rest : List UInt8}
    (pbuf : b.pbuf = octets ++ rest) (ch : UInt8) {out : AsnBufBits} (wellFormed : out.WellFormed) :
    ∃ out', moveOctets octets.length ch b out =
        (some (octets.getLastD ch), { b with pbuf := rest }, out') ∧
      out.Wrote (octets.flatMap bitsOf) out' := by
  induction octets generalizing b ch out with
  | nil =>
    rw [List.nil_append] at pbuf
    subst pbuf
    exact ⟨out, rfl, .refl wellFormed⟩
  | cons c octets ih =>
    -- The first octet is read and put whole.
    have read : readByte.run b = .ok c { b with pbuf := octets ++ rest } := by
      rw [readByte, run_bind_of_ok (EStateM.run_get b), pbuf]
      rfl
    have first := putFirst_wrote wellFormed c (Nat.le_refl 8)
    rw [List.take_of_length_le (by simp)] at first
    obtain ⟨out', moved, wrote⟩ := ih (b := { b with pbuf := octets ++ rest }) rfl c first.wellFormed
    refine ⟨out', ?_, ?_⟩
    · rw [List.length_cons, moveOctets, read]
      dsimp only
      rw [moved]
      cases octets <;> rfl
    · rw [List.flatMap_cons]
      exact first.trans wrote

/-- A fresh buffer that bits were put into keeps them in whole octets and a partial one. -/
theorem AsnBufBits.Wrote.octets {bAlign : Bool} {bits : List Bool} {b : AsnBufBits}
    (wrote : (make bAlign).Wrote bits b) :
    b.pbuf.length = bits.length / 8 ∧ bits = b.pbuf.flatMap bitsOf ++ b.partWritten ∧
      b.partWritten.length = bits.length % 8 ∧ b.bitsLeft = .ofNat bits.length ∧
      b.readBitPos = 8 := by
  have queued := wrote.queued
  rw [show (make bAlign).queued = [] from rfl, List.nil_append] at queued
  have position := wrote.writePosition
  have range := wrote.wellFormed.writePos
  have part := b.length_partWritten
  have sizes := congrArg List.length queued
  rw [AsnBufBits.queued, List.length_append, length_flatMap_bitsOf] at sizes
  have left := wrote.bitsLeft
  rw [show (make bAlign).bitsLeft = 0 from rfl, UInt64.zero_add] at left
  refine ⟨by omega, queued.symm, by omega, left, wrote.readBitPos⟩

/-- The bits that are appended of a buffer: those behind the whole octets are of the last octet. -/
@[grind =] def AsnBufBits.moved (b : AsnBufBits) : List Bool :=
  b.pbuf.flatMap bitsOf ++ (bitsOf (b.pbuf.getLastD 0)).take (8 - b.writeBitPos)

/-- What is appended of a fresh buffer whose bits an `int` can count. -/
theorem AsnBufBits.Wrote.appendTo {bAlign : Bool} {bits : List Bool} {b : AsnBufBits}
    (wrote : (make bAlign).Wrote bits b) (few : bits.length < 2 ^ 31) {out : AsnBufBits}
    (wellFormed : out.WellFormed) : out.Wrote b.moved (b.appendTo out).2 := by
  obtain ⟨whole, split, part, left, readPos⟩ := wrote.octets
  rw [b.length_partWritten] at part
  have word : b.bitsLeft.toNat = bits.length := by
    rw [left, UInt64.toNat_ofNat']
    omega
  have count : (intOf b.bitsLeft).toInt = (bits.length : Int) := by
    rw [toInt_intOf_of_lt (by omega), word]
  have octets : ((bits.length : Int).tdiv 8).toNat = b.pbuf.length := by
    rw [Int.tdiv_eq_ediv_of_nonneg (Int.natCast_nonneg _), whole]
    omega
  have odd : UInt64.ofInt ((bits.length : Int).tmod 8) = .ofNat (bits.length % 8) := by
    rw [Int.tmod_eq_emod_of_nonneg (Int.natCast_nonneg _), ← ofInt_natCast]
    rfl
  have oddNat : (UInt64.ofNat (bits.length % 8)).toNat = bits.length % 8 := by
    rw [UInt64.toNat_ofNat']
    omega
  have all : b.pbuf = b.pbuf ++ [] := (List.append_nil b.pbuf).symm
  obtain ⟨out', moved, wroteOctets⟩ := moveOctets_pbuf all 0 wellFormed
  rw [AsnBufBits.appendTo, count, octets, moved, odd, AsnBufBits.moved, part]
  dsimp only
  by_cases even : UInt64.ofNat (bits.length % 8) = 0
  · -- There are whole octets only.
    rw [if_pos even]
    rw [even] at oddNat
    rw [← oddNat]
    simpa using wroteOctets
  · have more : 0 < bits.length % 8 := by
      by_contra none
      exact even (by rw [show bits.length % 8 = 0 by omega]; rfl)
    have wellFormedLeft : AsnBufBits.WellFormed { b with pbuf := [] } :=
      ⟨wrote.wellFormed.readPos, wrote.wellFormed.read, wrote.wellFormed.writePos,
        wrote.wellFormed.written⟩
    have stored : ({ b with pbuf := [] } : AsnBufBits).stored.length = bits.length % 8 := by
      rw [AsnBufBits.stored, List.length_append, AsnBufBits.length_partRead, readPos, AsnBufBits.queued,
        List.flatMap_nil, List.nil_append, AsnBufBits.length_partWritten]
      change 8 - 8 + (8 - b.writeBitPos) = _
      omega
    have fits : UInt64.ofNat (bits.length % 8) ≤ ({ b with pbuf := [] } : AsnBufBits).bitsLeft := by
      rw [UInt64.le_iff_toNat_le, oddNat]
      change _ ≤ b.bitsLeft.toNat
      omega
    obtain ⟨seg, b', got, -⟩ := getBits_read wellFormedLeft fits (by omega)
    rw [if_neg even, got, oddNat]
    exact wroteOctets.trans (putFirst_wrote wroteOctets.wellFormed _ (by omega))

theorem AsnBufBits.Wrote.length_moved {bAlign : Bool} {bits : List Bool} {b : AsnBufBits}
    (wrote : (make bAlign).Wrote bits b) : b.moved.length = bits.length := by
  obtain ⟨whole, -, part, -, -⟩ := wrote.octets
  rw [b.length_partWritten] at part
  rw [moved, List.length_append, length_flatMap_bitsOf, List.length_take, length_bitsOf]
  omega

/-- Of a fresh buffer whose bits an `int` cannot count, many bits are not appended. -/
theorem AsnBufBits.Wrote.appendTo_fewer {bAlign : Bool} {bits : List Bool} {b : AsnBufBits}
    (wrote : (make bAlign).Wrote bits b) (many : 2 ^ 31 ≤ bits.length) (small : bits.length < 2 ^ 63)
    {out : AsnBufBits} (wellFormed : out.WellFormed) :
    ∃ more, out.Wrote more (b.appendTo out).2 ∧ more.length + 2 ^ 31 ≤ bits.length := by
  obtain ⟨whole, -, -, left, -⟩ := wrote.octets
  have word : b.bitsLeft.toNat = bits.length := by
    rw [left, UInt64.toNat_ofNat']
    omega
  have residue := toInt_intOf b.bitsLeft
  rw [word, Int.bmod_def] at residue
  rw [AsnBufBits.appendTo]
  generalize (intOf b.bitsLeft).toInt = count at residue
  dsimp only
  by_cases negative : count < 0
  · -- No octets are moved, and the request for a negative number of bits is refused.
    obtain ⟨m, rfl⟩ : ∃ m : Nat, count = -m := ⟨(-count).toNat, by omega⟩
    have none : ((-(m : Int)).tdiv 8).toNat = 0 := by
      rw [Int.neg_tdiv, Int.tdiv_eq_ediv_of_nonneg (Int.natCast_nonneg m)]
      omega
    rw [none, moveOctets]
    dsimp only
    refine ⟨[], ?_, by rw [List.length_nil]; omega⟩
    by_cases even : UInt64.ofInt ((-(m : Int)).tmod 8) = 0
    · rw [if_pos even]
      exact .refl wellFormed
    · have asked : b.bitsLeft < UInt64.ofInt ((-(m : Int)).tmod 8) := by
        rw [Int.neg_tmod, Int.tmod_eq_emod_of_nonneg (Int.natCast_nonneg m)] at even ⊢
        have some : m % 8 ≠ 0 := by
          intro zero
          have cast : (m : Int) % 8 = 0 := by omega
          rw [cast] at even
          exact even rfl
        rw [UInt64.lt_iff_toNat_lt, word, UInt64.ofInt, UInt64.toNat_ofNat']
        omega
      have refused : (getBits (UInt64.ofInt ((-(m : Int)).tmod 8))).run b = .error tooManyBits b := by
        rw [getBits, run_bind_of_ok (EStateM.run_get b), if_pos asked]
        rfl
      rw [if_neg even, refused]
      exact .refl wellFormed
  · -- The octets and bits that are moved are as many as the `int` says.
    obtain ⟨m, rfl⟩ : ∃ m : Nat, count = m := ⟨count.toNat, by omega⟩
    have octets : ((m : Int).tdiv 8).toNat = (b.pbuf.take (m / 8)).length := by
      rw [Int.tdiv_eq_ediv_of_nonneg (Int.natCast_nonneg m), List.length_take, whole]
      split at residue <;> omega
    have odd : (UInt64.ofInt ((m : Int).tmod 8)).toNat = m % 8 := by
      rw [Int.tmod_eq_emod_of_nonneg (Int.natCast_nonneg m), UInt64.ofInt, UInt64.toNat_ofNat']
      omega
    obtain ⟨out', moved, wroteOctets⟩ :=
      moveOctets_pbuf (List.take_append_drop (m / 8) b.pbuf).symm 0 wellFormed
    have size : ((b.pbuf.take (m / 8)).flatMap bitsOf).length = 8 * (m / 8) := by
      rw [length_flatMap_bitsOf, ← octets, Int.tdiv_eq_ediv_of_nonneg (Int.natCast_nonneg m)]
      omega
    have fewer : m + 2 ^ 31 ≤ bits.length := by
      split at residue <;> omega
    rw [octets, moved]
    dsimp only
    split
    · exact ⟨_, wroteOctets, by omega⟩
    · split
      · have most : (UInt64.ofInt ((m : Int).tmod 8)).toNat ≤ 8 := by omega
        have last := putFirst_wrote wroteOctets.wellFormed ((b.pbuf.take (m / 8)).getLastD 0) most
        refine ⟨_, wroteOctets.trans last, ?_⟩
        rw [List.length_append, List.length_take, length_bitsOf]
        omega
      · exact ⟨_, wroteOctets, by omega⟩

end Esnacc.Cxx
