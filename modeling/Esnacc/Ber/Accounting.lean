import Esnacc.Ber.InOrder
import Esnacc.Ber.Strings

/-! The octets a content decoder takes from its buffer, against the length it was given. -/

namespace Esnacc

open Lib

section

variable {β : Type} [GenBuf β]
variable {tag : AsnTag} {len n n' : AsnLen} {s s' : DecState β}

theorem afterOctets_add (m k : Nat) (b : β) :
    afterOctets (m + k) b = afterOctets k (afterOctets m b) := by
  induction m generalizing b with
  | zero => simp [afterOctets]
  | succ m ih => rw [Nat.succ_add, afterOctets, ih, afterOctets]

/-! ## When a decoder returns, and what it has read by then -/

/-- A decoder that checks for a read error last returns only without one. -/
theorem checked_eq_ok {α : Type} {str : String} {val : Int32} {v r : α} :
    (do if ← bufReadError then asn1Error str val else return v : Dec β α).run s = .ok r s' ↔
      s' = s ∧ GenBuf.readError s.buf = false ∧ r = v := by
  rw [EStateM.run_bind, run_bufReadError]
  cases failed : GenBuf.readError s.buf with
  | true => simp
  | false =>
    simp only [Bool.false_eq_true, if_false, EStateM.run_pure, EStateM.Result.ok.injEq, true_and]
    constructor
    · rintro ⟨rfl, rfl⟩
      exact ⟨rfl, rfl⟩
    · rintro ⟨rfl, rfl⟩
      exact ⟨rfl, rfl⟩

theorem returns_bool :
    (∃ v, (bDecAsnBoolContent tag len n).run s = .ok (v, n') s') ↔
      len = 1 ∧ s' = { s with buf := afterOctets 1 s.buf } ∧
        GenBuf.readError s'.buf = false ∧ n' = n + len := by
  unfold bDecAsnBoolContent
  by_cases one : len = 1
  · subst one
    simp only [bne_self_eq_false, Bool.false_eq_true, if_false, EStateM.run_bind (x := bufGetByte),
      run_bufGetByte, checked_eq_ok, afterOctets, true_and, Prod.mk.injEq]
    grind
  · simp [one]

/-- An INTEGER is decoded from at least one octet, even where its length is zero. -/
theorem returns_int :
    (∃ v, (bDecAsnIntContent tag len n).run s = .ok (v, n') s') ↔
      len ≤ 4 ∧ s' = { s with buf := afterOctets (1 + turnsUpTo len 1) s.buf } ∧
        GenBuf.readError s'.buf = false ∧ n' = n + len := by
  unfold bDecAsnIntContent
  by_cases big : len > 4
  · simp [big, UInt64.not_le.mpr big]
  · obtain ⟨val, read⟩ := run_shiftOctetsIn (turnsUpTo len 1)
      (if (GenBuf.getByte s.buf).1 &&& 0x80 != 0 then
        0xffffff00 ||| (GenBuf.getByte s.buf).1.toUInt64 else (GenBuf.getByte s.buf).1.toUInt64)
      { s with buf := (GenBuf.getByte s.buf).2 }
    have small : len ≤ 4 := UInt64.not_lt.mp big
    rw [afterOctets_add]
    simp only [if_neg big, EStateM.run_bind (x := bufGetByte), run_bufGetByte,
      EStateM.run_bind (x := shiftOctetsIn _ _), read, checked_eq_ok, afterOctets, Prod.mk.injEq,
      small, true_and]
    grind

/-- A nonnegative INTEGER is decoded from at least one octet as well. -/
theorem returns_uint :
    (∃ v, (bDecUAsnIntContent tag len n).run s = .ok (v, n') s') ↔
      (len ≤ 5 ∧ (GenBuf.getByte s.buf).1 &&& 0x80 = 0 ∧
        ¬ (len = 5 ∧ (GenBuf.getByte s.buf).1 ≠ 0)) ∧
      s' = { s with buf := afterOctets (1 + turnsUpTo len 1) s.buf } ∧
        GenBuf.readError s'.buf = false ∧ n' = n + len := by
  unfold bDecUAsnIntContent
  rw [EStateM.run_bind (x := bufGetByte), run_bufGetByte]
  by_cases big : len > 5
  · simp [big, UInt64.not_le.mpr big]
  have small : len ≤ 5 := UInt64.not_lt.mp big
  by_cases negative : (GenBuf.getByte s.buf).1 &&& 0x80 = 0
  · by_cases long : len = 5 ∧ (GenBuf.getByte s.buf).1 ≠ 0
    · simp [negative, long]
    · obtain ⟨val, read⟩ := run_shiftOctetsIn (turnsUpTo len 1)
        (GenBuf.getByte s.buf).1.toUInt64 { s with buf := (GenBuf.getByte s.buf).2 }
      have short : ¬ (len == 5 && (GenBuf.getByte s.buf).1 != 0) = true := by simpa using long
      rw [afterOctets_add]
      simp only [if_neg big, if_neg short, negative, bne_self_eq_false, Bool.false_eq_true,
        if_false, EStateM.run_bind (x := shiftOctetsIn _ _), read, checked_eq_ok, afterOctets,
        Prod.mk.injEq, small, long, not_false_eq_true, true_and]
      grind
  · simp [big, negative]

/-- An OBJECT IDENTIFIER is decoded by one copy. -/
theorem returns_oid {v : AsnOid} (done : (bDecAsnOidContent tag len n).run s = .ok (v, n') s') :
    GenBuf.readError s'.buf = false ∧ n' = n + len ∧
      ∃ octets, GenBuf.copy s.buf len = some (octets, s'.buf) := by
  unfold bDecAsnOidContent at done
  split at done
  · simp at done
  · obtain ⟨size, t, allocated, done⟩ := run_bind_eq_ok.mp done
    obtain ⟨octs, u, copied, done⟩ := run_bind_eq_ok.mp done
    obtain ⟨rfl, clear, same⟩ := checked_eq_ok.mp done
    obtain rfl := asn1Alloc_eq_ok allocated
    simp only [Prod.mk.injEq] at same
    exact ⟨clear, same.2, bufCopy_eq_ok copied⟩

/-- A primitive OCTET STRING is decoded by one copy. -/
theorem returns_octs {fuel : Nat} {v : AsnOcts} (primitive : tagIsCons tag = false)
    (done : (bDecAsnOctsContent fuel tag len n).run s = .ok (v, n') s') :
    GenBuf.readError s'.buf = false ∧ n' = n + len ∧
      ∃ octets, GenBuf.copy s.buf len = some (octets, s'.buf) := by
  unfold bDecAsnOctsContent at done
  simp only [primitive, Bool.false_eq_true, if_false] at done
  split at done
  · simp at done
  · obtain ⟨size, t, allocated, done⟩ := run_bind_eq_ok.mp done
    obtain ⟨octs, u, copied, done⟩ := run_bind_eq_ok.mp done
    obtain ⟨failed, w, checked, done⟩ := run_bind_eq_ok.mp done
    rw [run_bufReadError, EStateM.Result.ok.injEq] at checked
    obtain ⟨rfl, rfl⟩ := checked
    split at done
    · simp at done
    · rename_i clear
      obtain ⟨block, w, stored, done⟩ := run_bind_eq_ok.mp done
      obtain ⟨rfl, same⟩ := run_pure_eq_ok.mp done
      obtain rfl := storeInto_eq_ok stored
      obtain rfl := asn1Alloc_eq_ok allocated
      simp only [Prod.mk.injEq] at same
      exact ⟨by simpa using clear, same.2, bufCopy_eq_ok copied⟩

/-- A primitive BIT STRING is decoded by reading one octet and copying the others. -/
theorem returns_bits {fuel : Nat} {v : AsnBits} (primitive : tagIsCons tag = false)
    (done : (bDecAsnBitsContent fuel tag len n).run s = .ok (v, n') s') :
    len ≠ 0 ∧ GenBuf.readError s'.buf = false ∧ n' = n + len ∧
      ∃ octets, GenBuf.copy (afterOctets 1 s.buf) (len - 1) = some (octets, s'.buf) := by
  unfold bDecAsnBitsContent at done
  simp only [primitive, Bool.false_eq_true, if_false] at done
  split at done
  · simp at done
  · split at done
    · simp at done
    · rename_i nonzero
      rw [EStateM.run_bind (x := bufGetByte), run_bufGetByte] at done
      obtain ⟨size, t, allocated, done⟩ := run_bind_eq_ok.mp done
      obtain ⟨octs, u, copied, done⟩ := run_bind_eq_ok.mp done
      obtain ⟨rfl, clear, same⟩ := checked_eq_ok.mp done
      obtain rfl := asn1Alloc_eq_ok allocated
      simp only [Prod.mk.injEq] at same
      exact ⟨by simpa using nonzero, clear, same.2, bufCopy_eq_ok copied⟩

/-! ## Reals -/

/--
The octets a real's exponent counts for and the octets read for it after the first, given the first
octet of the real and the first one of the exponent.

There are none where the loop over a long exponent has a turn, for then it has no last one.
-/
def expOctets (firstOctet firstExpOctet : UInt8) : Option (Nat × Nat) :=
  let explen := firstOctet &&& REAL_EXPLEN_MASK
  if explen = REAL_EXPLEN_1 then some (1, 0)
  else if explen = REAL_EXPLEN_2 then some (2, 1)
  else if explen = REAL_EXPLEN_3 then some (3, 2)
  else if firstExpOctet < 2 then some (firstExpOctet.toNat + 1, 1)
  else none

theorem expOctets_le {firstOctet firstExpOctet : UInt8} {l k : Nat}
    (counted : expOctets firstOctet firstExpOctet = some (l, k)) : l ≤ 256 := by
  have bound := UInt8.toNat_lt firstExpOctet
  simp only [expOctets] at counted
  grind

theorem longExponent_turns (firstExpOctet : UInt8) :
    firstExpOctet.toUInt32.toInt32 - 1 > 0 ↔ ¬ firstExpOctet < 2 := by
  have bound := UInt8.toNat_lt firstExpOctet
  -- An octet keeps its value when it is widened, and the subtraction stays in range.
  have value : firstExpOctet.toUInt32.toInt32.toInt = firstExpOctet.toNat := by
    rw [Int32.toInt, UInt32.toBitVec_toInt32, BitVec.toInt_eq_toNat_bmod, UInt32.toNat_toBitVec,
      UInt8.toNat_toUInt32, Int.bmod_eq_of_le (by omega) (by omega)]
  rw [gt_iff_lt, Int32.lt_iff_toInt_lt, Int32.toInt_sub, value, UInt8.lt_iff_toNat_lt]
  rw [Int.bmod_eq_of_le] <;> simp <;> omega

theorem expOctetsLoop_ne_ok {i : Int32} (turns : i > 0) (fuel : Nat) (exponent r : UInt64) :
    (expOctetsLoop i fuel exponent).run s ≠ .ok r s' := by
  induction fuel generalizing exponent s with
  | zero =>
    intro done
    cases done
  | succ fuel ih =>
    rw [expOctetsLoop, if_pos turns, EStateM.run_bind, run_bufGetByte]
    exact ih _

/-- An exponent is decoded from the octets counted for it, given a turn to end its loop in. -/
theorem decExponent_eq_ok (fuel : Nat) {firstOctet firstExpOctet : UInt8} {l k : Nat}
    (counted : expOctets firstOctet firstExpOctet = some (l, k)) :
    ∃ e, (decExponent (fuel + 1) firstOctet firstExpOctet).run s =
      .ok (UInt32.ofNat l, e) { s with buf := afterOctets k s.buf } := by
  simp only [expOctets] at counted
  simp only [decExponent, beq_iff_eq]
  split at counted
  · cases counted
    exact ⟨_, by rw [if_pos ‹_›]; rfl⟩
  split at counted
  · cases counted
    exact ⟨_, by rw [if_neg ‹_›, if_pos ‹_›]; rfl⟩
  split at counted
  · cases counted
    exact ⟨_, by rw [if_neg ‹_›, if_neg ‹_›, if_pos ‹_›]; rfl⟩
  split at counted
  · rename_i short
    cases counted
    -- A long exponent of at most one octet leaves no turn to its loop.
    have ends : ¬ firstExpOctet.toUInt32.toInt32 - 1 > 0 := by
      rw [longExponent_turns, not_not]
      exact short
    have bound := UInt8.toNat_lt firstExpOctet
    have octets : firstExpOctet.toUInt32 + 1 = UInt32.ofNat (firstExpOctet.toNat + 1) := by
      rw [← UInt32.toNat_inj, UInt32.toNat_add, UInt32.toNat_ofNat', UInt8.toNat_toUInt32]
      rfl
    simp only [‹¬ firstOctet &&& REAL_EXPLEN_MASK = REAL_EXPLEN_1›,
      ‹¬ firstOctet &&& REAL_EXPLEN_MASK = REAL_EXPLEN_2›,
      ‹¬ firstOctet &&& REAL_EXPLEN_MASK = REAL_EXPLEN_3›, if_false, EStateM.run_bind,
      run_bufGetByte, expOctetsLoop, if_neg ends, EStateM.run_pure, octets]
    exact ⟨_, rfl⟩
  · cases counted

/-- A decoded exponent has been read from the octets counted for it. -/
theorem expOctets_of_ok {fuel : Nat} {firstOctet firstExpOctet : UInt8} {l : UInt32} {e : UInt64}
    (done : (decExponent fuel firstOctet firstExpOctet).run s = .ok (l, e) s') :
    ∃ k, expOctets firstOctet firstExpOctet = some (l.toNat, k) ∧
      s' = { s with buf := afterOctets k s.buf } := by
  simp only [decExponent, beq_iff_eq] at done
  simp only [expOctets]
  split at done
  · rw [if_pos ‹_›]
    cases done
    exact ⟨0, rfl, rfl⟩
  split at done
  · rw [if_neg ‹_›, if_pos ‹_›]
    cases done
    exact ⟨1, rfl, rfl⟩
  split at done
  · rw [if_neg ‹_›, if_neg ‹_›, if_pos ‹_›]
    cases done
    exact ⟨2, rfl, rfl⟩
  · rw [if_neg ‹_›, if_neg ‹_›, if_neg ‹_›]
    rw [EStateM.run_bind, run_bufGetByte] at done
    obtain ⟨e', t, looped, done⟩ := run_bind_eq_ok.mp done
    obtain ⟨rfl, same⟩ := run_pure_eq_ok.mp done
    simp only [Prod.mk.injEq] at same
    obtain ⟨rfl, rfl⟩ := same
    by_cases turns : firstExpOctet.toUInt32.toInt32 - 1 > 0
    · exact absurd looped (expOctetsLoop_ne_ok turns fuel _ _)
    · have short : firstExpOctet < 2 := by
        rwa [longExponent_turns, not_not] at turns
      refine ⟨1, ?_, ?_⟩
      · rw [if_pos short, UInt32.toNat_add, UInt8.toNat_toUInt32]
        have bound := UInt8.toNat_lt firstExpOctet
        rw [Nat.mod_eq_of_lt (by simp; omega)]
        rfl
      · cases fuel with
        | zero => cases looped
        | succ fuel =>
          rw [expOctetsLoop, if_neg turns] at looped
          cases looped
          rfl

theorem run_mantissaOctets (turns : Nat) (mantissa : Float) (s : DecState β) :
    ∃ r, (mantissaOctets turns mantissa).run s = .ok r { s with buf := afterOctets turns s.buf } := by
  induction turns generalizing mantissa s with
  | zero => exact ⟨mantissa, rfl⟩
  | succ turns ih =>
    rw [mantissaOctets, EStateM.run_bind, run_bufGetByte]
    exact ih _ { s with buf := (GenBuf.getByte s.buf).2 }

/--
The octets read for a real of more than one octet, given its first two.

There are none for a form that is refused or never ends.
-/
def realOctets (len : AsnLen) (firstOctet firstExpOctet : UInt8) : Option Nat :=
  if firstOctet &&& REAL_BINARY = 0 ∨ realBase firstOctet = none then none
  else
    (expOctets firstOctet firstExpOctet).map fun (l, k) => 2 + k + turnsUpTo len (1 + l)

/-- Decoding the rest of a binary real that ends has read the octets counted for it. -/
theorem expOctets_of_binaryReal {fuel : Nat} {firstOctet : UInt8} {v : AsnReal}
    (done : (bDecBinaryReal fuel firstOctet len n).run s = .ok (v, n') s') :
    realBase firstOctet ≠ none ∧ n' = n + len ∧
      ∃ l k, expOctets firstOctet (GenBuf.getByte s.buf).1 = some (l, k) ∧
        s' = { s with buf := afterOctets (1 + k + turnsUpTo len (1 + l)) s.buf } := by
  rw [bDecBinaryReal, EStateM.run_bind, run_bufGetByte] at done
  obtain ⟨⟨l, e⟩, t, counted, done⟩ := run_bind_eq_ok.mp done
  obtain ⟨k, octets, rfl⟩ := expOctets_of_ok counted
  obtain ⟨mantissa, t, read, done⟩ := run_bind_eq_ok.mp done
  obtain ⟨mantissa', read'⟩ := run_mantissaOctets (turnsUpTo len (1 + l.toNat)) 0.0
    { s with buf := afterOctets k (afterOctets 1 s.buf) }
  obtain ⟨rfl, rfl⟩ := EStateM.Result.ok.inj (read'.symm.trans read)
  cases base : realBase firstOctet with
  | none => simp [base] at done
  | some radix =>
    simp only [base] at done
    obtain ⟨rfl, same⟩ := run_pure_eq_ok.mp done
    simp only [Prod.mk.injEq] at same
    refine ⟨by simp, same.2, l.toNat, k, octets, ?_⟩
    rw [afterOctets_add, afterOctets_add]

/-- The rest of a binary real is decoded from the octets counted for it. -/
theorem binaryReal_eq_ok {fuel l k : Nat} {firstOctet : UInt8}
    (base : realBase firstOctet ≠ none)
    (counted : expOctets firstOctet (GenBuf.getByte s.buf).1 = some (l, k)) :
    ∃ v, (bDecBinaryReal (fuel + 1) firstOctet len n).run s =
      .ok (v, n + len) { s with buf := afterOctets (1 + k + turnsUpTo len (1 + l)) s.buf } := by
  obtain ⟨radix, supported⟩ := Option.ne_none_iff_exists'.mp base
  obtain ⟨e, exponent⟩ :=
    decExponent_eq_ok (s := { s with buf := (GenBuf.getByte s.buf).2 }) fuel counted
  have small := expOctets_le counted
  have length : (UInt32.ofNat l).toNat = l := by
    rw [UInt32.toNat_ofNat', Nat.mod_eq_of_lt (by omega)]
  obtain ⟨mantissa, read⟩ := run_mantissaOctets (turnsUpTo len (1 + l)) 0.0
    { s with buf := afterOctets k (afterOctets 1 s.buf) }
  rw [afterOctets_add, afterOctets_add]
  simp only [bDecBinaryReal, EStateM.run_bind, run_bufGetByte, exponent, length]
  rw [show afterOctets k (GenBuf.getByte s.buf).2 = afterOctets k (afterOctets 1 s.buf) from rfl]
  simp only [read, supported, EStateM.run_pure]
  exact ⟨_, rfl⟩

/-- The first two octets of a buffer, as single-octet reads return them. -/
def firstTwo (b : β) : UInt8 × UInt8 :=
  ((GenBuf.getByte b).1, (GenBuf.getByte (afterOctets 1 b)).1)

theorem run_realContent {fuel : Nat} (nonzero : len ≠ 0) (notOne : len ≠ 1)
    (definite : len ≠ INDEFINITE_LEN) (binary : (GenBuf.getByte s.buf).1 &&& REAL_BINARY ≠ 0) :
    (bDecAsnRealContent fuel tag len n).run s =
      (bDecBinaryReal fuel (GenBuf.getByte s.buf).1 len n).run
        { s with buf := afterOctets 1 s.buf } := by
  unfold bDecAsnRealContent
  simp only [beq_iff_eq, nonzero, notOne, definite, if_false, EStateM.run_bind, run_bufGetByte,
    bne_iff_ne, ne_eq, binary, not_false_eq_true, if_true]
  rfl

theorem binary_of_ok {fuel : Nat} {v : AsnReal} (nonzero : len ≠ 0) (notOne : len ≠ 1)
    (definite : len ≠ INDEFINITE_LEN)
    (done : (bDecAsnRealContent fuel tag len n).run s = .ok (v, n') s') :
    (GenBuf.getByte s.buf).1 &&& REAL_BINARY ≠ 0 := by
  intro decimal
  simp [bDecAsnRealContent, nonzero, notOne, definite, decimal] at done

/-- A real of more than one octet is decoded exactly where its octets are counted. -/
theorem returns_real (nonzero : len ≠ 0) (notOne : len ≠ 1) (definite : len ≠ INDEFINITE_LEN) :
    (∃ fuel v, (bDecAsnRealContent fuel tag len n).run s = .ok (v, n') s') ↔
      ∃ octets, realOctets len (firstTwo s.buf).1 (firstTwo s.buf).2 = some octets ∧
        s' = { s with buf := afterOctets octets s.buf } ∧ n' = n + len := by
  constructor
  · rintro ⟨fuel, v, done⟩
    have binary := binary_of_ok nonzero notOne definite done
    rw [run_realContent nonzero notOne definite binary] at done
    obtain ⟨base, rfl, l, k, octets, rfl⟩ := expOctets_of_binaryReal done
    have kept : ¬ ((firstTwo s.buf).1 &&& REAL_BINARY = 0 ∨ realBase (firstTwo s.buf).1 = none) :=
      fun refused => refused.elim binary base
    have counted : expOctets (firstTwo s.buf).1 (firstTwo s.buf).2 = some (l, k) := octets
    refine ⟨2 + k + turnsUpTo len (1 + l), ?_, ?_, rfl⟩
    · rw [realOctets, if_neg kept, counted]
      rfl
    · rw [show 2 + k + turnsUpTo len (1 + l) = 1 + (1 + k + turnsUpTo len (1 + l)) by omega,
        afterOctets_add 1 (1 + k + turnsUpTo len (1 + l))]
  · rintro ⟨octets, counted, rfl, rfl⟩
    rw [realOctets] at counted
    split at counted
    · cases counted
    · rename_i kept
      rw [not_or] at kept
      obtain ⟨⟨l, k⟩, octets', rfl⟩ := Option.map_eq_some_iff.mp counted
      obtain ⟨v, done⟩ : ∃ v, (bDecBinaryReal 1 (firstTwo s.buf).1 len n).run
          { s with buf := afterOctets 1 s.buf } = .ok (v, n + len)
            { s with buf := afterOctets (1 + k + turnsUpTo len (1 + l)) (afterOctets 1 s.buf) } :=
        binaryReal_eq_ok kept.2 octets'
      refine ⟨1, v, ?_⟩
      rw [run_realContent nonzero notOne definite kept.1]
      dsimp only
      rw [show 2 + k + turnsUpTo len (1 + l) = 1 + (1 + k + turnsUpTo len (1 + l)) by omega,
        afterOctets_add 1 (1 + k + turnsUpTo len (1 + l))]
      exact done

/-! ## What is taken against what is counted -/

/--
Whenever a decoder returns, it has taken as many octets from the buffer as its length says, and its
count has grown by the same number.
-/
def Accounted {α : Type} (unread : β → List UInt8) (decode : ContentDecoder β α) (tag : AsnTag)
    (len n : AsnLen) (s : DecState β) : Prop :=
  ∀ v n' s', (decode tag len n).run s = .ok (v, n') s' →
    (unread s.buf).length = len.toNat + (unread s'.buf).length ∧ n' = n + len

variable {inv : β → Prop} {handles : UInt64 → Prop} {unread : β → List UInt8}

theorem InOrder.length_of_copy (inOrder : InOrder inv handles unread) {b b' : β}
    {octets : List UInt8} (holds : inv b) (handled : handles len)
    (copied : GenBuf.copy b len = some (octets, b')) (clear : GenBuf.readError b' = false) :
    (unread b).length = len.toNat + (unread b').length := by
  obtain ⟨-, split, taken⟩ := inOrder.copy_clear holds handled copied clear
  rw [split, List.length_append, taken]

theorem InOrder.length_of_clear (inOrder : InOrder inv handles unread) {b : β} (holds : inv b)
    (m : Nat) (clear : GenBuf.readError (Esnacc.afterOctets m b) = false) :
    (unread b).length = m + (unread (Esnacc.afterOctets m b)).length := by
  obtain ⟨-, rest, error⟩ := inOrder.afterOctets m holds
  rw [clear] at error
  simp only [Bool.false_eq, Bool.or_eq_false_iff, decide_eq_false_iff_not, Nat.not_lt] at error
  rw [rest, List.length_drop]
  omega

theorem InOrder.accounted_bool (inOrder : InOrder inv handles unread) (holds : inv s.buf) :
    Accounted unread bDecAsnBoolContent tag len n s := by
  intro v n' s' done
  obtain ⟨rfl, rfl, clear, rfl⟩ := returns_bool.mp ⟨v, done⟩
  exact ⟨inOrder.length_of_clear holds 1 clear, rfl⟩

theorem InOrder.accounted_oid (inOrder : InOrder inv handles unread) (holds : inv s.buf)
    (handled : handles len) : Accounted unread bDecAsnOidContent tag len n s := by
  intro v n' s' done
  obtain ⟨clear, rfl, octets, copied⟩ := returns_oid done
  exact ⟨inOrder.length_of_copy holds handled copied clear, rfl⟩

theorem InOrder.accounted_octs (inOrder : InOrder inv handles unread) (holds : inv s.buf)
    (handled : handles len) (primitive : tagIsCons tag = false) (fuel : Nat) :
    Accounted unread (bDecAsnOctsContent fuel) tag len n s := by
  intro v n' s' done
  obtain ⟨clear, rfl, octets, copied⟩ := returns_octs primitive done
  exact ⟨inOrder.length_of_copy holds handled copied clear, rfl⟩

theorem InOrder.accounted_bits (inOrder : InOrder inv handles unread) (holds : inv s.buf)
    (handled : len ≠ 0 → handles (len - 1)) (primitive : tagIsCons tag = false) (fuel : Nat) :
    Accounted unread (bDecAsnBitsContent fuel) tag len n s := by
  intro v n' s' done
  obtain ⟨nonzero, clear, rfl, octets, copied⟩ := returns_bits primitive done
  obtain ⟨holds', -, -⟩ := inOrder.afterOctets 1 holds
  -- The copy keeps the error of the octet before it, so that octet was there.
  obtain ⟨clear', -, -⟩ := inOrder.copy_clear holds' (handled nonzero) copied clear
  have first := inOrder.length_of_clear holds 1 clear'
  have others := inOrder.length_of_copy holds' (handled nonzero) copied clear
  have pos : len.toNat ≠ 0 := fun zero => nonzero (UInt64.toNat_inj.mp zero)
  have less : (len - 1).toNat = len.toNat - 1 := by
    rw [UInt64.toNat_sub_of_le _ _ (by rw [UInt64.le_iff_toNat_le, UInt64.toNat_one]; omega)]
    rfl
  exact ⟨by omega, rfl⟩

theorem turnsUpTo_one (short : len ≤ 5) : 1 + turnsUpTo len 1 = max 1 len.toNat := by
  rw [UInt64.le_iff_toNat_le] at short
  have small : len.toNat < 2 ^ 31 := by
    have five : (5 : UInt64).toNat = 5 := rfl
    omega
  rw [turnsUpTo, toInt_intOf_of_lt small]
  omega

theorem InOrder.length_eq_iff (inOrder : InOrder inv handles unread) {b : β} (holds : inv b)
    (short : len ≤ 5)
    (clear : GenBuf.readError (Esnacc.afterOctets (1 + turnsUpTo len 1) b) = false) :
    (unread b).length =
        len.toNat + (unread (Esnacc.afterOctets (1 + turnsUpTo len 1) b)).length ↔ len ≠ 0 := by
  have taken := inOrder.length_of_clear holds _ clear
  rw [turnsUpTo_one short] at taken ⊢
  rw [taken, ne_eq, ← UInt64.toNat_inj, UInt64.toNat_zero]
  omega

theorem InOrder.clear_of_empty_iff (inOrder : InOrder inv handles unread) {b : β} (holds : inv b) :
    GenBuf.readError (Esnacc.afterOctets (1 + turnsUpTo 0 1) b) = false ↔
      ¬ (unread b = [] ∨ GenBuf.readError b = true) := by
  obtain ⟨-, -, error⟩ := inOrder.afterOctets 1 holds
  rw [show 1 + turnsUpTo 0 1 = 1 by decide, error]
  simp only [Bool.or_eq_false_iff, decide_eq_false_iff_not, Nat.lt_one_iff,
    List.length_eq_zero_iff, not_or, Bool.not_eq_true]
  exact And.comm

/-- An INTEGER is accounted for unless its length is zero and an octet is read all the same. -/
theorem InOrder.accounted_int_iff (inOrder : InOrder inv handles unread) (holds : inv s.buf) :
    Accounted unread bDecAsnIntContent tag len n s ↔
      len ≠ 0 ∨ unread s.buf = [] ∨ GenBuf.readError s.buf = true := by
  constructor
  · intro accounted
    by_contra fails
    rw [not_or, not_not] at fails
    obtain ⟨rfl, left⟩ := fails
    -- An empty integer is decoded from the octet that follows it.
    have clear := (inOrder.clear_of_empty_iff holds).mpr left
    obtain ⟨v, done⟩ : ∃ v, (bDecAsnIntContent tag 0 n).run s = .ok (v, n + 0)
        { s with buf := Esnacc.afterOctets (1 + turnsUpTo 0 1) s.buf } :=
      returns_int.mpr ⟨by decide, rfl, clear, rfl⟩
    have taken := (accounted v _ _ done).1
    exact (inOrder.length_eq_iff holds (by decide) clear).mp taken rfl
  · intro sound v n' s' done
    obtain ⟨short, rfl, clear, rfl⟩ := returns_int.mp ⟨v, done⟩
    have short' : len ≤ 5 := UInt64.le_trans short (by decide)
    refine ⟨(inOrder.length_eq_iff holds short' clear).mpr ?_, rfl⟩
    rintro rfl
    exact (inOrder.clear_of_empty_iff holds).mp clear (sound.resolve_left (by simp))

/-- A nonnegative INTEGER is refused besides where the octet read for it has its top bit set. -/
theorem InOrder.accounted_uint_iff (inOrder : InOrder inv handles unread) (holds : inv s.buf) :
    Accounted unread bDecUAsnIntContent tag len n s ↔
      len ≠ 0 ∨ (unread s.buf = [] ∨ GenBuf.readError s.buf = true) ∨
        (unread s.buf).headD 0 &&& 0x80 ≠ 0 := by
  rw [← inOrder.getByte_fst holds]
  constructor
  · intro accounted
    by_contra fails
    rw [not_or, not_or, not_not, not_not] at fails
    obtain ⟨rfl, left, positive⟩ := fails
    have clear := (inOrder.clear_of_empty_iff holds).mpr left
    obtain ⟨v, done⟩ : ∃ v, (bDecUAsnIntContent tag 0 n).run s = .ok (v, n + 0)
        { s with buf := Esnacc.afterOctets (1 + turnsUpTo 0 1) s.buf } :=
      returns_uint.mpr ⟨⟨by decide, positive, by simp⟩, rfl, clear, rfl⟩
    have taken := (accounted v _ _ done).1
    exact (inOrder.length_eq_iff holds (by decide) clear).mp taken rfl
  · intro sound v n' s' done
    obtain ⟨⟨short, positive, -⟩, rfl, clear, rfl⟩ := returns_uint.mp ⟨v, done⟩
    refine ⟨(inOrder.length_eq_iff holds short clear).mpr ?_, rfl⟩
    rintro rfl
    rcases sound with nonzero | empty | negative
    · exact nonzero rfl
    · exact (inOrder.clear_of_empty_iff holds).mp clear empty
    · exact negative positive

theorem InOrder.firstTwo_eq (inOrder : InOrder inv handles unread) {b : β} (holds : inv b) :
    firstTwo b = ((unread b).headD 0, (unread b).tail.headD 0) := by
  obtain ⟨holds', rest, -⟩ := inOrder.afterOctets 1 holds
  rw [firstTwo, inOrder.getByte_fst holds, inOrder.getByte_fst holds', rest, List.drop_one]

/-- A REAL of one octet is read from it or refused. -/
theorem InOrder.accounted_infinity (inOrder : InOrder inv handles unread) (holds : inv s.buf)
    (fuel : Nat) : Accounted unread (bDecAsnRealContent fuel) tag 1 n s := by
  intro v n' s' done
  obtain ⟨-, rest, -⟩ := inOrder.afterOctets 1 holds
  -- An exhausted buffer delivers a zero, which stands for neither infinity.
  have first := inOrder.getByte_fst holds
  unfold bDecAsnRealContent at done
  rw [if_neg (by decide), if_neg (by decide), EStateM.run_bind, run_bufGetByte] at done
  simp only [beq_self_eq_true, if_true, first] at done
  cases held : unread s.buf with
  | nil => simp [held, ENC_PLUS_INFINITY, ENC_MINUS_INFINITY] at done
  | cons x tail =>
    have one : (unread (GenBuf.getByte s.buf).2) = tail := by
      rw [held] at rest
      exact rest
    split at done
    · cases done
      exact ⟨by simp [one]; omega, rfl⟩
    · split at done
      · cases done
        exact ⟨by simp [one]; omega, rfl⟩
      · simp at done

/-- A REAL is accounted for where the octets its form announces are as many as its length says. -/
theorem InOrder.accounted_real_iff (inOrder : InOrder inv handles unread) (holds : inv s.buf)
    (definite : len ≠ INDEFINITE_LEN) :
    (∀ fuel, Accounted unread (bDecAsnRealContent fuel) tag len n s) ↔
      len ≤ 1 ∨ ∀ octets,
        realOctets len ((unread s.buf).headD 0) ((unread s.buf).tail.headD 0) = some octets →
          min octets (unread s.buf).length = len.toNat := by
  have firsts := inOrder.firstTwo_eq holds
  rw [show (unread s.buf).headD 0 = (firstTwo s.buf).1 by rw [firsts],
    show (unread s.buf).tail.headD 0 = (firstTwo s.buf).2 by rw [firsts]]
  by_cases zero : len = 0
  · subst zero
    refine iff_of_true ?_ (Or.inl (by decide))
    intro fuel v n' s' done
    cases done
    simp
  by_cases one : len = 1
  · subst one
    exact iff_of_true (inOrder.accounted_infinity holds) (Or.inl (by decide))
  have several : ¬ len ≤ 1 := by
    rw [UInt64.le_iff_toNat_le, UInt64.toNat_one]
    rw [← UInt64.toNat_inj, UInt64.toNat_zero] at zero
    rw [← UInt64.toNat_inj, UInt64.toNat_one] at one
    omega
  have taken := fun octets => (inOrder.afterOctets octets holds).2.1
  constructor
  · intro accounted
    refine Or.inr fun octets counted => ?_
    obtain ⟨fuel, v, done⟩ := (returns_real zero one definite).mpr ⟨octets, counted, rfl, rfl⟩
    have same := (accounted fuel v _ _ done).1
    simp only [taken, List.length_drop] at same
    omega
  · intro sound fuel v n' s' done
    obtain ⟨octets, counted, rfl, rfl⟩ :=
      (returns_real zero one definite).mp ⟨fuel, v, done⟩
    have same := sound.resolve_left several octets counted
    refine ⟨?_, rfl⟩
    simp only [taken, List.length_drop]
    omega

/-- The content decoders of the primitive encodings. -/
inductive Content where
  | bool
  | int
  | uint
  | oid
  | real
  | octs
  | bits
  deriving DecidableEq

/-- The decoder of some contents is accounted for, whatever turns its loops are granted. -/
def Content.Accounted (c : Content) (unread : β → List UInt8) (tag : AsnTag) (len n : AsnLen)
    (s : DecState β) : Prop :=
  match c with
  | .bool => Esnacc.Accounted unread bDecAsnBoolContent tag len n s
  | .int => Esnacc.Accounted unread bDecAsnIntContent tag len n s
  | .uint => Esnacc.Accounted unread bDecUAsnIntContent tag len n s
  | .oid => Esnacc.Accounted unread bDecAsnOidContent tag len n s
  | .real => ∀ fuel, Esnacc.Accounted unread (bDecAsnRealContent fuel) tag len n s
  | .octs => ∀ fuel, Esnacc.Accounted unread (bDecAsnOctsContent fuel) tag len n s
  | .bits => ∀ fuel, Esnacc.Accounted unread (bDecAsnBitsContent fuel) tag len n s

/-- The inputs on which some contents are accounted for. -/
def Content.Sound (c : Content) (len : AsnLen) (octets : List UInt8) (readError : Bool) : Prop :=
  match c with
  | .bool | .oid | .octs | .bits => True
  | .int => len ≠ 0 ∨ octets = [] ∨ readError = true
  | .uint => len ≠ 0 ∨ (octets = [] ∨ readError = true) ∨ octets.headD 0 &&& 0x80 ≠ 0
  | .real =>
    len ≤ 1 ∨ ∀ reads, realOctets len (octets.headD 0) (octets.tail.headD 0) = some reads →
      min reads octets.length = len.toNat

/-- On a buffer that reads in order, contents are accounted for exactly on the sound inputs. -/
theorem InOrder.content_accounted_iff (inOrder : InOrder inv handles unread) (c : Content)
    (holds : inv s.buf) (handled : handles len) (handledLess : len ≠ 0 → handles (len - 1))
    (definite : len ≠ INDEFINITE_LEN)
    (primitive : c = .octs ∨ c = .bits → tagIsCons tag = false) :
    c.Accounted unread tag len n s ↔ c.Sound len (unread s.buf) (GenBuf.readError s.buf) := by
  cases c with
  | bool => exact iff_of_true (inOrder.accounted_bool holds) trivial
  | oid => exact iff_of_true (inOrder.accounted_oid holds handled) trivial
  | octs =>
    exact iff_of_true (inOrder.accounted_octs holds handled (primitive (Or.inl rfl))) trivial
  | bits =>
    exact iff_of_true (inOrder.accounted_bits holds handledLess (primitive (Or.inr rfl))) trivial
  | int => exact inOrder.accounted_int_iff holds
  | uint => exact inOrder.accounted_uint_iff holds
  | real => exact inOrder.accounted_real_iff holds definite

end

/--
A content decoder takes and counts as many octets as its length says exactly on the sound inputs:
on every simple buffer, and on every chain in good order for lengths an `int` can count.
-/
theorem contents_accounted_iff (c : Content) (tag : AsnTag) (len n : AsnLen)
    (definite : len ≠ INDEFINITE_LEN) (primitive : c = .octs ∨ c = .bits → tagIsCons tag = false) :
    (∀ s : DecState SBuf,
      c.Accounted SBuf.unread tag len n s ↔ c.Sound len s.buf.unread s.buf.readError) ∧
    (∀ s : DecState ExpBufRef, s.buf.Steady → len.toNat < 2 ^ 31 →
      (c.Accounted ExpBufRef.unread tag len n s ↔
        c.Sound len s.buf.unread s.buf.buf.readError)) := by
  constructor
  · intro s
    exact sBuf_inOrder.content_accounted_iff c trivial trivial (fun _ => trivial) definite primitive
  · intro s steady small
    refine expBuf_inOrder.content_accounted_iff c steady small ?_ definite primitive
    -- One octet less is still a length an `int` can count.
    intro nonzero
    have pos : len.toNat ≠ 0 := fun zero => nonzero (UInt64.toNat_inj.mp zero)
    rw [UInt64.toNat_sub_of_le _ _ (by rw [UInt64.le_iff_toNat_le, UInt64.toNat_one]; omega)]
    omega

theorem contents_accounted_iff_one_octet :
    Content.int.Accounted SBuf.unread 0x02000000 1 0
        ⟨sBufInstallData (fun _ => 5) 4096 1, initialGlobals⟩ ∧
      Content.bits.Accounted ExpBufRef.unread 0x03000000 1 0
        ⟨expBufInstallDataInBuf ⟨fun _ => 0, 4096⟩ 1, initialGlobals⟩ := by
  have steady : (expBufInstallDataInBuf ⟨fun _ => 0, 4096⟩ 1).Steady :=
    ⟨⟨⟨by decide, by decide⟩, fun _ linked => absurd linked List.not_mem_nil⟩,
      fun set => absurd set (by decide), fun _ linked => absurd linked List.not_mem_nil,
      by decide⟩
  have onInt := contents_accounted_iff .int 0x02000000 1 0 (by decide) (by decide)
  have onBits := contents_accounted_iff .bits 0x03000000 1 0 (by decide) (by decide)
  exact ⟨(onInt.1 _).mpr (Or.inl (by decide)), (onBits.2 _ steady (by decide)).mpr trivial⟩

/-- An INTEGER of no octets is decoded from the octet that follows it, and not counted. -/
theorem empty_integer_takes_an_octet :
    ¬ ∀ (c : Content) (tag : AsnTag) (len n : AsnLen) (s : DecState SBuf), len ≠ INDEFINITE_LEN →
      (c = .octs ∨ c = .bits → tagIsCons tag = false) → c.Accounted SBuf.unread tag len n s := by
  intro accounted
  have taken := accounted .int 0x02000000 0 0 ⟨sBufInstallData (fun _ => 5) 4096 1, initialGlobals⟩
    (by decide) (by decide) 5 0 _ rfl
  revert taken
  decide

end Esnacc
