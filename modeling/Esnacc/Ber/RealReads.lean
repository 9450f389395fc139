import Esnacc.Ber.Accounting

/-! How many octets decoding a REAL reads, and where it never ends. -/

namespace Esnacc

open Lib

/-! ## A buffer that counts what is read -/

/-- A buffer with the number of octets that were read from it. -/
structure CountedBuf (β : Type) where
  buf : β
  reads : Nat

variable {β : Type} [GenBuf β]

instance countedGenBuf : GenBuf (CountedBuf β) where
  getByte b := ((GenBuf.getByte b.buf).1, ⟨(GenBuf.getByte b.buf).2, b.reads + 1⟩)
  getSeg b len :=
    let (seg, covered, buf) := GenBuf.getSeg b.buf len
    (seg, covered, ⟨buf, b.reads + covered.toNat⟩)
  copy b len := (GenBuf.copy b.buf len).map fun (octets, buf) =>
    (octets, ⟨buf, b.reads + octets.length⟩)
  skip b len := ⟨GenBuf.skip b.buf len, b.reads + len.toNat⟩
  peekByte b := ((GenBuf.peekByte b.buf).1, ⟨(GenBuf.peekByte b.buf).2, b.reads⟩)
  peekCopy b len := (GenBuf.peekCopy b.buf len).map fun (octets, number, buf) =>
    (octets, number, ⟨buf, b.reads⟩)
  readError b := GenBuf.readError b.buf

theorem reads_afterOctets (m : Nat) (b : CountedBuf β) :
    (afterOctets m b).reads = b.reads + m := by
  induction m generalizing b with
  | zero => rfl
  | succ m ih =>
    rw [afterOctets, ih]
    change b.reads + 1 + m = _
    omega

/-! ## The octets that are read -/

section

theorem expOctetsLoop_outOfTurns {i : Int32} (turns : i > 0) (fuel : Nat) (exponent : UInt64)
    (s : DecState β) : ∃ s', (expOctetsLoop i fuel exponent).run s = .error .outOfTurns s' := by
  induction fuel generalizing exponent s with
  | zero => exact ⟨s, rfl⟩
  | succ fuel ih =>
    rw [expOctetsLoop, if_pos turns, EStateM.run_bind, run_bufGetByte]
    exact ih _ _

/-- An exponent is read from its octets, or the turns run out behind them where there are none. -/
theorem decExponent_cases (fuel : Nat) {firstOctet firstExpOctet : UInt8} {l k : Nat}
    (counted : expOctets firstOctet firstExpOctet = some (l, k)) (s : DecState β) :
    (∃ e, (decExponent fuel firstOctet firstExpOctet).run s =
      .ok (UInt32.ofNat l, e) { s with buf := afterOctets k s.buf }) ∨
    fuel = 0 ∧ (decExponent fuel firstOctet firstExpOctet).run s =
      .error .outOfTurns { s with buf := afterOctets k s.buf } := by
  cases fuel with
  | succ fuel => exact .inl (decExponent_eq_ok fuel counted)
  | zero =>
    simp only [expOctets] at counted
    simp only [decExponent, beq_iff_eq]
    split at counted
    · cases counted
      exact .inl ⟨_, by rw [if_pos ‹_›]; rfl⟩
    split at counted
    · cases counted
      exact .inl ⟨_, by rw [if_neg ‹_›, if_pos ‹_›]; rfl⟩
    split at counted
    · cases counted
      exact .inl ⟨_, by rw [if_neg ‹_›, if_neg ‹_›, if_pos ‹_›]; rfl⟩
    split at counted
    · cases counted
      exact .inr ⟨trivial, by rw [if_neg ‹_›, if_neg ‹_›, if_neg ‹_›]; rfl⟩
    · cases counted

/-- An exponent whose octets cannot be counted is read without end. -/
theorem decExponent_endless (fuel : Nat) {firstOctet firstExpOctet : UInt8}
    (endless : expOctets firstOctet firstExpOctet = none) (s : DecState β) :
    ∃ s', (decExponent fuel firstOctet firstExpOctet).run s = .error .outOfTurns s' := by
  simp only [expOctets] at endless
  simp only [decExponent, beq_iff_eq]
  split at endless
  · cases endless
  split at endless
  · cases endless
  split at endless
  · cases endless
  split at endless
  · cases endless
  rename_i long
  rw [← longExponent_turns] at long
  rw [if_neg ‹_›, if_neg ‹_›, if_neg ‹_›, EStateM.run_bind, run_bufGetByte]
  dsimp only
  obtain ⟨s', stuck⟩ := expOctetsLoop_outOfTurns long fuel _
    { s with buf := (GenBuf.getByte s.buf).2 }
  exact ⟨s', by rw [EStateM.run_bind, stuck]⟩

/-- The octets that are read for a real of more than one octet, as far as its exponent ends. -/
def realReads (len : AsnLen) (firstOctet firstExpOctet : UInt8) : Option Nat :=
  (expOctets firstOctet firstExpOctet).map fun (l, k) => 2 + k + turnsUpTo len (1 + l)

/-- What follows the first octet of a binary real is read from the octets counted for it, whether or
not its base is supported. -/
theorem binaryReal_reads (len n : AsnLen) (s : DecState β) (fuel : Nat) {firstOctet : UInt8}
    {l k : Nat}
    (counted : expOctets firstOctet (GenBuf.getByte s.buf).1 = some (l, k)) :
    ∃ m ≤ 1 + k + turnsUpTo len (1 + l),
      lastState ((bDecBinaryReal fuel firstOctet len n).run s) =
        { s with buf := afterOctets m s.buf } ∧
      (0 < fuel → m = 1 + k + turnsUpTo len (1 + l) ∧
        ∀ s', (bDecBinaryReal fuel firstOctet len n).run s ≠ .error .outOfTurns s') := by
  have small := expOctets_le counted
  have length : (UInt32.ofNat l).toNat = l := by
    rw [UInt32.toNat_ofNat', Nat.mod_eq_of_lt (by omega)]
  rw [bDecBinaryReal, EStateM.run_bind, run_bufGetByte]
  dsimp only
  rcases decExponent_cases fuel counted { s with buf := (GenBuf.getByte s.buf).2 } with
    ⟨e, exponent⟩ | ⟨rfl, stuck⟩
  · refine ⟨1 + k + turnsUpTo len (1 + l), Nat.le_refl _, ?_⟩
    obtain ⟨mantissa, read⟩ := run_mantissaOctets (turnsUpTo len (1 + l)) 0.0
      { s with buf := afterOctets k (afterOctets 1 s.buf) }
    rw [run_bind_of_ok exponent]
    dsimp only
    rw [length, show afterOctets k (GenBuf.getByte s.buf).2 = afterOctets k (afterOctets 1 s.buf)
      from rfl, run_bind_of_ok read, afterOctets_add, afterOctets_add]
    dsimp only
    cases realBase firstOctet with
    | none => exact ⟨rfl, fun _ => ⟨rfl, fun s' out => by cases out⟩⟩
    | some base => exact ⟨rfl, fun _ => ⟨rfl, fun s' out => by cases out⟩⟩
  · refine ⟨1 + k, by omega, ?_, fun some => absurd some (Nat.lt_irrefl 0)⟩
    rw [EStateM.run_bind, stuck, afterOctets_add]
    rfl

theorem binaryReal_endless (len n : AsnLen) (s : DecState β) (fuel : Nat) {firstOctet : UInt8}
    (endless : expOctets firstOctet (GenBuf.getByte s.buf).1 = none) :
    ∃ s', (bDecBinaryReal fuel firstOctet len n).run s = .error .outOfTurns s' := by
  obtain ⟨s', stuck⟩ := decExponent_endless fuel endless
    { s with buf := (GenBuf.getByte s.buf).2 }
  refine ⟨s', ?_⟩
  rw [bDecBinaryReal, EStateM.run_bind, run_bufGetByte]
  dsimp only
  rw [EStateM.run_bind, stuck]

end

/-! ## Reals that end -/

/-- Decoding a REAL ends, with a value or with an error, once its loops are granted turns enough, and
reads no more octets than its length, however many turns are granted. -/
structure RealEnds (tag : AsnTag) (len n : AsnLen) (s : DecState (CountedBuf β)) : Prop where
  ends : ∃ turns, ∀ s', (bDecAsnRealContent turns tag len n).run s ≠ .error .outOfTurns s'
  reads : ∀ turns, (lastState ((bDecAsnRealContent turns tag len n).run s)).buf.reads ≤
    s.buf.reads + len.toNat

section

variable {len n : AsnLen} {tag : AsnTag} {s : DecState (CountedBuf β)}

/-- A real that is not binary, or has at most one octet, reads that octet alone. -/
theorem realEnds_of_short (short : len ≤ 1 ∨ len = INDEFINITE_LEN ∨
    (firstTwo s.buf).1 &&& REAL_BINARY = 0) : RealEnds tag len n s := by
  -- Each of these runs is over after a few tests.
  have granted : ∀ turns, (∀ s', (bDecAsnRealContent turns tag len n).run s ≠ .error .outOfTurns s') ∧
      (lastState ((bDecAsnRealContent turns tag len n).run s)).buf.reads ≤
        s.buf.reads + len.toNat := by
    intro turns
    unfold bDecAsnRealContent
    by_cases zero : len = 0
    · rw [if_pos (beq_iff_eq.mpr zero)]
      exact ⟨fun s' out => (by cases out), Nat.le_add_right _ _⟩
    rw [if_neg (fun h => zero (beq_iff_eq.mp h))]
    by_cases endless : len = INDEFINITE_LEN
    · rw [if_pos (beq_iff_eq.mpr endless)]
      exact ⟨fun s' out => (by cases out), Nat.le_add_right _ _⟩
    rw [if_neg (fun h => endless (beq_iff_eq.mp h)), EStateM.run_bind, run_bufGetByte]
    dsimp only
    have some : 1 ≤ len.toNat := by
      rw [← UInt64.toNat_inj, UInt64.toNat_zero] at zero
      omega
    have one : s.buf.reads + 1 ≤ s.buf.reads + len.toNat := Nat.add_le_add_left some _
    by_cases single : len = 1
    · rw [if_pos (beq_iff_eq.mpr single)]
      split_ifs <;> exact ⟨fun s' out => (by cases out), one⟩
    rw [if_neg (fun h => single (beq_iff_eq.mp h))]
    rcases short with few | indefinite | decimal
    · exfalso
      rw [UInt64.le_iff_toNat_le, UInt64.toNat_one] at few
      rw [← UInt64.toNat_inj, UInt64.toNat_one] at single
      omega
    · exact absurd indefinite endless
    · have notBinary : ¬ ((GenBuf.getByte s.buf).1 &&& REAL_BINARY != 0) = true := by
        intro binary
        exact bne_iff_ne.mp binary decimal
      rw [if_neg notBinary]
      exact ⟨fun s' out => (by cases out), one⟩
  exact ⟨⟨0, (granted 0).1⟩, fun turns => (granted turns).2⟩

/-- A binary real ends within its length where the octets read for it are counted and are no more. -/
theorem realEnds_iff_reads (several : ¬ len ≤ 1) (definite : len ≠ INDEFINITE_LEN)
    (binary : (firstTwo s.buf).1 &&& REAL_BINARY ≠ 0) :
    RealEnds tag len n s ↔
      ∃ m, realReads len (firstTwo s.buf).1 (firstTwo s.buf).2 = some m ∧ m ≤ len.toNat := by
  have nonzero : len ≠ 0 := by
    rintro rfl
    exact several (by decide)
  have notOne : len ≠ 1 := by
    rintro rfl
    exact several (by decide)
  have whole : ∀ turns, (bDecAsnRealContent turns tag len n).run s =
      (bDecBinaryReal turns (firstTwo s.buf).1 len n).run { s with buf := afterOctets 1 s.buf } :=
    fun turns => run_realContent nonzero notOne definite binary
  constructor
  · rintro ⟨⟨turns, ends⟩, reads⟩
    cases counted : expOctets (firstTwo s.buf).1 (firstTwo s.buf).2 with
    | none =>
      -- The exponent takes all the turns there are.
      exfalso
      obtain ⟨s', stuck⟩ := binaryReal_endless len n
        { s with buf := afterOctets 1 s.buf } turns counted
      exact ends s' (by rw [whole, stuck])
    | some both =>
      obtain ⟨l, k⟩ := both
      obtain ⟨m, -, last, exact⟩ := binaryReal_reads len n
        { s with buf := afterOctets 1 s.buf } 1 counted
      obtain ⟨rfl, -⟩ := exact Nat.one_pos
      have bound := reads 1
      rw [whole, last] at bound
      simp only [reads_afterOctets] at bound
      refine ⟨2 + k + turnsUpTo len (1 + l), by rw [realReads, counted]; rfl, by omega⟩
  · rintro ⟨m, total, within⟩
    obtain ⟨⟨l, k⟩, counted, rfl⟩ := Option.map_eq_some_iff.mp total
    have reads := fun turns => binaryReal_reads len n
      { s with buf := afterOctets 1 s.buf } turns counted
    refine ⟨⟨1, ?_⟩, fun turns => ?_⟩
    · obtain ⟨m, -, -, exact⟩ := reads 1
      rw [whole]
      exact (exact Nat.one_pos).2
    · obtain ⟨m, few, last, -⟩ := reads turns
      rw [whole, last]
      simp only [reads_afterOctets]
      dsimp only at within
      omega

end

/-! ## The reals that end within their length -/

/-- The exponent of a binary real lies within its length: what follows the first octet is one, two or
three octets of exponent, or a count of one octet and that octet. -/
def ExponentFits (len : AsnLen) (firstOctet firstExpOctet : UInt8) : Prop :=
  let explen := firstOctet &&& REAL_EXPLEN_MASK
  if explen = REAL_EXPLEN_1 then True
  else if explen = REAL_EXPLEN_2 then 3 ≤ len.toNat
  else if explen = REAL_EXPLEN_3 then 4 ≤ len.toNat
  -- A count of none still has one octet read, which a length of `2^31` or more makes up for: the
  -- mantissa is counted in an `int`.
  else firstExpOctet = 1 ∧ 3 ≤ len.toNat ∨ firstExpOctet = 0 ∧ 2 ^ 31 ≤ len.toNat

/-- A real has at most one octet, is not binary, or has an exponent within its length. -/
def RealFits (len : AsnLen) (firstOctet firstExpOctet : UInt8) : Prop :=
  len ≤ 1 ∨ len = INDEFINITE_LEN ∨ firstOctet &&& REAL_BINARY = 0 ∨
    ExponentFits len firstOctet firstExpOctet

theorem turnsUpTo_le (len : AsnLen) (start : Nat) :
    turnsUpTo len start ≤ len.toNat - start ∧
      (len.toNat < 2 ^ 31 → turnsUpTo len start = len.toNat - start) ∧
      (2 ^ 31 ≤ len.toNat → turnsUpTo len start + 2 ^ 31 ≤ len.toNat - start + start) := by
  have bound := UInt64.toNat_lt len
  have value := toInt_intOf len
  rw [Int.bmod_def] at value
  simp only [turnsUpTo]
  split at value <;> omega

/-- The octets read for a binary real are no more than its length where its exponent lies within it. -/
theorem realReads_iff {len : AsnLen} (several : ¬ len ≤ 1) (firstOctet firstExpOctet : UInt8) :
    (∃ m, realReads len firstOctet firstExpOctet = some m ∧ m ≤ len.toNat) ↔
      ExponentFits len firstOctet firstExpOctet := by
  have two : 2 ≤ len.toNat := by
    rw [UInt64.le_iff_toNat_le, UInt64.toNat_one] at several
    omega
  -- The mantissa takes what the exponent leaves of the length, however the exponent is written.
  have within : ∀ l k, (∃ m, (some (l, k)).map (fun (l, k) => 2 + k + turnsUpTo len (1 + l)) =
      some m ∧ m ≤ len.toNat) ↔ 2 + k + turnsUpTo len (1 + l) ≤ len.toNat := by
    intro l k
    simp
  unfold realReads expOctets ExponentFits
  dsimp only
  by_cases one : firstOctet &&& REAL_EXPLEN_MASK = REAL_EXPLEN_1
  · have turns := turnsUpTo_le len (1 + 1)
    rw [if_pos one, if_pos one, within, iff_true]
    omega
  rw [if_neg one, if_neg one]
  by_cases double : firstOctet &&& REAL_EXPLEN_MASK = REAL_EXPLEN_2
  · have turns := turnsUpTo_le len (1 + 2)
    rw [if_pos double, if_pos double, within]
    omega
  rw [if_neg double, if_neg double]
  by_cases triple : firstOctet &&& REAL_EXPLEN_MASK = REAL_EXPLEN_3
  · have turns := turnsUpTo_le len (1 + 3)
    rw [if_pos triple, if_pos triple, within]
    omega
  rw [if_neg triple, if_neg triple]
  by_cases short : firstExpOctet < 2
  · rw [if_pos short, within]
    rw [UInt8.lt_iff_toNat_lt] at short
    have turns := turnsUpTo_le len (1 + (firstExpOctet.toNat + 1))
    rw [← UInt8.toNat_inj, ← UInt8.toNat_inj]
    simp only [UInt8.reduceToNat] at short ⊢
    omega
  · rw [if_neg short]
    have notFew : firstExpOctet ≠ 1 ∧ firstExpOctet ≠ 0 := by
      constructor <;> rintro rfl <;> exact short (by decide)
    simp [notFew]

/-- Decoding a REAL ends within its length exactly where the octets of its exponent lie within it. -/
theorem realEnds_iff (tag : AsnTag) (len n : AsnLen) (s : DecState (CountedBuf β)) :
    RealEnds tag len n s ↔ RealFits len (firstTwo s.buf).1 (firstTwo s.buf).2 := by
  unfold RealFits
  by_cases few : len ≤ 1
  · exact iff_of_true (realEnds_of_short (.inl few)) (.inl few)
  by_cases indefinite : len = INDEFINITE_LEN
  · exact iff_of_true (realEnds_of_short (.inr (.inl indefinite))) (.inr (.inl indefinite))
  by_cases decimal : (firstTwo s.buf).1 &&& REAL_BINARY = 0
  · exact iff_of_true (realEnds_of_short (.inr (.inr decimal))) (.inr (.inr (.inl decimal)))
  rw [realEnds_iff_reads few indefinite decimal, realReads_iff few]
  simp only [few, indefinite, decimal, false_or]

/-- A long exponent of five octets is read without end. -/
theorem not_realEnds : ¬ ∀ (tag : AsnTag) (len n : AsnLen) (s : DecState (CountedBuf SBuf)),
    RealEnds tag len n s := by
  intro ends
  have counted := (realEnds_iff_reads (by decide) (by decide) (by decide)).mp
    (ends 0x09000000 9 0 ⟨⟨sBufInstallData (fun a => if a = 4096 then 0x83 else 5) 4096 9, 0⟩,
      initialGlobals⟩)
  obtain ⟨m, total, -⟩ := counted
  cases total

end Esnacc
