import Esnacc.Cxx.BitReads
import Esnacc.Lib.Run
import Mathlib.Algebra.GroupWithZero.Nat

/-! The C++ bit buffer returns the bits put into it, in their order. -/

namespace Esnacc.Cxx

open Lib

/-- A call that writes to a bit buffer. -/
inductive WriteCall where
  | putBits (bits : BitSegment)
  | octetAlignWrite

/-- The buffer after a call that writes and the number of bits that the call returns. -/
def writeStep (b : AsnBufBits) : WriteCall → Option (AsnBufBits × Nat)
  | .putBits bits => some ((putBits b bits).1, (putBits b bits).2.toNat)
  | .octetAlignWrite => some (octetAlignWrite b)

/-- A call that reads from a bit buffer. -/
inductive ReadCall where
  | getBits (numBits : UInt64)
  | getBit
  | getByte
  | octetAlignRead
  deriving DecidableEq

/-- A call that reads and what it returned. -/
inductive ReadAnswer where
  | getBits (numBits : UInt64) (seg : List UInt8)
  | getBit (bit : Bool)
  | getByte (octet : UInt8)
  | octetAlignRead (count : Nat)
  deriving DecidableEq

/-- Make a call that reads. -/
@[grind =] def readCall : ReadCall → BitsM ReadAnswer
  | .getBits numBits => return .getBits numBits (← getBits numBits)
  | .getBit => return .getBit (← getBit)
  | .getByte => return .getByte (← AsnBufBits.getByte)
  | .octetAlignRead => return .octetAlignRead (← octetAlignRead)

/-- The buffer after a call that reads and its answer, unless it throws. -/
def readStep (b : AsnBufBits) (call : ReadCall) : Option (AsnBufBits × ReadAnswer) :=
  match (readCall call).run b with
  | .ok answer b' => some (b', answer)
  | .error _ _ => none

/-! ## Calls between two alignments -/

/-- The parts of a sequence before, between and behind its marks. -/
def groups {α : Type} : List (Option α) → List α × List (List α)
  | [] => ([], [])
  | some a :: rest => (a :: (groups rest).1, (groups rest).2)
  | none :: rest => ([], (groups rest).1 :: (groups rest).2)

/-- The number of bits asked for before, between and behind the alignments. -/
def bitCounts (calls : List (Option Nat)) : Nat × List Nat :=
  ((groups calls).1.sum, (groups calls).2.map List.sum)

/-- The bits moved before, between and behind the alignments. -/
def bitGroups (moved : List (Option (List Bool))) : List Bool × List (List Bool) :=
  ((groups moved).1.flatten, (groups moved).2.map List.flatten)

@[simp] theorem bitCounts_some (n : Nat) (calls : List (Option Nat)) :
    bitCounts (some n :: calls) = (n + (bitCounts calls).1, (bitCounts calls).2) := rfl

@[simp] theorem bitCounts_none (calls : List (Option Nat)) :
    bitCounts (none :: calls) = (0, (bitCounts calls).1 :: (bitCounts calls).2) := rfl

@[simp] theorem bitGroups_some (bits : List Bool) (moved : List (Option (List Bool))) :
    bitGroups (some bits :: moved) = (bits ++ (bitGroups moved).1, (bitGroups moved).2) := rfl

@[simp] theorem bitGroups_none (moved : List (Option (List Bool))) :
    bitGroups (none :: moved) = ([], (bitGroups moved).1 :: (bitGroups moved).2) := rfl

/-- The number of bits a call puts, unless it aligns. -/
def WriteCall.amount : WriteCall → Option Nat
  | .putBits bits => some bits.numBits.toNat
  | .octetAlignWrite => none

/-- The number of bits a call reads, unless it aligns. -/
def ReadCall.amount : ReadCall → Option Nat
  | .getBits numBits => some numBits.toNat
  | .getBit => some 1
  | .getByte => some 8
  | .octetAlignRead => none

/-- The bits that a call put, as many as it returned, unless it aligned. -/
def WriteCall.moved : WriteCall → Nat → Option (List Bool)
  | .putBits bits, count => some (bits.bits.take count)
  | .octetAlignWrite, _ => none

/-- The bits that a call returned, unless it aligned. -/
def ReadAnswer.moved : ReadAnswer → Option (List Bool)
  | .getBits numBits seg => some ((seg.flatMap bitsOf).take numBits.toNat)
  | .getBit bit => some [bit]
  | .getByte octet => some (bitsOf octet)
  | .octetAlignRead _ => none

/-- The number of bits that an alignment returned. -/
def WriteCall.aligned : WriteCall → Nat → Option Nat
  | .putBits _, _ => none
  | .octetAlignWrite, count => some count

/-- The number of bits that an alignment returned. -/
def ReadAnswer.aligned : ReadAnswer → Option Nat
  | .octetAlignRead count => some count
  | _ => none

/-! ## The bits that a sequence of writes lays out -/

/-- Groups of bits with zeros between them, from a position in an octet on. -/
def laidOut (bAlign : Bool) (pos : Nat) (first : List Bool) : List (List Bool) → List Bool
  | [] => first
  | next :: rest =>
    first ++ List.replicate (padding bAlign (pos + first.length)) false ++
      laidOut bAlign 0 next rest

/-- The numbers of the zeros between groups of bits. -/
def paddings (bAlign : Bool) (pos : Nat) (first : List Bool) : List (List Bool) → List Nat
  | [] => []
  | next :: rest => padding bAlign (pos + first.length) :: paddings bAlign 0 next rest

theorem padding_congr {bAlign : Bool} {m n : Nat} (same : bAlign → m % 8 = n % 8) :
    padding bAlign m = padding bAlign n := by
  cases bAlign with
  | false => rfl
  | true => simp [padding, same rfl]

theorem laidOut_append (bAlign : Bool) (pos : Nat) (bits first : List Bool)
    (rest : List (List Bool)) : laidOut bAlign pos (bits ++ first) rest =
      bits ++ laidOut bAlign (pos + bits.length) first rest := by
  cases rest <;> simp [laidOut, Nat.add_assoc]

theorem paddings_append (bAlign : Bool) (pos : Nat) (bits first : List Bool)
    (rest : List (List Bool)) : paddings bAlign pos (bits ++ first) rest =
      paddings bAlign (pos + bits.length) first rest := by
  cases rest <;> simp [paddings, Nat.add_assoc]

/-- The bits that a sequence of calls put, with the numbers that the calls returned. -/
def putGroups (calls : List WriteCall) (counts : List Nat) : List Bool × List (List Bool) :=
  bitGroups (List.zipWith WriteCall.moved calls counts)

/-- The numbers of bits that the alignments of a sequence of writes returned. -/
def putAlignments (calls : List WriteCall) (counts : List Nat) : List Nat :=
  (List.zipWith WriteCall.aligned calls counts).reduceOption

/-- Writes lay out the groups of bits they put and return how many zeros they put between. -/
theorem run_writes {b : AsnBufBits} (wellFormed : b.WellFormed) (pos : Nat)
    (position : b.bAlign → (8 - b.writeBitPos) % 8 = pos % 8) (calls : List WriteCall) :
    ∃ b' counts, run writeStep b calls = some (b', counts) ∧
      b.Wrote (laidOut b.bAlign pos (putGroups calls counts).1 (putGroups calls counts).2) b' ∧
      putAlignments calls counts =
        paddings b.bAlign pos (putGroups calls counts).1 (putGroups calls counts).2 ∧
      counts.sum =
        (laidOut b.bAlign pos (putGroups calls counts).1 (putGroups calls counts).2).length ∧
      bitCounts (calls.map WriteCall.amount) =
        ((putGroups calls counts).1.length, (putGroups calls counts).2.map List.length) := by
  induction calls generalizing b pos with
  | nil => exact ⟨b, [], rfl, .refl wellFormed, rfl, rfl, rfl⟩
  | cons call calls ih =>
    cases call with
    | putBits bits =>
      obtain ⟨wrote, returned⟩ := putBits_wrote wellFormed bits
      have next : (putBits b bits).1.bAlign → (8 - (putBits b bits).1.writeBitPos) % 8 =
          (pos + bits.bits.length) % 8 := by
        intro aligned
        have here := position (wrote.bAlign ▸ aligned)
        have there := wrote.position
        omega
      obtain ⟨b', counts, ran, later, zeros, total, amounts⟩ := ih wrote.wellFormed _ next
      rw [wrote.bAlign] at later zeros total
      have group : putGroups (.putBits bits :: calls) (bits.numBits.toNat :: counts) =
          (bits.bits ++ (putGroups calls counts).1, (putGroups calls counts).2) := by
        rw [putGroups, List.zipWith_cons_cons, WriteCall.moved, bitGroups_some,
          List.take_of_length_le (by simp)]
        rfl
      refine ⟨b', bits.numBits.toNat :: counts, ?_, ?_⟩
      · exact run_cons_eq_some.mpr ⟨_, _, _, by rw [writeStep, returned], ran, rfl⟩
      · simp only [group, laidOut_append, paddings_append]
        refine ⟨wrote.trans later, zeros, ?_, ?_⟩
        · simp [total]
        · simp [WriteCall.amount, amounts]
    | octetAlignWrite =>
      obtain ⟨wrote, returned⟩ := octetAlignWrite_wrote wellFormed
      have zeros : padding b.bAlign (8 - b.writeBitPos) = padding b.bAlign pos :=
        padding_congr position
      rw [zeros] at wrote returned
      have next : (octetAlignWrite b).1.bAlign → (8 - (octetAlignWrite b).1.writeBitPos) % 8 =
          0 % 8 := by
        intro aligned
        have on : b.bAlign := wrote.bAlign ▸ aligned
        have here := position on
        have there := wrote.position
        rw [List.length_replicate, padding, if_pos on] at there
        omega
      obtain ⟨b', counts, ran, later, rest, total, amounts⟩ := ih wrote.wellFormed _ next
      rw [wrote.bAlign] at later rest total
      have group : putGroups (.octetAlignWrite :: calls) (padding b.bAlign pos :: counts) =
          ([], (putGroups calls counts).1 :: (putGroups calls counts).2) := rfl
      refine ⟨b', padding b.bAlign pos :: counts, ?_, ?_⟩
      · exact run_cons_eq_some.mpr
          ⟨(octetAlignWrite b).1, _, _, by rw [writeStep, ← returned], ran, rfl⟩
      · simp only [group, laidOut, paddings, List.nil_append, List.length_nil, Nat.add_zero]
        refine ⟨wrote.trans later, ?_, ?_, ?_⟩
        · rw [← rest]
          rfl
        · simp [total]
        · simp [WriteCall.amount, amounts]

/-- A call that asks for no more bits than are left and stored returns the first ones. -/
theorem readCall_read {b : AsnBufBits} (wellFormed : b.WellFormed) {call : ReadCall} {n : Nat}
    (amount : call.amount = some n) (left : n ≤ b.bitsLeft.toNat)
    (enough : n ≤ b.stored.length) :
    ∃ answer b', (readCall call).run b = .ok answer b' ∧ answer.moved = some (b.stored.take n) ∧
      answer.aligned = none ∧ b.Read n b' := by
  cases call with
  | getBits numBits =>
    simp only [ReadCall.amount, Option.some.injEq] at amount
    subst amount
    obtain ⟨seg, b', ran, bits, read⟩ := getBits_read wellFormed (UInt64.le_iff_toNat_le.mpr left)
      enough
    exact ⟨.getBits numBits seg, b', run_bind_of_ok ran, congrArg some bits, rfl, read⟩
  | getBit =>
    simp only [ReadCall.amount, Option.some.injEq] at amount
    subst amount
    have some : b.bitsLeft ≠ 0 := by
      intro none
      simp [none] at left
    obtain ⟨bit, b', ran, bits, read⟩ := getBit_read wellFormed some enough
    exact ⟨.getBit bit, b', run_bind_of_ok ran, congrArg Option.some bits, rfl, read⟩
  | getByte =>
    simp only [ReadCall.amount, Option.some.injEq] at amount
    subst amount
    obtain ⟨octet, b', ran, bits, read⟩ := getByte_read wellFormed (UInt64.le_iff_toNat_le.mpr left)
      enough
    exact ⟨.getByte octet, b', run_bind_of_ok ran, congrArg some bits, rfl, read⟩
  | octetAlignRead => simp [ReadCall.amount] at amount

/-- A buffer that was read up to a position, with the given bits still to come. -/
structure AsnBufBits.Stands (b : AsnBufBits) (pos : Nat) (bits : List Bool) : Prop where
  wellFormed : b.WellFormed
  position : b.bAlign → b.readBitPos % 8 = pos % 8
  stored : ∃ k, b.stored = bits ++ List.replicate k false
  left : b.bitsLeft = UInt64.ofNat bits.length

theorem AsnBufBits.Stands.front {b : AsnBufBits} {pos : Nat} {bits more : List Bool}
    (stands : b.Stands pos (bits ++ more)) :
    bits.length ≤ b.stored.length ∧ b.stored.take bits.length = bits := by
  obtain ⟨k, stored⟩ := stands.stored
  rw [stored, List.append_assoc]
  exact ⟨by simp, List.take_left' rfl⟩

theorem AsnBufBits.Stands.enough {b : AsnBufBits} {pos : Nat} {bits more : List Bool}
    (stands : b.Stands pos (bits ++ more)) (countable : (bits ++ more).length < 2 ^ 64) :
    bits.length ≤ b.bitsLeft.toNat := by
  rw [stands.left, UInt64.toNat_ofNat', Nat.mod_eq_of_lt countable, List.length_append]
  omega

/-- Reading the first bits leaves the others to come. -/
theorem AsnBufBits.Stands.read {b b' : AsnBufBits} {pos : Nat} {bits more : List Bool}
    (stands : b.Stands pos (bits ++ more)) (read : b.Read bits.length b') :
    b'.Stands (pos + bits.length) more where
  wellFormed := read.wellFormed
  position := by
    intro aligned
    have here := stands.position (read.bAlign ▸ aligned)
    have there := read.position
    omega
  stored := by
    obtain ⟨k, stored⟩ := stands.stored
    obtain ⟨j, remaining⟩ := read.stored
    rw [stored, List.append_assoc, List.drop_left' rfl, List.append_assoc,
      List.replicate_append_replicate] at remaining
    exact ⟨k + j, remaining⟩
  left := by
    rw [read.bitsLeft, stands.left, List.length_append, UInt64.ofNat_add, UInt64.add_comm,
      UInt64.add_sub_cancel]

theorem AsnBufBits.Stands.congr {b : AsnBufBits} {pos pos' : Nat} {bits : List Bool}
    (stands : b.Stands pos bits) (same : b.bAlign → pos % 8 = pos' % 8) : b.Stands pos' bits where
  wellFormed := stands.wellFormed
  position := fun aligned => (stands.position aligned).trans (same aligned)
  stored := stands.stored
  left := stands.left

/-- An alignment reads the zeros that writing put at the same position, and counts them. -/
theorem AsnBufBits.Stands.octetAlignRead {b : AsnBufBits} {pos : Nat} {more : List Bool}
    (stands : b.Stands pos (List.replicate (padding b.bAlign pos) false ++ more)) :
    ∃ b', octetAlignRead.run b = .ok (padding b.bAlign pos) b' ∧ b'.bAlign = b.bAlign ∧
      b'.Stands (pos + padding b.bAlign pos) more := by
  have size : (List.replicate (padding b.bAlign pos) false).length = padding b.bAlign pos :=
    List.length_replicate
  by_cases aligned : b.bAlign
  · -- The rest of the octet being read is the gap.
    have gap : 8 - b.readBitPos = padding b.bAlign pos := by
      have here := stands.position aligned
      have range := stands.wellFormed.readPos
      rw [padding, if_pos aligned]
      omega
    obtain ⟨b', ran, read⟩ := octetAlignRead_read stands.wellFormed aligned
    rw [gap] at ran read
    rw [← size] at read
    have behind := stands.read read
    rw [size] at behind
    exact ⟨b', ran, read.bAlign, behind⟩
  · -- There is no gap, and the position plays no part.
    have none : padding b.bAlign pos = 0 := by
      rw [padding, if_neg aligned]
    refine ⟨b, ?_, rfl, ?_⟩
    · rw [octetAlignRead_of_not_bAlign aligned, none]
    · rw [none] at stands ⊢
      exact stands

/-- A call that returns asked for no more bits than are left. -/
theorem readStep_enough {b b' : AsnBufBits} {call : ReadCall} {answer : ReadAnswer} {n : Nat}
    (step : readStep b call = some (b', answer)) (amount : call.amount = some n) :
    n ≤ b.bitsLeft.toNat := by
  by_contra short
  -- Without enough bits left, the call throws before it reads.
  have refused : ∃ thrown, (readCall call).run b = .error thrown b := by
    cases call with
    | getBits numBits =>
      simp only [ReadCall.amount, Option.some.injEq] at amount
      subst amount
      refine ⟨tooManyBits, ?_⟩
      rw [readCall, EStateM.run_bind, getBits, run_bind_of_ok (EStateM.run_get b),
        if_pos (UInt64.lt_iff_toNat_lt.mpr (by omega))]
      rfl
    | getBit =>
      simp only [ReadCall.amount, Option.some.injEq] at amount
      have none : b.bitsLeft = 0 := UInt64.toNat_inj.mp (by simp; omega)
      refine ⟨bufferException "No more bits in the buffer", ?_⟩
      rw [readCall, EStateM.run_bind, getBit, run_bind_of_ok (EStateM.run_get b), if_pos none]
      rfl
    | getByte =>
      simp only [ReadCall.amount, Option.some.injEq] at amount
      subst amount
      refine ⟨tooManyBits, ?_⟩
      rw [readCall, EStateM.run_bind, AsnBufBits.getByte, run_bind_of_ok (EStateM.run_get b),
        if_pos (UInt64.lt_iff_toNat_lt.mpr (by simp; omega))]
      rfl
    | octetAlignRead => simp [ReadCall.amount] at amount
  obtain ⟨thrown, ran⟩ := refused
  rw [readStep, ran] at step
  cases step

/--
Reads that ask for the groups of bits laid out, with an alignment for each gap, return them.

The bits to come can be counted, or the reads are known to return something.
-/
theorem run_reads {b : AsnBufBits} {pos : Nat} {first more : List Bool} {rest : List (List Bool)}
    (stands : b.Stands pos (laidOut b.bAlign pos first rest ++ more)) {calls : List ReadCall}
    (mirrored : bitCounts (calls.map ReadCall.amount) = (first.length, rest.map List.length))
    (able : (laidOut b.bAlign pos first rest ++ more).length < 2 ^ 64 ∨
      run readStep b calls ≠ none) :
    ∃ b' answers, run readStep b calls = some (b', answers) ∧
      bitGroups (answers.map ReadAnswer.moved) = (first, rest) ∧
      (answers.map ReadAnswer.aligned).reduceOption = paddings b.bAlign pos first rest ∧
      b'.bAlign = b.bAlign ∧ b'.Stands (pos + (laidOut b.bAlign pos first rest).length) more := by
  -- The induction is on the calls; each takes bits of the first group or the gap behind it.
  induction calls generalizing b pos first rest with
  | nil =>
    have none : first = [] ∧ rest = [] := by
      simpa [bitCounts, groups, eq_comm] using mirrored
    obtain ⟨rfl, rfl⟩ := none
    exact ⟨b, [], rfl, rfl, rfl, rfl, stands⟩
  | cons call calls ih =>
    cases amount : call.amount with
    | some n =>
      rw [List.map_cons, amount, bitCounts_some, Prod.mk.injEq] at mirrored
      obtain ⟨size, others⟩ := mirrored
      -- The bits asked for stand at the front of the first group.
      have split : first = first.take n ++ first.drop n := (List.take_append_drop n first).symm
      have taken : (first.take n).length = n := by
        rw [List.length_take]
        omega
      have shortened := laidOut_append b.bAlign pos (first.take n) (first.drop n) rest
      have skipped := paddings_append b.bAlign pos (first.take n) (first.drop n) rest
      rw [← split, taken] at shortened skipped
      rw [shortened, List.append_assoc] at stands able
      obtain ⟨stored, front⟩ := stands.front
      have left : n ≤ b.bitsLeft.toNat := by
        rcases able with countable | returns
        · have enough := stands.enough countable
          rwa [taken] at enough
        · obtain ⟨⟨b', outs⟩, all⟩ := Option.ne_none_iff_exists'.mp returns
          obtain ⟨mid, answer, answers, step, -, -⟩ := run_cons_eq_some.mp all
          exact readStep_enough step amount
      rw [taken] at stored front
      obtain ⟨answer, mid, ran, moved, unaligned, read⟩ :=
        readCall_read stands.wellFormed amount left stored
      rw [front] at moved
      have behind := stands.read (taken.symm ▸ read)
      rw [taken, ← read.bAlign] at behind
      have step : readStep b call = some (mid, answer) := by rw [readStep, ran]
      have ableRest : (laidOut mid.bAlign (pos + n) (first.drop n) rest ++ more).length < 2 ^ 64 ∨
          run readStep mid calls ≠ none := by
        refine able.imp (fun countable => ?_) (run_ne_none_of_cons step)
        rw [List.length_append] at countable
        rw [read.bAlign]
        omega
      obtain ⟨b', answers, later, bits, zeros, mode, last⟩ :=
        ih behind (Prod.ext (by rw [List.length_drop]; dsimp only; omega) others) ableRest
      refine ⟨b', answer :: answers, ?_, ?_, ?_, mode.trans read.bAlign, ?_⟩
      · exact run_cons_eq_some.mpr ⟨mid, answer, answers, step, later, rfl⟩
      · rw [List.map_cons, moved, bitGroups_some, bits, ← split]
      · rw [List.map_cons, unaligned, skipped, ← read.bAlign, ← zeros]
        rfl
      · rwa [shortened, List.length_append, taken, ← Nat.add_assoc, ← read.bAlign]
    | none =>
      rw [List.map_cons, amount, bitCounts_none, Prod.mk.injEq] at mirrored
      obtain ⟨size, others⟩ := mirrored
      obtain rfl : call = .octetAlignRead := by
        cases call <;> simp [ReadCall.amount] at amount ⊢
      obtain rfl : first = [] := List.eq_nil_of_length_eq_zero size.symm
      cases rest with
      | nil => simp at others
      | cons next rest =>
        simp only [laidOut, paddings, List.nil_append, List.length_nil, Nat.add_zero,
          List.append_assoc] at stands able ⊢
        rw [List.map_cons, List.cons.injEq] at others
        obtain ⟨mid, ran, mode, behind⟩ := stands.octetAlignRead
        have step : readStep b .octetAlignRead =
            some (mid, .octetAlignRead (padding b.bAlign pos)) := by
          rw [readStep, readCall, run_bind_of_ok ran]
          rfl
        -- In an aligned buffer, whole octets are behind the gap.
        have whole : mid.Stands 0 (laidOut mid.bAlign 0 next rest ++ more) := by
          rw [mode]
          refine behind.congr fun aligned => ?_
          rw [mode] at aligned
          rw [padding, if_pos aligned]
          omega
        have ableRest : (laidOut mid.bAlign 0 next rest ++ more).length < 2 ^ 64 ∨
            run readStep mid calls ≠ none := by
          refine able.imp (fun countable => ?_) (run_ne_none_of_cons step)
          rw [List.length_append] at countable
          rw [mode]
          omega
        obtain ⟨b', answers, later, bits, zeros, mode', last⟩ :=
          ih whole (Prod.ext others.1 others.2) ableRest
        refine ⟨b', .octetAlignRead (padding b.bAlign pos) :: answers, ?_, ?_, ?_,
          mode'.trans mode, ?_⟩
        · exact run_cons_eq_some.mpr ⟨mid, _, answers, step, later, rfl⟩
        · rw [List.map_cons, ReadAnswer.moved, bitGroups_none, bits]
        · rw [← mode, ← zeros]
          rfl
        · rw [mode] at last
          refine last.congr fun aligned => ?_
          rw [mode', mode] at aligned
          rw [List.length_append, List.length_replicate, padding, if_pos aligned]
          omega

/-- A fresh buffer that was written to stands in front of what was written. -/
theorem AsnBufBits.Wrote.stands {bAlign : Bool} {bits : List Bool} {b : AsnBufBits}
    (wrote : (make bAlign).Wrote bits b) : b.Stands 0 bits where
  wellFormed := wrote.wellFormed
  position := by
    intro _
    rw [wrote.readBitPos]
    exact Nat.mod_self 8
  stored := by
    refine ⟨0, ?_⟩
    rw [stored, wrote.partRead, wrote.queued, List.replicate_zero, List.append_nil]
    rfl
  left := by
    rw [wrote.bitsLeft]
    exact UInt64.zero_add _

/-! ## The round trip -/

/--
Reads return what writes to a fresh buffer put.

The groups of bits between the alignments are the same, and so are the numbers that the alignments
return.
-/
def ReadsBack (bAlign : Bool) (writes : List WriteCall) (reads : List ReadCall) : Prop :=
  ∃ b counts b' answers, run writeStep (.make bAlign) writes = some (b, counts) ∧
    run readStep b reads = some (b', answers) ∧
    bitGroups (answers.map ReadAnswer.moved) = putGroups writes counts ∧
    (answers.map ReadAnswer.aligned).reduceOption = putAlignments writes counts

/-- Reads that ask for as many bits before, between and behind the alignments as writes put. -/
def Mirrors (writes : List WriteCall) (reads : List ReadCall) : Prop :=
  bitCounts (writes.map WriteCall.amount) = bitCounts (reads.map ReadCall.amount)

/-- The number of bits that writes to a fresh buffer put, zeros included. -/
def bitsWritten (bAlign : Bool) (writes : List WriteCall) : Nat :=
  ((run writeStep (.make bAlign) writes).map fun r => r.2.sum).getD 0

/-- Mirrored reads return what was written, while the bits written can be counted. -/
theorem bits_first_in_first_out (bAlign : Bool) (writes : List WriteCall) (reads : List ReadCall)
    (mirrored : Mirrors writes reads) (countable : bitsWritten bAlign writes < 2 ^ 64) :
    ReadsBack bAlign writes reads := by
  have fresh := AsnBufBits.make_wellFormed bAlign
  -- The writes lay out their groups of bits in the empty buffer.
  obtain ⟨b, counts, ran, wrote, zeros, total, amounts⟩ :=
    run_writes fresh 0 (fun _ => rfl) writes
  have empty : (AsnBufBits.make bAlign).bAlign = bAlign := rfl
  rw [bitsWritten, ran, Option.map_some, Option.getD_some, total] at countable
  rw [empty] at wrote zeros countable
  have stands := wrote.stands
  rw [← empty, ← wrote.bAlign, ← List.append_nil (laidOut ..)] at stands
  rw [← empty, ← wrote.bAlign, ← List.append_nil (laidOut ..)] at countable
  -- The reads take the groups apart again.
  obtain ⟨b', answers, ranReads, groups, gaps, -, -⟩ :=
    run_reads stands (mirrored.symm.trans amounts) (.inl countable)
  refine ⟨b, counts, b', answers, ran, ranReads, groups, ?_⟩
  rw [gaps, zeros, wrote.bAlign, empty]

/-- Two groups of three and seven bits, put with an alignment between and read in other parts. -/
theorem bits_first_in_first_out_two_groups :
    ReadsBack true
      [.putBits ⟨[0xA0], 3, by decide⟩, .octetAlignWrite, .putBits ⟨[0x5B], 7, by decide⟩]
      [.getBit, .getBits 2, .octetAlignRead, .getBits 4, .getBits 3] :=
  bits_first_in_first_out true _ _ rfl (by decide)

/-- Half as many zero bits as the counters of a buffer can count. -/
def halfOfCounter : BitSegment where
  seg := List.replicate (2 ^ 60) 0
  numBits := 0x8000000000000000
  holds := by
    rw [List.length_replicate]
    decide

/-- The bits of two segments that bring the counter back to 0 are not returned. -/
theorem bits_beyond_counter_lost :
    ¬∀ bAlign writes reads, Mirrors writes reads → ReadsBack bAlign writes reads := by
  intro always
  obtain ⟨b, counts, b', answers, ran, ranReads, -, -⟩ := always false
    [.putBits halfOfCounter, .putBits halfOfCounter]
    [.getBits halfOfCounter.numBits, .getBits halfOfCounter.numBits] rfl
  -- Each segment adds half of the range to the counter of bits left.
  have first := (putBits_wrote (AsnBufBits.make_wellFormed false) halfOfCounter).1
  have second := (putBits_wrote first.wellFormed halfOfCounter).1
  have none : b.bitsLeft = 0 := by
    obtain ⟨mid, out, rest, step, later, -⟩ := run_cons_eq_some.mp ran
    obtain ⟨last, out', rest', step', later', -⟩ := run_cons_eq_some.mp later
    simp only [writeStep, Option.some.injEq, Prod.mk.injEq] at step step'
    simp only [run_nil, Option.some.injEq, Prod.mk.injEq] at later'
    rw [← later'.1, ← step'.1, ← step.1, second.bitsLeft, first.bitsLeft,
      BitSegment.length_bits, UInt64.ofNat_toNat]
    decide
  -- The first read finds no bit left.
  obtain ⟨mid, out, rest, step, -, -⟩ := run_cons_eq_some.mp ranReads
  have refused : (readCall (.getBits halfOfCounter.numBits)).run b = .error tooManyBits b := by
    rw [readCall, EStateM.run_bind, getBits, run_bind_of_ok (EStateM.run_get b), none,
      if_pos (by decide)]
    rfl
  rw [readStep, refused] at step
  cases step

end Esnacc.Cxx
