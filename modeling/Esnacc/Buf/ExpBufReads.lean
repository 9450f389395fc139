import Esnacc.Buf.ExpBuf
import Esnacc.Buf.GenBuf
import Esnacc.Lib.Run

/-! Reading a chain of blocks is compared with reading the flat string of its octets. -/

namespace Esnacc

open Lib

/-! ## What a chain holds -/

namespace ExpBuf

/-- How many octets lie between the current location and the end of the data. -/
def left (b : ExpBuf) : Nat :=
  b.dataEnd.toNat - b.curr.toNat

/-- The octets between the current location and the end of the data. -/
@[grind =] def unread (b : ExpBuf) : List UInt8 :=
  slice b.mem b.curr b.left

/-- The block is in read mode and nothing of it has been read. -/
structure Ready (b : ExpBuf) : Prop where
  atStart : b.curr = b.dataStart
  ordered : b.dataStart ≤ b.dataEnd
  noError : b.readError = false

/-- The current location lies within the data. -/
structure Inside (b : ExpBuf) : Prop where
  notBefore : b.dataStart ≤ b.curr
  notAfter : b.curr ≤ b.dataEnd

@[simp] theorem length_unread (b : ExpBuf) : b.unread.length = b.left := by
  simp [unread]

theorem Ready.inside {b : ExpBuf} (ready : b.Ready) : b.Inside := by
  refine ⟨?_, ?_⟩
  · rw [ready.atStart]
    exact UInt64.le_refl _
  · rw [ready.atStart]
    exact ready.ordered

theorem Inside.toNat_sub {b : ExpBuf} (inside : b.Inside) :
    (b.dataEnd - b.curr).toNat = b.left :=
  UInt64.toNat_sub_of_le _ _ inside.notAfter

theorem Inside.atEod_iff {b : ExpBuf} (inside : b.Inside) :
    expBufAtEod b = true ↔ b.left = 0 := by
  have bound := inside.notAfter
  rw [UInt64.le_iff_toNat_le] at bound
  simp only [expBufAtEod, beq_iff_eq, ← UInt64.toNat_inj, left]
  omega

theorem Inside.left_of_noData {b : ExpBuf} (inside : b.Inside)
    (noData : expBufHasNoData b = true) : b.left = 0 := by
  obtain ⟨low, -⟩ := inside
  simp only [expBufHasNoData, beq_iff_eq] at noData
  rw [UInt64.le_iff_toNat_le, noData] at low
  simp only [left]
  omega

theorem Ready.noData_iff {b : ExpBuf} (ready : b.Ready) :
    expBufHasNoData b = true ↔ b.left = 0 := by
  rw [← ready.inside.atEod_iff, expBufHasNoData, expBufAtEod, ready.atStart]

end ExpBuf

namespace ExpBufRef

/-- The octets a chain still has to deliver, from the handle's current location on. -/
def unread (b : ExpBufRef) : List UInt8 :=
  b.buf.unread ++ b.next.flatMap ExpBuf.unread

/-- A chain in the middle of being read: the blocks after the handle have not been started. -/
structure Readable (b : ExpBufRef) : Prop where
  inside : b.buf.Inside
  later : ∀ n ∈ b.next, n.Ready

/--
The cursor has not moved backwards: either it is still in the block it was in, or it has gone on to
a later one.
-/
def Forwards (b b' : ExpBufRef) : Prop :=
  b'.next.length < b.next.length ∨
    b'.next = b.next ∧ b'.buf.dataStart = b.buf.dataStart ∧ b'.buf.dataEnd = b.buf.dataEnd ∧
      b.buf.curr ≤ b'.buf.curr

theorem Forwards.rfl {b : ExpBufRef} : b.Forwards b :=
  Or.inr ⟨Eq.refl _, Eq.refl _, Eq.refl _, UInt64.le_refl _⟩

theorem Forwards.trans {b c d : ExpBufRef} (first : b.Forwards c) (second : c.Forwards d) :
    b.Forwards d := by
  rcases first with shorter | ⟨next, start, stop, curr⟩
  · rcases second with shorter' | ⟨next', -⟩
    · exact Or.inl (Nat.lt_trans shorter' shorter)
    · exact Or.inl (next' ▸ shorter)
  · rcases second with shorter' | ⟨next', start', stop', curr'⟩
    · exact Or.inl (next ▸ shorter')
    · exact Or.inr ⟨next'.trans next, start'.trans start, stop'.trans stop,
        UInt64.le_trans curr curr'⟩

/-- Every block after the handle is empty. -/
def NothingAfter (b : ExpBufRef) : Prop :=
  ∀ n ∈ b.next, expBufHasNoData n = true

/-- The current block is exhausted although a later block holds data. -/
def Stalled (b : ExpBufRef) : Prop :=
  expBufAtEod b.buf = true ∧ ¬ b.NothingAfter

theorem unread_of_nothingAfter {b : ExpBufRef} (readable : b.Readable) (nothing : b.NothingAfter) :
    b.unread = b.buf.unread := by
  have empty : b.next.flatMap ExpBuf.unread = [] := by
    rw [List.flatMap_eq_nil_iff]
    intro n linked
    have none := (readable.later n linked).noData_iff.mp (nothing n linked)
    rw [← List.length_eq_zero_iff, ExpBuf.length_unread, none]
  rw [unread, empty, List.append_nil]

theorem unread_of_eod {b : ExpBufRef} (readable : b.Readable) (going : ¬ b.Stalled)
    (eod : expBufAtEod b.buf = true) : b.unread = [] := by
  have nothing : b.NothingAfter := by
    by_contra more
    exact going ⟨eod, more⟩
  rw [unread_of_nothingAfter readable nothing, ← List.length_eq_zero_iff, ExpBuf.length_unread,
    readable.inside.atEod_iff.mp eod]

theorem noError_of_left {b : ExpBufRef} (drained : b.buf.readError = true → b.unread = [])
    (some_left : 0 < b.buf.left) : b.buf.readError = false := by
  by_contra set
  have gone := congrArg List.length (drained (by simpa using set))
  simp only [unread, List.length_append, ExpBuf.length_unread, List.length_nil] at gone
  omega

end ExpBufRef

/-- A block whose remaining size reads as an `int` that does not hide it from a request. -/
def SegFits (n left : Nat) : Prop :=
  left < 2 ^ 31 ∨ (n : Int) < (left : Int).bmod (2 ^ 32)

instance (n left : Nat) : Decidable (SegFits n left) := instDecidableOr

/-- Every block a request for `n` octets enters is one whose remaining size fits the request. -/
def SegsFit : Nat → List Nat → Prop
  | _, [] => True
  | n, left :: rest => SegFits n left ∧ (left < n → SegsFit (n - left) rest)

instance decidableSegsFit : (n : Nat) → (lefts : List Nat) → Decidable (SegsFit n lefts)
  | _, [] => isTrue trivial
  | n, left :: rest =>
    have := decidableSegsFit (n - left) rest
    inferInstanceAs (Decidable (SegFits n left ∧ (left < n → SegsFit (n - left) rest)))

/-! ## One move over blocks -/

/-- Moving on over empty blocks loses no octet and stops early only where there is data. -/
theorem skipNoData_spec (prev : List ExpBuf) {b : ExpBuf} {next : List ExpBuf} (ready : b.Ready)
    (later : ∀ n ∈ next, n.Ready) :
    let r := skipNoData prev b next
    r.buf.Ready ∧ (∀ n ∈ r.next, n.Ready) ∧ r.unread = b.unread ++ next.flatMap ExpBuf.unread ∧
      (r.buf.left = 0 → r.next = []) ∧ r.next.length ≤ next.length ∧
      ∀ n, 0 < n → SegsFit n (b.left :: next.map ExpBuf.left) →
        SegsFit n (r.buf.left :: r.next.map ExpBuf.left) := by
  -- Each block passed over is empty, so it contributes nothing in front of the later ones.
  induction next generalizing prev b with
  | nil => exact ⟨ready, by simp [skipNoData], rfl, fun _ => rfl, Nat.le_refl _, fun _ _ fit => fit⟩
  | cons m rest ih =>
    by_cases noData : expBufHasNoData b = true
    · have none : b.left = 0 := ready.noData_iff.mp noData
      have nothing : b.unread = [] := by
        rw [← List.length_eq_zero_iff, ExpBuf.length_unread, none]
      obtain ⟨ready', later', same, settled, shorter, fit⟩ := ih (b :: prev)
        (later m List.mem_cons_self) (fun n linked => later n (List.mem_cons_of_mem m linked))
      simp only [skipNoData, if_pos noData]
      refine ⟨ready', later', ?_, settled, by simp only [List.length_cons]; omega, ?_⟩
      · rw [same, nothing, List.nil_append, List.flatMap_cons]
      · intro n wanted entered
        have rest := entered.2 (by omega)
        rw [none, Nat.sub_zero] at rest
        exact fit n wanted rest
    · simp only [skipNoData, if_neg noData]
      refine ⟨ready, later, rfl, ?_, Nat.le_refl _, fun _ _ fit => fit⟩
      intro none
      exact absurd (ready.noData_iff.mpr none) noData

/-! ## One segment -/

/-- A block with more octets left than wanted hands out exactly what was asked for. -/
theorem expBufGetSeg_part {b : ExpBufRef} {len : UInt64} (inside : b.buf.Inside)
    (small : len.toNat < 2 ^ 31) (fits : SegFits len.toNat b.buf.left)
    (more : len.toNat < b.buf.left) :
    expBufGetSeg b len = (some ⟨b.buf.mem, b.buf.curr⟩, len, b.advance len) := by
  have left : ¬ expBufAtEod b.buf = true := by
    rw [inside.atEod_iff]
    omega
  -- The narrowed sizes compare as the sizes do, so the block is not exhausted.
  have stays : ¬ intOf (b.buf.dataEnd - b.buf.curr) ≤ intOf len := by
    rw [intOf_le_intOf_iff small (by rwa [inside.toNat_sub]), inside.toNat_sub]
    omega
  simp only [expBufGetSeg, if_neg left, if_neg stays]

/-- The block the handle moves to when the current one is exhausted by a segment. -/
def ExpBufRef.afterSeg (b : ExpBufRef) : ExpBufRef :=
  match b.next with
  | n :: rest => (skipNoData (b.buf :: b.prev) n rest).rewind
  | [] => b.advance (b.buf.dataEnd - b.buf.curr)

/-- A block with at most as many octets left as wanted hands out all of them. -/
theorem expBufGetSeg_rest {b : ExpBufRef} {len : UInt64} (inside : b.buf.Inside)
    (small : len.toNat < 2 ^ 31) (some_left : 0 < b.buf.left) (all : b.buf.left ≤ len.toNat) :
    expBufGetSeg b len =
      (some ⟨b.buf.mem, b.buf.curr⟩, b.buf.dataEnd - b.buf.curr, b.afterSeg) := by
  have left : ¬ expBufAtEod b.buf = true := by
    rw [inside.atEod_iff]
    omega
  have size := inside.toNat_sub
  have moves : intOf (b.buf.dataEnd - b.buf.curr) ≤ intOf len := by
    rw [intOf_le_intOf (by omega) small]
    omega
  have whole : ulongOf (intOf (b.buf.dataEnd - b.buf.curr)) = b.buf.dataEnd - b.buf.curr :=
    ulongOf_intOf (by omega)
  simp only [expBufGetSeg, if_neg left, if_pos moves, whole, ExpBufRef.afterSeg]
  split <;> simp_all

theorem copySeg_of_inside {b : ExpBuf} {n : UInt64} (inside : b.Inside) (within : n.toNat ≤ b.left) :
    copySeg (some ⟨b.mem, b.curr⟩) n = some (b.unread.take n.toNat) := by
  have bound := UInt64.toNat_lt b.dataEnd
  have size := inside.notAfter
  rw [UInt64.le_iff_toNat_le] at size
  simp only [ExpBuf.left] at within
  simp only [copySeg, memcpy, ExpBuf.unread, take_slice _ _ (show n.toNat ≤ b.left from within)]
  rw [if_pos (by omega)]

/-- Moving inside a block's data leaves the rest of it. -/
theorem advance_spec {b : ExpBufRef} {n : UInt64} (readable : b.Readable)
    (within : n.toNat ≤ b.buf.left) :
    (b.advance n).Readable ∧ (b.advance n).buf.unread = b.buf.unread.drop n.toNat ∧
      (b.advance n).buf.left = b.buf.left - n.toNat ∧ b.Forwards (b.advance n) := by
  have bound := UInt64.toNat_lt b.buf.dataEnd
  obtain ⟨⟨low, high⟩, later⟩ := readable
  rw [UInt64.le_iff_toNat_le] at low high
  have sum : (b.buf.curr + n).toNat = b.buf.curr.toNat + n.toNat := by
    simp only [ExpBuf.left] at within
    rw [UInt64.toNat_add]
    omega
  have size : (b.advance n).buf.left = b.buf.left - n.toNat := by
    simp only [ExpBuf.left, ExpBufRef.advance, sum]
    omega
  refine ⟨⟨⟨?_, ?_⟩, later⟩, ?_, size, Or.inr ⟨rfl, rfl, rfl, ?_⟩⟩
  · simp only [ExpBufRef.advance, UInt64.le_iff_toNat_le, sum]
    omega
  · simp only [ExpBuf.left] at within
    simp only [ExpBufRef.advance, UInt64.le_iff_toNat_le, sum]
    omega
  · rw [ExpBuf.unread, ExpBuf.unread, size, drop_slice _ _ within, UInt64.ofNat_toNat]
    rfl
  · simp only [ExpBufRef.advance, UInt64.le_iff_toNat_le, sum]
    omega

theorem rewind_of_ready {b : ExpBufRef} (ready : b.buf.Ready) : b.rewind = b := by
  obtain ⟨prev, ⟨mem, dataStart, dataEnd, curr, blkStart, blkEnd, failed, full⟩, next⟩ := b
  have same : curr = dataStart := ready.atStart
  rw [ExpBufRef.rewind, same]

/-- How many segments can be taken from a chain before one of them comes up empty, and that one. -/
@[grind =] def ExpBufRef.turns (b : ExpBufRef) : Nat :=
  b.next.length + if b.buf.left = 0 then 1 else 2

/-- Exhausting a block leaves the octets of the blocks after it. -/
theorem afterSeg_spec {b : ExpBufRef} (readable : b.Readable) :
    b.afterSeg.Readable ∧ b.Forwards b.afterSeg ∧
      b.afterSeg.unread = b.next.flatMap ExpBuf.unread ∧
      ¬ b.afterSeg.Stalled ∧
      (b.buf.readError = false → b.afterSeg.buf.readError = false) ∧
      (0 < b.buf.left → b.afterSeg.turns < b.turns) ∧
      ∀ n, 0 < n → SegsFit n (b.next.map ExpBuf.left) →
        SegsFit n (b.afterSeg.buf.left :: b.afterSeg.next.map ExpBuf.left) := by
  cases linked : b.next with
  | nil =>
    -- The last block keeps the handle, at the end of its data.
    have size := readable.inside.toNat_sub
    obtain ⟨readable', rest, none, forwards⟩ :=
      advance_spec (n := b.buf.dataEnd - b.buf.curr) readable (by omega)
    have gone : (b.advance (b.buf.dataEnd - b.buf.curr)).buf.left = 0 := by omega
    have stays : b.afterSeg = b.advance (b.buf.dataEnd - b.buf.curr) := by
      rw [ExpBufRef.afterSeg, linked]
    have last : (b.advance (b.buf.dataEnd - b.buf.curr)).next = [] := linked
    rw [stays]
    refine ⟨readable', forwards, ?_, ?_, id, ?_, ?_⟩
    · rw [ExpBufRef.unread, rest, last, size]
      simp
    · rintro ⟨-, more⟩
      exact more (by simp [ExpBufRef.NothingAfter, last])
    · intro some_left
      rw [ExpBufRef.turns, ExpBufRef.turns, last, linked, if_pos gone, if_neg (by omega)]
      simp
    · intro n wanted _
      rw [gone, last]
      exact ⟨Or.inl (by omega), fun _ => trivial⟩
  | cons m rest =>
    have ready := readable.later m (by simp [linked])
    have later : ∀ n ∈ rest, n.Ready := fun n on => readable.later n (by simp [linked, on])
    obtain ⟨ready', later', same, settled, shorter, fit⟩ :=
      skipNoData_spec (b.buf :: b.prev) ready later
    have moved : b.afterSeg = skipNoData (b.buf :: b.prev) m rest := by
      rw [ExpBufRef.afterSeg, linked]
      exact rewind_of_ready ready'
    rw [moved]
    refine ⟨⟨ready'.inside, later'⟩, Or.inl ?_, same, ?_, fun _ => ready'.noError, ?_, fit⟩
    · rw [linked, List.length_cons]
      omega
    · rintro ⟨eod, more⟩
      apply more
      simp [ExpBufRef.NothingAfter, settled (ready'.inside.atEod_iff.mp eod)]
    · intro some_left
      rw [ExpBufRef.turns, ExpBufRef.turns, linked, if_neg (show ¬ b.buf.left = 0 by omega),
        List.length_cons]
      split <;> omega

/-! ## One read -/

/-- One turn of the copying loop. -/
theorem expBufCopyLoop_succ (len : UInt64) (fuel : Nat) (b : ExpBufRef) (gotLen : UInt64)
    (total : Int32) :
    expBufCopyLoop len (fuel + 1) b gotLen total =
      (copySeg (expBufGetSeg b gotLen).1 (expBufGetSeg b gotLen).2.1).bind fun octets =>
        let total := intOf (ulongOf total + (expBufGetSeg b gotLen).2.1)
        if total ≥ intOf len then some (octets, total, (expBufGetSeg b gotLen).2.2)
        else if (expBufGetSeg b gotLen).2.1 == 0 then
          some (octets, total, (expBufGetSeg b gotLen).2.2.setReadError)
        else
          (expBufCopyLoop len fuel (expBufGetSeg b gotLen).2.2 (len - ulongOf total) total).bind
            fun (rest, total, b) => some (octets ++ rest, total, b) :=
  rfl

/-- What a read of `n` octets leaves: the octets after them, and an error if they were too few. -/
structure ReadOver (b : ExpBufRef) (n : Nat) (b' : ExpBufRef) : Prop where
  readable : b'.Readable
  forwards : b.Forwards b'
  rest : b'.unread = b.unread.drop n
  error : b'.buf.readError = (b.buf.readError || decide (b.unread.length < n))

/-- What holds whenever the copying loop starts a turn. -/
structure CopyTurn (len : UInt64) (b : ExpBufRef) (gotLen : UInt64) (total : Int32) : Prop where
  small : len.toNat < 2 ^ 31
  readable : b.Readable
  going : 0 < gotLen.toNat → ¬ b.Stalled
  fits : SegsFit gotLen.toNat (b.buf.left :: b.next.map ExpBuf.left)
  nonneg : 0 ≤ total.toInt
  sum : total.toInt + gotLen.toNat = len.toNat
  drained : b.buf.readError = true → b.unread = []

namespace CopyTurn

variable {len gotLen : UInt64} {b : ExpBufRef} {total : Int32}

theorem enough_iff (turn : CopyTurn len b gotLen total) (got : UInt64)
    (within : got.toNat ≤ gotLen.toNat) :
    intOf (ulongOf total + got) ≥ intOf len ↔ gotLen.toNat ≤ got.toNat := by
  have small := turn.small
  have sum := turn.sum
  have grown := toInt_intOf_ulongOf_add (n := got) turn.nonneg (by omega)
  rw [ge_iff_le, Int32.le_iff_toInt_le, grown, toInt_intOf_of_lt small]
  omega

/-- On an exhausted chain a turn delivers nothing and reports a shortage, if there is one. -/
theorem of_eod (turn : CopyTurn len b gotLen total) (eod : expBufAtEod b.buf = true) (fuel : Nat) :
    ∃ b' total', expBufCopyLoop len (fuel + 1) b gotLen total =
        some (b.unread.take gotLen.toNat, total', b') ∧ ReadOver b gotLen.toNat b' := by
  have compared := turn.enough_iff 0 (by simp)
  simp only [expBufCopyLoop, expBufGetSeg, if_pos eod, copySeg, Option.bind_eq_bind,
    Option.bind_some, Option.pure_def, beq_self_eq_true, if_true, compared]
  by_cases wanted : gotLen.toNat ≤ (0 : UInt64).toNat
  · rw [if_pos wanted]
    have none : gotLen.toNat = 0 := by simpa using wanted
    exact ⟨b, _, by rw [none, List.take_zero], turn.readable, ExpBufRef.Forwards.rfl,
      by simp [none], by simp [none]⟩
  · rw [if_neg wanted]
    rw [UInt64.toNat_zero] at wanted
    have done := ExpBufRef.unread_of_eod turn.readable (turn.going (by omega)) eod
    refine ⟨b.setReadError, _, by rw [done, List.take_nil],
      ⟨⟨turn.readable.inside.1, turn.readable.inside.2⟩, turn.readable.later⟩,
      ExpBufRef.Forwards.rfl, ?_, ?_⟩
    · rw [done, List.drop_nil]
      exact done
    · simp [ExpBufRef.setReadError, done, show 0 < gotLen.toNat by omega]

/-- A block with more than is wanted ends the loop. -/
theorem of_part (turn : CopyTurn len b gotLen total) (more : gotLen.toNat < b.buf.left)
    (fuel : Nat) :
    ∃ b' total', expBufCopyLoop len (fuel + 1) b gotLen total =
        some (b.unread.take gotLen.toNat, total', b') ∧ ReadOver b gotLen.toNat b' := by
  have smallGot : gotLen.toNat < 2 ^ 31 := by
    have := turn.small
    have := turn.sum
    have := turn.nonneg
    omega
  have seg := expBufGetSeg_part turn.readable.inside smallGot turn.fits.1 more
  have octets := copySeg_of_inside turn.readable.inside (n := gotLen) (by omega)
  obtain ⟨readable', rest, -, forwards⟩ := advance_spec (n := gotLen) turn.readable (by omega)
  have enough := (turn.enough_iff gotLen (Nat.le_refl _)).mpr (Nat.le_refl _)
  have within : gotLen.toNat ≤ b.buf.unread.length := by
    rw [ExpBuf.length_unread]
    omega
  simp only [expBufCopyLoop, seg, octets, Option.bind_eq_bind, Option.bind_some,
    Option.pure_def, if_pos enough]
  refine ⟨b.advance gotLen, intOf (ulongOf total + gotLen), ?_, readable', forwards, ?_, ?_⟩
  · rw [ExpBufRef.unread, List.take_append_of_le_length within]
  · rw [ExpBufRef.unread, ExpBufRef.unread, rest, List.drop_append_of_le_length within]
    rfl
  · have covered : ¬ b.unread.length < gotLen.toNat := by
      rw [ExpBufRef.unread, List.length_append]
      omega
    simp [covered, ExpBufRef.advance]

/-- A used-up block hands the turn over to the blocks behind it, if more is wanted. -/
theorem of_rest (turn : CopyTurn len b gotLen total) (some_left : 0 < b.buf.left)
    (all : b.buf.left < gotLen.toNat) (fuel : Nat) :
    ∃ gotLen' total', gotLen'.toNat = gotLen.toNat - b.buf.left ∧
      CopyTurn len b.afterSeg gotLen' total' ∧
      expBufCopyLoop len (fuel + 1) b gotLen total =
        (expBufCopyLoop len fuel b.afterSeg gotLen' total').map
          fun (rest, total, b') => (b.buf.unread ++ rest, total, b') := by
  have small := turn.small
  have nonneg := turn.nonneg
  have sum := turn.sum
  have size := turn.readable.inside.toNat_sub
  have seg : expBufGetSeg b gotLen = _ :=
    expBufGetSeg_rest turn.readable.inside (by omega) some_left (by omega)
  have octets := copySeg_of_inside turn.readable.inside (n := b.buf.dataEnd - b.buf.curr) (by omega)
  rw [size, List.take_of_length_le (by simp)] at octets
  obtain ⟨readable', -, -, going, clear, -, fits⟩ := afterSeg_spec turn.readable
  have short : ¬ intOf (ulongOf total + (b.buf.dataEnd - b.buf.curr)) ≥ intOf len := by
    rw [turn.enough_iff _ (by omega)]
    omega
  have got : ¬ (b.buf.dataEnd - b.buf.curr == 0) = true := by
    rw [beq_iff_eq, ← UInt64.toNat_inj, size, UInt64.toNat_zero]
    omega
  have grown := toInt_intOf_ulongOf_add (n := b.buf.dataEnd - b.buf.curr) nonneg (by omega)
  have wanted := toNat_sub_ulongOf (n := len)
    (i := intOf (ulongOf total + (b.buf.dataEnd - b.buf.curr))) (by omega) (by omega)
  refine ⟨len - ulongOf (intOf (ulongOf total + (b.buf.dataEnd - b.buf.curr))),
    intOf (ulongOf total + (b.buf.dataEnd - b.buf.curr)), ?_,
    ⟨small, readable', fun _ => going, ?_, ?_, ?_, ?_⟩, ?_⟩
  · omega
  · have later := turn.fits.2 all
    rw [show gotLen.toNat - b.buf.left =
      (len - ulongOf (intOf (ulongOf total + (b.buf.dataEnd - b.buf.curr)))).toNat by omega] at later
    exact fits _ (by omega) later
  · omega
  · omega
  · simp [clear (ExpBufRef.noError_of_left turn.drained some_left)]
  · simp only [expBufCopyLoop, seg, octets, Option.bind_eq_bind, Option.bind_some,
      Option.pure_def, if_neg short, if_neg got]
    cases expBufCopyLoop len fuel b.afterSeg _ _ <;> rfl

/-- A used-up block ends the loop when no more is wanted. -/
theorem of_exact (turn : CopyTurn len b gotLen total) (some_left : 0 < b.buf.left)
    (all : b.buf.left = gotLen.toNat) (fuel : Nat) :
    ∃ b' total', expBufCopyLoop len (fuel + 1) b gotLen total =
        some (b.unread.take gotLen.toNat, total', b') ∧ ReadOver b gotLen.toNat b' := by
  have small := turn.small
  have nonneg := turn.nonneg
  have sum := turn.sum
  have size := turn.readable.inside.toNat_sub
  have seg : expBufGetSeg b gotLen = _ :=
    expBufGetSeg_rest turn.readable.inside (by omega) some_left (by omega)
  have octets := copySeg_of_inside turn.readable.inside (n := b.buf.dataEnd - b.buf.curr) (by omega)
  rw [size, List.take_of_length_le (by simp)] at octets
  obtain ⟨readable', forwards, rest, -, clear, -, -⟩ := afterSeg_spec turn.readable
  have enough : intOf (ulongOf total + (b.buf.dataEnd - b.buf.curr)) ≥ intOf len := by
    rw [turn.enough_iff _ (by omega)]
    omega
  have whole : b.buf.unread.length = gotLen.toNat := by simpa using all
  simp only [expBufCopyLoop, seg, octets, Option.bind_eq_bind, Option.bind_some,
    Option.pure_def, if_pos enough]
  refine ⟨b.afterSeg, intOf (ulongOf total + (b.buf.dataEnd - b.buf.curr)), ?_, readable',
    forwards, ?_, ?_⟩
  · rw [ExpBufRef.unread, List.take_left' whole]
  · rw [rest, ExpBufRef.unread, List.drop_left' whole]
  · have covered : ¬ b.unread.length < gotLen.toNat := by
      rw [ExpBufRef.unread, List.length_append]
      omega
    simp [covered, clear (ExpBufRef.noError_of_left turn.drained some_left), ExpBufRef.noError_of_left turn.drained some_left]

/-- The copying loop delivers the next octets of the chain, as far as there are any. -/
theorem run {fuel : Nat} (turn : CopyTurn len b gotLen total) (turns : b.turns ≤ fuel) :
    ∃ b' total', expBufCopyLoop len fuel b gotLen total =
        some (b.unread.take gotLen.toNat, total', b') ∧ ReadOver b gotLen.toNat b' := by
  -- The induction is on the turns left; a turn that goes on has left a block behind.
  induction fuel generalizing b gotLen total with
  | zero =>
    simp only [ExpBufRef.turns] at turns
    split at turns <;> omega
  | succ fuel ih =>
    by_cases eod : expBufAtEod b.buf = true
    · exact turn.of_eod eod fuel
    · have some_left : 0 < b.buf.left := by
        rw [turn.readable.inside.atEod_iff] at eod
        omega
      rcases Nat.lt_trichotomy b.buf.left gotLen.toNat with all | same | more
      · obtain ⟨gotLen', total', wanted, turn', unrolled⟩ := turn.of_rest some_left all fuel
        obtain ⟨-, forwards, rest, -, clear, shorter, -⟩ := afterSeg_spec turn.readable
        have went := shorter some_left
        obtain ⟨b', total'', ran, passed⟩ := ih turn' (by omega)
        rw [unrolled, ran]
        have front : b.buf.unread.length = b.buf.left := by simp
        refine ⟨b', total'', ?_, passed.readable, forwards.trans passed.forwards, ?_, ?_⟩
        · rw [rest, wanted, ExpBufRef.unread, List.take_append, front,
            List.take_of_length_le (l := b.buf.unread) (by omega)]
          rfl
        · rw [passed.rest, rest, wanted, ExpBufRef.unread, List.drop_append, front,
            List.drop_of_length_le (l := b.buf.unread) (by omega), List.nil_append]
        · rw [passed.error, clear (ExpBufRef.noError_of_left turn.drained some_left), ExpBufRef.noError_of_left turn.drained some_left, rest, wanted,
            ExpBufRef.unread, List.length_append, front]
          congr 1
          rw [decide_eq_decide]
          omega
      · exact turn.of_exact some_left same fuel
      · exact turn.of_part more fuel

end CopyTurn

theorem expBufCopy_spec {b : ExpBufRef} {len : UInt64} (small : len.toNat < 2 ^ 31)
    (readable : b.Readable) (going : 0 < len.toNat → ¬ b.Stalled)
    (fits : SegsFit len.toNat (b.buf.left :: b.next.map ExpBuf.left))
    (drained : b.buf.readError = true → b.unread = []) :
    ∃ b' total, expBufCopy b len = some (b.unread.take len.toNat, total, b') ∧
      ReadOver b len.toNat b' := by
  have turn : CopyTurn len b len 0 :=
    ⟨small, readable, going, fits, by decide, by simp, drained⟩
  apply turn.run
  rw [ExpBufRef.turns]
  split <;> omega

/-- What holds whenever the skipping loop starts a turn. -/
structure SkipTurn (b : ExpBufRef) (len : UInt64) : Prop where
  small : len.toNat < 2 ^ 31
  readable : b.Readable
  going : 0 < len.toNat → ¬ b.Stalled
  fits : 0 < len.toNat → SegsFit len.toNat (b.buf.left :: b.next.map ExpBuf.left)
  drained : b.buf.readError = true → b.unread = []

/-- What skipping `n` octets leaves: the octets after them, and the error flag as it was. -/
structure SkipOver (b : ExpBufRef) (n : Nat) (b' : ExpBufRef) : Prop where
  readable : b'.Readable
  forwards : b.Forwards b'
  rest : b'.unread = b.unread.drop n
  error : b'.buf.readError = b.buf.readError

/-- Skipping on a chain is skipping on its octets; running out of them is no error. -/
theorem SkipTurn.run {b : ExpBufRef} {len : UInt64} {fuel : Nat} (turn : SkipTurn b len)
    (turns : b.turns ≤ fuel) : SkipOver b len.toNat (expBufSkipLoop fuel b len) := by
  -- The induction follows the turns of the loop, as it does for copying.
  induction fuel generalizing b len with
  | zero =>
    simp only [ExpBufRef.turns] at turns
    split at turns <;> omega
  | succ fuel ih =>
    obtain ⟨small, readable, going, fits, drained⟩ := turn
    by_cases none : len = 0
    · simp only [expBufSkipLoop, if_pos none]
      exact ⟨readable, ExpBufRef.Forwards.rfl, by simp [none], rfl⟩
    have wanted : 0 < len.toNat := by
      rw [← UInt64.toNat_inj, UInt64.toNat_zero] at none
      omega
    by_cases eod : expBufAtEod b.buf = true
    · -- A null segment ends the loop without an error.
      have done := ExpBufRef.unread_of_eod readable (going wanted) eod
      simp only [expBufSkipLoop, if_neg none, expBufGetSeg, if_pos eod]
      exact ⟨readable, ExpBufRef.Forwards.rfl, by simp [done], rfl⟩
    have some_left : 0 < b.buf.left := by
      rw [readable.inside.atEod_iff] at eod
      omega
    have noError := ExpBufRef.noError_of_left drained some_left
    have front : b.buf.unread.length = b.buf.left := by simp
    by_cases more : len.toNat < b.buf.left
    · have seg := expBufGetSeg_part readable.inside small (fits wanted).1 more
      obtain ⟨readable', rest, -, forwards⟩ := advance_spec (n := len) readable (by omega)
      have got : ¬ (len == 0) = true := by simpa using none
      have ended : ∀ turns b', expBufSkipLoop turns b' 0 = b' := by
        intro turns b'
        cases turns <;> simp [expBufSkipLoop]
      simp only [expBufSkipLoop, if_neg none, seg, if_neg got, UInt64.sub_self, ended]
      refine ⟨readable', forwards, ?_, rfl⟩
      rw [ExpBufRef.unread, ExpBufRef.unread, rest, List.drop_append_of_le_length (by omega)]
      rfl
    · have seg := expBufGetSeg_rest readable.inside small some_left (by omega)
      have size := readable.inside.toNat_sub
      obtain ⟨readable', forwards, rest, going', clear, shorter, onward⟩ := afterSeg_spec readable
      have got : ¬ (b.buf.dataEnd - b.buf.curr == 0) = true := by
        rw [beq_iff_eq, ← UInt64.toNat_inj, size, UInt64.toNat_zero]
        omega
      have remaining : (len - (b.buf.dataEnd - b.buf.curr)).toNat = len.toNat - b.buf.left := by
        rw [UInt64.toNat_sub_of_le _ _ (by rw [UInt64.le_iff_toNat_le]; omega), size]
      have went := shorter some_left
      simp only [expBufSkipLoop, if_neg none, seg, if_neg got]
      have later : SkipTurn b.afterSeg (len - (b.buf.dataEnd - b.buf.curr)) := by
        refine ⟨by omega, readable', fun _ => going', ?_, by simp [clear noError]⟩
        rw [remaining]
        exact fun wanted' => onward _ wanted' ((fits wanted).2 (by omega))
      have passed := ih later (by omega)
      refine ⟨passed.readable, forwards.trans passed.forwards, ?_, ?_⟩
      · rw [passed.rest, rest, remaining, ExpBufRef.unread, List.drop_append, front,
          List.drop_of_length_le (l := b.buf.unread) (by omega), List.nil_append]
      · rw [passed.error, clear noError, noError]

theorem expBufSkip_spec {b : ExpBufRef} {len : UInt64} (turn : SkipTurn b len) :
    SkipOver b len.toNat (expBufSkip b len) := by
  apply turn.run
  rw [ExpBufRef.turns]
  split <;> omega

/-- A single-octet read passes over a finished block only where the next one can be read. -/
def ExpBufRef.NextHolds (b : ExpBufRef) : Prop :=
  expBufHasNoData b.buf = true ∨ ¬ expBufAtEod b.buf = true ∨
    ∀ n rest, b.next = n :: rest → expBufHasNoData n = true → ∀ m ∈ rest, expBufHasNoData m = true

theorem getByteBlock_last (prev : List ExpBuf) (b : ExpBuf) :
    getByteBlock ⟨prev, b, []⟩ = ⟨prev, b, []⟩ := by
  by_cases eod : expBufAtEod b = true <;> simp [getByteBlock, stepToNext, skipNoData, eod]

theorem getByteBlock_noData (prev : List ExpBuf) {b n : ExpBuf} {rest : List ExpBuf}
    (ready : n.Ready) (later : ∀ m ∈ rest, m.Ready) (noData : expBufHasNoData b = true) :
    getByteBlock ⟨prev, b, n :: rest⟩ = skipNoData (b :: prev) n rest := by
  obtain ⟨ready', -, -, settled, -, -⟩ := skipNoData_spec (b :: prev) ready later
  simp only [getByteBlock, stepToNext, skipNoData, if_pos noData]
  split
  · rename_i eod
    rw [settled (ready'.inside.atEod_iff.mp eod)]
  · rfl

theorem getByteBlock_finished (prev : List ExpBuf) {b n : ExpBuf} {rest : List ExpBuf}
    (ready : n.Ready) (data : ¬ expBufHasNoData b = true) (eod : expBufAtEod b = true) :
    getByteBlock ⟨prev, b, n :: rest⟩ = ⟨b :: prev, n, rest⟩ := by
  simp only [getByteBlock, stepToNext, skipNoData, if_neg data, if_pos eod]
  exact rewind_of_ready ready

theorem getByteBlock_inData {b : ExpBufRef} (data : ¬ expBufHasNoData b.buf = true)
    (left : ¬ expBufAtEod b.buf = true) : getByteBlock b = b := by
  obtain ⟨prev, buf, next⟩ := b
  cases next with
  | nil => exact getByteBlock_last prev buf
  | cons n rest => simp only [getByteBlock, stepToNext, skipNoData, if_neg data, if_neg left]

/-- The block a single-octet read takes its octet from, if it can take one at all. -/
theorem getByteBlock_spec {b : ExpBufRef} (readable : b.Readable) (holds : b.NextHolds)
    (drained : b.buf.readError = true → b.unread = []) :
    (getByteBlock b).Readable ∧ (getByteBlock b).unread = b.unread ∧
      ¬ (getByteBlock b).Stalled ∧
      (b.unread ≠ [] → (getByteBlock b).buf.readError = false) := by
  have clear : b.unread ≠ [] → b.buf.readError = false := by
    intro more
    by_contra set
    exact more (drained (by simpa using set))
  obtain ⟨prev, buf, next⟩ := b
  cases next with
  | nil =>
    rw [getByteBlock_last]
    exact ⟨readable, rfl, fun ⟨_, more⟩ => more (by simp [ExpBufRef.NothingAfter]), clear⟩
  | cons n rest =>
    have ready := readable.later n (by simp)
    have later : ∀ m ∈ rest, m.Ready := fun m on => readable.later m (by simp [on])
    by_cases noData : expBufHasNoData buf = true
    · obtain ⟨ready', later', same, settled, -, -⟩ := skipNoData_spec (buf :: prev) ready later
      have nothing : buf.unread = [] := by
        rw [← List.length_eq_zero_iff, ExpBuf.length_unread]
        exact readable.inside.left_of_noData noData
      rw [getByteBlock_noData prev ready later noData]
      refine ⟨⟨ready'.inside, later'⟩, ?_, ?_, fun _ => ready'.noError⟩
      · rw [same, ExpBufRef.unread, nothing, List.nil_append, List.flatMap_cons]
      · rintro ⟨eod, more⟩
        apply more
        simp [ExpBufRef.NothingAfter, settled (ready'.inside.atEod_iff.mp eod)]
    · by_cases eod : expBufAtEod buf = true
      · have nothing : buf.unread = [] := by
          rw [← List.length_eq_zero_iff, ExpBuf.length_unread]
          exact readable.inside.atEod_iff.mp eod
        rw [getByteBlock_finished prev ready noData eod]
        refine ⟨⟨ready.inside, later⟩, ?_, ?_, fun _ => ready.noError⟩
        · rw [ExpBufRef.unread, ExpBufRef.unread, nothing, List.nil_append, List.flatMap_cons]
        · rintro ⟨eod', more⟩
          apply more
          rcases holds with empty | inData | follows
          · exact absurd empty noData
          · exact absurd eod inData
          · exact follows n rest rfl (ready.noData_iff.mpr (ready.inside.atEod_iff.mp eod'))
      · rw [getByteBlock_inData noData eod]
        exact ⟨readable, rfl, fun ⟨at_, _⟩ => eod at_, clear⟩

/-- A single-octet read takes the next octet of the chain. -/
theorem expBufGetByte_cons {b : ExpBufRef} {x : UInt8} {rest : List UInt8} (readable : b.Readable)
    (holds : b.NextHolds) (drained : b.buf.readError = true → b.unread = [])
    (held : b.unread = x :: rest) :
    ∃ b', expBufGetByte b = (x, b') ∧ b'.Readable ∧ b'.unread = rest ∧
      b'.buf.readError = false := by
  obtain ⟨readable', same, going, clear⟩ := getByteBlock_spec readable holds drained
  have here : ¬ expBufAtEod (getByteBlock b).buf = true := by
    intro eod
    have done := ExpBufRef.unread_of_eod readable' going eod
    rw [same, held] at done
    simp at done
  have some_left : 0 < (getByteBlock b).buf.left := by
    rw [readable'.inside.atEod_iff] at here
    omega
  obtain ⟨moved, after, -⟩ := advance_spec (n := 1) readable' (by simp; omega)
  -- The first octet of the block is the one at its current location.
  have first := getElem?_slice (getByteBlock b).buf.mem (getByteBlock b).buf.curr some_left
  rw [← same, ExpBufRef.unread] at held
  cases octets : (getByteBlock b).buf.unread with
  | nil =>
    have gone := congrArg List.length octets
    simp at gone
    omega
  | cons y ys =>
    rw [octets, List.cons_append, List.cons.injEq] at held
    obtain ⟨rfl, tail⟩ := held
    rw [show slice _ _ (getByteBlock b).buf.left = y :: ys from octets] at first
    have byte : (getByteBlock b).buf.mem (getByteBlock b).buf.curr = y := by
      simpa using first.symm
    refine ⟨(getByteBlock b).advance 1, ?_, moved, ?_, ?_⟩
    · simp only [expBufGetByte, if_neg here, byte]
    · rw [ExpBufRef.unread, after, octets]
      exact tail
    · exact clear (by rw [← same, ExpBufRef.unread, octets]; simp)

/-- A single-octet read on an exhausted chain returns zero and raises the read error. -/
theorem expBufGetByte_nil {b : ExpBufRef} (readable : b.Readable) (holds : b.NextHolds)
    (drained : b.buf.readError = true → b.unread = []) (done : b.unread = []) :
    ∃ b', expBufGetByte b = (0, b') ∧ b'.Readable ∧ b'.unread = [] ∧ b'.buf.readError = true := by
  obtain ⟨readable', same, -, -⟩ := getByteBlock_spec readable holds drained
  have none : (getByteBlock b).buf.left = 0 := by
    have gone := congrArg List.length (same.trans done)
    simp only [ExpBufRef.unread, List.length_append, ExpBuf.length_unread, List.length_nil] at gone
    omega
  have eod := readable'.inside.atEod_iff.mpr none
  refine ⟨(getByteBlock b).setReadError, ?_, ⟨⟨readable'.inside.1, readable'.inside.2⟩,
    readable'.later⟩, same.trans done, rfl⟩
  simp only [expBufGetByte, if_pos eod]

end Esnacc
