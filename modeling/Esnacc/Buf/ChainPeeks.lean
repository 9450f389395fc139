import Esnacc.Buf.Peeks

/-! Where a peek at a chain of blocks foretells the read, after any successful reads. -/

namespace Esnacc

open Lib

namespace ExpBufRef

/-! ## States that reads lead to -/

/-- A chain in the middle of being read, wherever in its block the current location has got to. -/
structure Underway (b : ExpBufRef) : Prop where
  later : ∀ n ∈ b.next, n.Ready
  settled : expBufHasNoData b.buf = true → expBufAtEod b.buf = true

theorem Underway.setReadError {b : ExpBufRef} (underway : b.Underway) : b.setReadError.Underway :=
  ⟨underway.later, underway.settled⟩

theorem underway_of_ready {b : ExpBufRef} (ready : b.buf.Ready) (later : ∀ n ∈ b.next, n.Ready) :
    b.Underway :=
  ⟨later, fun noData => ready.inside.atEod_iff.mpr (ready.noData_iff.mp noData)⟩

theorem Underway.advance {b : ExpBufRef} (underway : b.Underway) (len : UInt64)
    (left : ¬ expBufAtEod b.buf = true) : (b.advance len).Underway :=
  ⟨underway.later, fun noData => absurd (underway.settled noData) left⟩

theorem Underway.getSeg {b : ExpBufRef} (underway : b.Underway) (len : UInt64) :
    (expBufGetSeg b len).2.2.Underway := by
  simp only [expBufGetSeg]
  split
  · exact underway
  · rename_i left
    split
    · split
      · rename_i n rest linked
        have ready := underway.later n (by simp [linked])
        have later : ∀ m ∈ rest, m.Ready := fun m on => underway.later m (by simp [linked, on])
        obtain ⟨ready', later', -⟩ := skipNoData_spec (b.buf :: b.prev) ready later
        rw [rewind_of_ready ready']
        exact underway_of_ready ready' later'
      · exact underway.advance _ left
    · exact underway.advance _ left

theorem Underway.copyLoop {b c : ExpBufRef} {len gotLen : UInt64} {fuel : Nat}
    {total total' : Int32} {octets : List UInt8} (underway : b.Underway)
    (copied : expBufCopyLoop len fuel b gotLen total = some (octets, total', c)) :
    c.Underway := by
  induction fuel generalizing b gotLen total octets with
  | zero => contradiction
  | succ fuel ih =>
    have moved := underway.getSeg gotLen
    simp only [expBufCopyLoop, Option.bind_eq_bind, Option.pure_def] at copied
    obtain ⟨front, -, copied⟩ := Option.bind_eq_some_iff.mp copied
    split at copied
    · cases copied
      exact moved
    · split at copied
      · cases copied
        exact moved.setReadError
      · obtain ⟨⟨more, total'', c'⟩, ran, same⟩ := Option.bind_eq_some_iff.mp copied
        cases same
        exact ih moved ran

theorem Underway.skipLoop {b : ExpBufRef} (underway : b.Underway) (fuel : Nat) (len : UInt64) :
    (expBufSkipLoop fuel b len).Underway := by
  induction fuel generalizing b len with
  | zero => exact underway
  | succ fuel ih =>
    have moved := underway.getSeg len
    simp only [expBufSkipLoop]
    split
    · exact underway
    · split
      · rename_i seg
        rw [seg] at moved
        exact moved
      · rename_i seg
        rw [seg] at moved
        split
        · exact moved.setReadError
        · exact ih moved _

/-- The block a single-octet read comes to: the current one, or one that has not been started. -/
theorem Underway.getByteBlock_cases {b : ExpBufRef} (underway : b.Underway) :
    getByteBlock b = b ∨
      (getByteBlock b).buf.Ready ∧ ∀ n ∈ (getByteBlock b).next, n.Ready := by
  obtain ⟨prev, buf, next⟩ := b
  cases next with
  | nil => exact Or.inl (getByteBlock_last prev buf)
  | cons n rest =>
    have ready := underway.later n (by simp)
    have later : ∀ m ∈ rest, m.Ready := fun m on => underway.later m (by simp [on])
    by_cases noData : expBufHasNoData buf = true
    · obtain ⟨ready', later', -⟩ := skipNoData_spec (buf :: prev) ready later
      rw [getByteBlock_noData prev ready later noData]
      exact Or.inr ⟨ready', later'⟩
    · by_cases eod : expBufAtEod buf = true
      · rw [getByteBlock_finished prev ready noData eod]
        exact Or.inr ⟨ready, later⟩
      · exact Or.inl (getByteBlock_inData noData eod)

theorem Underway.getByteBlock {b : ExpBufRef} (underway : b.Underway) :
    (Esnacc.getByteBlock b).Underway := by
  rcases underway.getByteBlock_cases with stays | ⟨ready, later⟩
  · rwa [stays]
  · exact underway_of_ready ready later

theorem Underway.getByte {b : ExpBufRef} (underway : b.Underway) :
    (expBufGetByte b).2.Underway := by
  have moved := underway.getByteBlock
  simp only [expBufGetByte]
  split
  · exact moved.setReadError
  · exact moved.advance 1 (by assumption)

/-- Every read leaves a chain in the middle of being read. -/
theorem Underway.readOp {b c : ExpBufRef} {op : ReadOp} {out : ReadOut} (underway : b.Underway)
    (stepped : Esnacc.readOp b op = some (c, out)) : c.Underway := by
  cases op with
  | getSeg len =>
    cases stepped
    exact underway.getSeg len
  | call call =>
    cases call with
    | getByte =>
      cases stepped
      exact underway.getByte
    | copy len =>
      simp only [Esnacc.readOp, bufRead, GenBuf.copy] at stepped
      cases copied : expBufCopy b len with
      | none =>
        rw [copied] at stepped
        contradiction
      | some result =>
        obtain ⟨octets, total, c'⟩ := result
        rw [copied] at stepped
        cases stepped
        exact underway.copyLoop copied
    | skip len =>
      cases stepped
      exact underway.skipLoop _ len

/-! ## Peeking at one octet -/

/-- The block behind a finished one, or all blocks behind an empty one, are empty. -/
def NothingNext (b : ExpBufRef) : Prop :=
  if expBufHasNoData b.buf then b.NothingAfter
  else ∀ n rest, b.next = n :: rest → expBufHasNoData n = true

/-- Whether a single-octet read that starts at the end of a block finds no octet. -/
theorem Underway.atEod_getByteBlock {b : ExpBufRef} (underway : b.Underway)
    (eod : expBufAtEod b.buf = true) :
    expBufAtEod (Esnacc.getByteBlock b).buf = true ↔ b.NothingNext := by
  obtain ⟨prev, buf, next⟩ := b
  cases next with
  | nil =>
    rw [getByteBlock_last]
    refine ⟨fun _ => ?_, fun _ => eod⟩
    simp only [NothingNext]
    split <;> simp [NothingAfter]
  | cons n rest =>
    have ready := underway.later n (by simp)
    have later : ∀ m ∈ rest, m.Ready := fun m on => underway.later m (by simp [on])
    by_cases noData : expBufHasNoData buf = true
    · obtain ⟨ready', later', same, settled, -, -⟩ := skipNoData_spec (buf :: prev) ready later
      rw [getByteBlock_noData prev ready later noData, ready'.inside.atEod_iff, NothingNext,
        if_pos noData]
      -- Nothing is found exactly when all the blocks together hold no octet.
      have empty : (skipNoData (buf :: prev) n rest).unread = [] ↔
          NothingAfter ⟨prev, buf, n :: rest⟩ := by
        rw [same, ← List.flatMap_cons, List.flatMap_eq_nil_iff]
        refine forall₂_congr fun m on => ?_
        rw [(underway.later m on).noData_iff, ← List.length_eq_zero_iff, ExpBuf.length_unread]
      rw [← empty]
      constructor
      · intro none
        rw [ExpBufRef.unread, settled none, List.flatMap_nil, List.append_nil,
          ← List.length_eq_zero_iff, ExpBuf.length_unread, none]
      · intro done
        have gone := congrArg List.length done
        simp only [ExpBufRef.unread, List.length_append, ExpBuf.length_unread, List.length_nil]
          at gone
        omega
    · rw [getByteBlock_finished prev ready noData eod, ready.inside.atEod_iff, NothingNext,
        if_neg noData, ← ready.noData_iff]
      constructor
      · rintro none m ms linked
        cases linked
        exact none
      · exact fun all => all n rest (Eq.refl _)

/--
A peek at one octet is right in the middle of a block, and at the end of one where nothing follows
and the octet behind the data happens to be zero.
-/
def PeekByteHolds (b : ExpBufRef) : Prop :=
  expBufAtEod b.buf = true → b.buf.mem b.buf.curr = 0 ∧ b.NothingNext

/-- When a peek at one octet of a chain foretells the read. -/
theorem Underway.peekByte_iff {b : ExpBufRef} (underway : b.Underway)
    (noError : b.buf.readError = false) : PeekByteForetells b ↔ b.PeekByteHolds := by
  by_cases eod : expBufAtEod b.buf = true
  · have peek : expBufPeekByte b = (b.buf.mem b.buf.curr, b.setReadError) := by
      have same : (b.buf.curr == b.buf.dataEnd) = true := eod
      simp only [expBufPeekByte, if_pos same]
      rfl
    have finds := underway.atEod_getByteBlock eod
    constructor
    · intro foretells _
      have nothing : expBufAtEod (Esnacc.getByteBlock b).buf = true := by
        -- Otherwise the read succeeds where the peek has raised an error.
        by_contra found
        have clear : (Esnacc.getByteBlock b).buf.readError = false := by
          rcases underway.getByteBlock_cases with stays | ⟨ready, -⟩
          · rwa [stays]
          · exact ready.noError
        have error : expBufReadError (expBufPeekByte b).2 = expBufReadError (expBufGetByte b).2 :=
          foretells.error
        simp only [peek, expBufGetByte, if_neg found, expBufReadError] at error
        exact absurd (clear.symm.trans error.symm) (by simp [ExpBufRef.setReadError])
      have octet : (expBufPeekByte b).1 = (expBufGetByte b).1 := foretells.octet
      simp only [peek, expBufGetByte, if_pos nothing] at octet
      exact ⟨octet, finds.mp nothing⟩
    · intro holds
      obtain ⟨zero, nothing⟩ := holds eod
      have read : expBufGetByte b = (0, (Esnacc.getByteBlock b).setReadError) := by
        simp only [expBufGetByte, if_pos (finds.mpr nothing)]
      refine ⟨?_, ?_, readsAlike ?_⟩
      · change (expBufPeekByte b).1 = (expBufGetByte b).1
        rw [peek, read, zero]
      · change expBufReadError (expBufPeekByte b).2 = expBufReadError (expBufGetByte b).2
        rw [peek, read]
        rfl
      · change (expBufPeekByte b).2.Alike b
        rw [peek]
        exact ⟨Eq.refl _, b.buf.readError, Eq.refl _⟩
  · have data : ¬ expBufHasNoData b.buf = true := fun noData => eod (underway.settled noData)
    have peek : expBufPeekByte b = (b.buf.mem b.buf.curr, b) := by
      have differ : ¬ (b.buf.curr == b.buf.dataEnd) = true := eod
      simp only [expBufPeekByte, if_neg differ]
    have read : expBufGetByte b = (b.buf.mem b.buf.curr, b.advance 1) := by
      simp only [expBufGetByte, getByteBlock_inData data eod, if_neg eod]
    refine ⟨fun _ at_ => absurd at_ eod, fun _ => ⟨?_, ?_, readsAlike ?_⟩⟩
    · change (expBufPeekByte b).1 = (expBufGetByte b).1
      rw [peek, read]
    · change expBufReadError (expBufPeekByte b).2 = expBufReadError (expBufGetByte b).2
      rw [peek, read]
      rfl
    · change (expBufPeekByte b).2.Alike b
      rw [peek]
      exact Alike.rfl

/-! ## Peeking at a segment -/

/-- Moving the handle on over empty blocks does not change where it is restored to. -/
theorem restore_skipNoData {origBuf : ExpBufRef} {prev : List ExpBuf} {b : ExpBuf}
    {next : List ExpBuf} (behind : origBuf.prev.length ≤ prev.length) :
    (Esnacc.skipNoData prev b next).restore origBuf =
      ExpBufRef.restore ⟨prev, b, next⟩ origBuf := by
  induction next generalizing prev b with
  | nil => rfl
  | cons n rest ih =>
    simp only [Esnacc.skipNoData]
    split
    · -- One block more is behind the handle, and going back passes it again.
      rw [ih (by simp; omega)]
      simp only [restore, backTo, List.length_cons]
      rw [if_neg (by omega)]
    · rfl

theorem restore_self (b : ExpBufRef) : b.restore b = b := by
  obtain ⟨prev, buf, next⟩ := b
  cases prev with
  | nil => rfl
  | cons p prev =>
    simp only [restore, backTo]
    rw [if_pos (Nat.le_refl _)]

/-- What holds whenever the peeking loop starts a turn with `wanted` octets to go. -/
structure PeekTurn (len : UInt64) (origBuf b : ExpBufRef) (gotLen total : UInt64) : Prop where
  readable : b.Readable
  fits : SegsFit gotLen.toNat (b.buf.left :: b.next.map ExpBuf.left)
  enough : gotLen.toNat ≤ b.unread.length
  sum : total.toNat + gotLen.toNat = len.toNat
  back : b.restore origBuf = origBuf
  behind : origBuf.prev.length ≤ b.prev.length

theorem skipNoData_behind (prev : List ExpBuf) (b : ExpBuf) (next : List ExpBuf) :
    prev.length ≤ (Esnacc.skipNoData prev b next).prev.length := by
  induction next generalizing prev b with
  | nil => exact Nat.le_refl _
  | cons n rest ih =>
    simp only [Esnacc.skipNoData]
    split
    · have more := ih (b :: prev) n
      rw [List.length_cons] at more
      omega
    · exact Nat.le_refl _

/-- A peeked segment covers what is wanted, as far as the block holds it. -/
theorem expBufPeekSeg_spec {b : ExpBufRef} {len : UInt64} (inside : b.buf.Inside)
    (small : len.toNat < 2 ^ 31) (fits : SegFits len.toNat b.buf.left)
    (some_left : ¬ expBufAtEod b.buf = true) :
    ∃ got, expBufPeekSeg b len = (some ⟨b.buf.mem, b.buf.curr⟩, got) ∧
      got.toNat = min len.toNat b.buf.left := by
  have size := inside.toNat_sub
  refine ⟨_, by simp only [expBufPeekSeg, if_neg some_left]; rfl, ?_⟩
  rcases fits with below | above
  · have whole : ulongOf (intOf (b.buf.dataEnd - b.buf.curr)) = b.buf.dataEnd - b.buf.curr :=
      ulongOf_intOf (by omega)
    rw [whole]
    split
    · rename_i covers
      rw [UInt64.le_iff_toNat_le] at covers
      omega
    · rename_i more
      rw [UInt64.le_iff_toNat_le] at more
      omega
  · -- The size reads smaller than it is, but still as more than is wanted.
    have atMost : (b.buf.left : Int).bmod (2 ^ 32) ≤ b.buf.left := by
      rw [Int.bmod_def]
      split <;> omega
    have reads : (intOf (b.buf.dataEnd - b.buf.curr)).toInt = (b.buf.left : Int).bmod (2 ^ 32) := by
      rw [toInt_intOf, size]
    have wide := toNat_ulongOf_of_nonneg (i := intOf (b.buf.dataEnd - b.buf.curr)) (by omega)
    rw [if_neg (by rw [UInt64.le_iff_toNat_le]; omega)]
    omega

/-- The peeking loop finds the octets asked for and comes back to where it started. -/
theorem PeekTurn.run {len : UInt64} {origBuf b : ExpBufRef} {gotLen total : UInt64} {fuel : Nat}
    (turn : PeekTurn len origBuf b gotLen total) (small : len.toNat < 2 ^ 31)
    (some_left : ¬ expBufAtEod b.buf = true) (turns : b.next.length < fuel) :
    expBufPeekCopyLoop len origBuf fuel b gotLen total =
      some (b.unread.take gotLen.toNat, intOf len, origBuf) := by
  -- The induction is on the turns left; a turn that goes on has moved to a later block.
  induction fuel generalizing b gotLen total with
  | zero => omega
  | succ fuel ih =>
    obtain ⟨readable, fits, enough, sum, back, behind⟩ := turn
    have bound := UInt64.toNat_lt len
    obtain ⟨got, seg, covers⟩ :=
      expBufPeekSeg_spec readable.inside (by omega) fits.1 some_left
    have octets := copySeg_of_inside readable.inside (n := got) (by omega)
    have grown : (total + got).toNat = total.toNat + got.toNat := by
      rw [UInt64.toNat_add]
      omega
    have front : b.buf.unread.length = b.buf.left := by simp
    have length : b.unread.length = b.buf.left + (b.next.flatMap ExpBuf.unread).length := by
      rw [ExpBufRef.unread, List.length_append, front]
    simp only [expBufPeekCopyLoop, seg, octets, Option.bind_eq_bind, Option.bind_some,
      Option.pure_def]
    by_cases done : gotLen.toNat ≤ b.buf.left
    · -- All that is wanted lies in this block, so the loop ends, at the last block or not.
      have whole : total + got = len := by
        rw [← UInt64.toNat_inj, grown]
        omega
      have taken : b.buf.unread.take got.toNat = b.unread.take gotLen.toNat := by
        rw [ExpBufRef.unread, List.take_append_of_le_length (by omega),
          show got.toNat = gotLen.toNat by omega]
      rw [whole, taken, back]
      split
      · rfl
      · rw [if_pos (UInt64.le_refl _)]
    · have wanted : 0 < gotLen.toNat - b.buf.left := by omega
      have whole : b.buf.unread.take got.toNat = b.buf.unread := by
        rw [List.take_of_length_le (by omega)]
      cases linked : b.next with
      | nil =>
        rw [linked, List.flatMap_nil, List.length_nil] at length
        omega
      | cons n rest =>
        have ready := readable.later n (by simp [linked])
        have later : ∀ m ∈ rest, m.Ready := fun m on => readable.later m (by simp [linked, on])
        obtain ⟨ready', later', same, settled, shorter, fit⟩ :=
          skipNoData_spec (b.buf :: b.prev) ready later
        have short : ¬ total + got ≥ len := by
          rw [ge_iff_le, UInt64.le_iff_toNat_le, grown]
          omega
        have some_got : ¬ (got == 0) = true := by
          rw [readable.inside.atEod_iff] at some_left
          rw [beq_iff_eq, ← UInt64.toNat_inj, UInt64.toNat_zero]
          omega
        have remaining : (len - (total + got)).toNat = gotLen.toNat - b.buf.left := by
          rw [UInt64.toNat_sub_of_le _ _ (by rw [UInt64.le_iff_toNat_le]; omega), grown]
          omega
        have rest_eq : (Esnacc.skipNoData (b.buf :: b.prev) n rest).unread =
            (n :: rest).flatMap ExpBuf.unread := by
          rw [same, List.flatMap_cons]
        simp only [if_neg short, if_neg some_got, rewind_of_ready ready', whole]
        rw [linked] at length fits turns
        have next : PeekTurn len origBuf (Esnacc.skipNoData (b.buf :: b.prev) n rest)
            (len - (total + got)) (total + got) := by
          refine ⟨⟨ready'.inside, later'⟩, ?_, ?_, ?_, ?_, ?_⟩
          · rw [remaining]
            exact fit _ wanted (fits.2 (by omega))
          · rw [rest_eq, remaining]
            omega
          · omega
          · have passed : ExpBufRef.restore ⟨b.buf :: b.prev, n, rest⟩ origBuf =
                b.restore origBuf := by
              simp only [restore, backTo, List.length_cons, linked]
              rw [if_neg (by omega)]
            rw [restore_skipNoData (by rw [List.length_cons]; omega), passed, back]
          · have more := skipNoData_behind (b.buf :: b.prev) n rest
            rw [List.length_cons] at more
            omega
        have going : ¬ expBufAtEod (Esnacc.skipNoData (b.buf :: b.prev) n rest).buf = true := by
          intro eod
          have none := ready'.inside.atEod_iff.mp eod
          have gone := congrArg List.length rest_eq
          simp only [ExpBufRef.unread, settled none, List.flatMap_nil, List.append_nil,
            ExpBuf.length_unread, none] at gone
          omega
        rw [ih next going (by rw [List.length_cons] at turns; omega), rest_eq, remaining]
        simp only [Option.bind_some, ExpBufRef.unread, List.take_append, front, linked]
        rw [List.take_of_length_le (l := b.buf.unread) (by omega)]

/--
A peek at a segment is right in the middle of a block where the chain holds all of it, and at the
end of a block where nothing is asked for or a block follows, since the copy fails there as well.
-/
def PeekCopyHolds (b : ExpBufRef) (len : UInt64) : Prop :=
  if expBufAtEod b.buf then len = 0 ∨ b.next ≠ []
  else b.buf.Inside ∧ SegsFit len.toNat (b.buf.left :: b.next.map ExpBuf.left) ∧
    len.toNat ≤ b.unread.length

/-- At the end of a block a peek at a segment fails as the copy does. -/
theorem peekCopy_atEod {b : ExpBufRef} {len : UInt64} (eod : expBufAtEod b.buf = true)
    (small : len.toNat < 2 ^ 31) (holds : len = 0 ∨ b.next ≠ []) : PeekCopyForetells b len := by
  have compared : (0 : Int32) ≥ intOf len ↔ len = 0 := by
    rw [ge_iff_le, Int32.le_iff_toInt_le, toInt_intOf_of_lt small, ← UInt64.toNat_inj,
      UInt64.toNat_zero, Int32.toInt_zero]
    omega
  have zero : intOf (ulongOf 0 + 0) = 0 := by decide
  have copy : expBufCopy b len = some ([], 0, if len = 0 then b else b.setReadError) := by
    rw [expBufCopy, expBufCopyLoop_succ]
    simp only [expBufGetSeg, if_pos eod, copySeg, Option.bind_some, zero, compared,
      beq_self_eq_true, if_true]
    split <;> rfl
  have peek : expBufPeekCopy b len = some ([], 0, if len = 0 then b else b.setReadError) := by
    have none : ((0 : UInt64) ≥ len) ↔ len = 0 := by
      rw [ge_iff_le, UInt64.le_iff_toNat_le, ← UInt64.toNat_inj, UInt64.toNat_zero]
      omega
    have narrow : intOf 0 = 0 := by decide
    simp only [expBufPeekCopy, expBufPeekCopyLoop, expBufPeekSeg, if_pos eod, copySeg,
      Option.bind_eq_bind, Option.bind_some, Option.pure_def, UInt64.add_zero, narrow,
      beq_self_eq_true, if_true, none]
    have stays : b.setReadError.restore b = b.setReadError := restore_self b.setReadError
    cases linked : b.next with
    | nil =>
      have empty : len = 0 := holds.resolve_right fun more => more linked
      simp only [restore_self, if_pos empty]
    | cons n rest =>
      simp only [restore_self, stays]
      split <;> rfl
  constructor
  · simp only [GenBuf.peekCopy, GenBuf.copy, peek, copy]
    rfl
  · intro octets number peeked copied peekIs copyIs
    simp only [GenBuf.peekCopy, GenBuf.copy, peek, copy, Option.map_some, Option.some.injEq,
      Prod.mk.injEq] at peekIs copyIs
    obtain ⟨rfl, rfl, rfl⟩ := peekIs
    obtain ⟨-, rfl⟩ := copyIs
    refine ⟨rfl, rfl, readsAlike ?_⟩
    split
    · exact Alike.rfl
    · exact ⟨Eq.refl _, b.buf.readError, Eq.refl _⟩

/-- When a peek at a segment of a chain foretells the copy. -/
theorem Underway.peekCopy {b : ExpBufRef} {len : UInt64} (underway : b.Underway)
    (noError : b.buf.readError = false) (small : len.toNat < 2 ^ 31)
    (holds : b.PeekCopyHolds len) : PeekCopyForetells b len := by
  by_cases eod : expBufAtEod b.buf = true
  · rw [PeekCopyHolds, if_pos eod] at holds
    exact peekCopy_atEod eod small holds
  · rw [PeekCopyHolds, if_neg eod] at holds
    obtain ⟨inside, fits, enough⟩ := holds
    have readable : b.Readable := ⟨inside, underway.later⟩
    have turn : PeekTurn len b b len 0 :=
      ⟨readable, fits, enough, by simp, restore_self b, Nat.le_refl _⟩
    have peek : expBufPeekCopy b len = some (b.unread.take len.toNat, intOf len, b) :=
      turn.run small eod (Nat.lt_succ_self _)
    obtain ⟨copied, total, copy, passed⟩ := expBufCopy_spec small readable
      (fun _ stalled => eod stalled.1) fits (by simp [noError])
    constructor
    · simp only [GenBuf.peekCopy, GenBuf.copy, peek, copy]
      rfl
    · intro octets number peeked copied' peekIs copyIs
      simp only [GenBuf.peekCopy, GenBuf.copy, peek, copy, Option.map_some, Option.some.injEq,
        Prod.mk.injEq] at peekIs copyIs
      obtain ⟨rfl, rfl, rfl⟩ := peekIs
      obtain ⟨-, rfl⟩ := copyIs
      refine ⟨?_, ?_, readsAlike Alike.rfl⟩
      · rw [toInt_intOf_of_lt small, List.length_take, Nat.min_eq_left enough]
      · change b.buf.readError = copied.buf.readError
        rw [passed.error]
        simp
        omega

end ExpBufRef

theorem reached_underway {start b : ExpBufRef} (reached : Reached start b)
    (ready : start.buf.Ready) (later : ∀ n ∈ start.next, n.Ready) :
    b.Underway ∧ b.buf.readError = false := by
  refine reached.invariant (fun c => c.Underway ∧ c.buf.readError = false)
    (fun c op d out holds stepped clear => ⟨holds.1.readOp stepped, clear⟩)
    ⟨ExpBufRef.underway_of_ready ready later, ready.noError⟩

/--
After any successful reads, a peek at a simple buffer foretells the read, and a peek at a chain
of blocks does so wherever it does not stand at a boundary it would misread.
-/
theorem peeks_foretell_reads (s t : SBuf) (start b : ExpBufRef)
    (orderedSBuf : s.dataStart ≤ s.dataEnd) (reachedSBuf : Reached (sBufResetInReadMode s) t)
    (first : start.prev = []) (ordered : ∀ blk ∈ start.buf :: start.next, blk.dataStart ≤ blk.dataEnd)
    (reached : Reached (expBufListFirstBuf (expBufResetInReadMode start)) b) :
    (PeekByteForetells t ∧ ∀ len : UInt64, len.toNat < 2 ^ 31 → PeekCopyForetells t len) ∧
      (PeekByteForetells b ↔ b.PeekByteHolds) ∧
      ∀ len : UInt64, len.toNat < 2 ^ 31 → b.PeekCopyHolds len → PeekCopyForetells b len := by
  constructor
  · -- No read takes the location of a simple buffer past the end of its data.
    have inside := reachedSBuf.invariant (fun c => c.readLoc ≤ c.dataEnd)
      (fun c op d out holds stepped _ => SBuf.readOp_inside holds stepped) orderedSBuf
    exact ⟨sBufPeekByte_foretells t, fun len small => sBufPeekCopy_foretells inside small⟩
  · -- The blocks behind the one a chain stands on have not been started.
    rw [listFirstBuf_resetInReadMode first] at reached
    obtain ⟨underway, noError⟩ := reached_underway reached
      (ready_resetBlk (ordered _ List.mem_cons_self))
      (ready_map_resetBlk fun blk on => ordered blk (List.mem_cons_of_mem _ on))
    exact ⟨underway.peekByte_iff noError, fun len small holds =>
      underway.peekCopy noError small holds⟩

theorem peeks_foretell_reads_across_blocks :
    PeekByteForetells (sBufInstallData (fun _ => 7) 4096 3) ∧
      PeekCopyForetells
        (expBufGetByte (expBufListFirstBuf (expBufResetInReadMode
          ⟨[], blockOf [1, 2], [blockOf [], blockOf [3]]⟩))).2 2 := by
  have foretell := peeks_foretell_reads (sBufInstallData (fun _ => 7) 4096 3)
    (sBufInstallData (fun _ => 7) 4096 3) ⟨[], blockOf [1, 2], [blockOf [], blockOf [3]]⟩ _
    (by decide) ⟨[], [], rfl⟩ rfl (by decide) ⟨[.call .getByte], _, rfl⟩
  refine ⟨foretell.1.1, foretell.2.2 2 (by decide) ?_⟩
  rw [ExpBufRef.PeekCopyHolds, if_neg (by decide)]
  exact ⟨⟨by decide, by decide⟩, by decide, by decide⟩

/-- After the last octet of a block a peek raises an error that the read does not. -/
theorem peek_fails_at_block_end :
    ¬ ((∀ start b : SBuf, start.dataStart ≤ start.dataEnd →
        Reached (sBufResetInReadMode start) b →
        PeekByteForetells b ∧ ∀ len : UInt64, len.toNat < 2 ^ 31 → PeekCopyForetells b len) ∧
      (∀ start b : ExpBufRef, start.prev = [] →
        (∀ blk ∈ start.buf :: start.next, blk.dataStart ≤ blk.dataEnd) →
        Reached (expBufListFirstBuf (expBufResetInReadMode start)) b →
        PeekByteForetells b ∧ ∀ len : UInt64, len.toNat < 2 ^ 31 → PeekCopyForetells b len)) := by
  rintro ⟨-, foretells⟩
  have error := (foretells ⟨[], blockOf [1], [blockOf [2]]⟩ _ rfl (by decide)
    ⟨[.call .getByte], _, rfl⟩).1.error
  revert error
  decide

end Esnacc
