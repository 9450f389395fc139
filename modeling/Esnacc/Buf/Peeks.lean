import Esnacc.Buf.Flattening

/-! What a peek returns, compared with the read that follows it. -/

namespace Esnacc

open Lib

/-- A read that a history may contain, or that may follow a peek. -/
inductive ReadOp where
  | call (call : ReadCall)
  | getSeg (len : UInt64)

/-- What a read hands out: octets, or a segment with its length. -/
inductive ReadOut where
  | octets (octets : List UInt8)
  | seg (ptr : Option Ptr) (len : UInt64)

variable {β : Type} [GenBuf β]

/-- One read and what it hands out. -/
def readOp (b : β) : ReadOp → Option (β × ReadOut)
  | .call call => (bufRead b call).map fun (b, octets, _) => (b, .octets octets)
  | .getSeg len =>
    let (ptr, len, b) := GenBuf.getSeg b len
    some (b, .seg ptr len)

/-- One read that leaves the read error clear. -/
def successfulOp (b : β) (op : ReadOp) : Option (β × ReadOut) :=
  (readOp b op).filter fun r => !GenBuf.readError r.1

/-- A state that successful reads lead to. -/
def Reached (start b : β) : Prop :=
  ∃ ops outs, run successfulOp start ops = some (b, outs)

/-- Every sequence of reads hands out the same from both states. -/
def ReadsAlike (b b' : β) : Prop :=
  ∀ ops, (run readOp b ops).map Prod.snd = (run readOp b' ops).map Prod.snd

/-- Peeking at one octet tells what reading it would return. -/
structure PeekByteForetells (b : β) : Prop where
  octet : (GenBuf.peekByte b).1 = (GenBuf.getByte b).1
  error : GenBuf.readError (GenBuf.peekByte b).2 = GenBuf.readError (GenBuf.getByte b).2
  later : ReadsAlike (GenBuf.peekByte b).2 b

/-- Peeking at `len` octets tells what copying them would return. -/
structure PeekCopyForetells (b : β) (len : UInt64) : Prop where
  octets : (GenBuf.peekCopy b len).map Prod.fst = (GenBuf.copy b len).map Prod.fst
  rest : ∀ octets number peeked copied, GenBuf.peekCopy b len = some (octets, number, peeked) →
    GenBuf.copy b len = some (octets, copied) →
    number.toInt = octets.length ∧ GenBuf.readError peeked = GenBuf.readError copied ∧
      ReadsAlike peeked b

theorem readsAlike_of_sim {rel : β → β → Prop}
    (alike : ∀ b b' op, rel b b' → SameAnswer rel (readOp b op) (readOp b' op))
    {b b' : β} (related : rel b b') : ReadsAlike b b' :=
  fun ops => run_outputs_eq alike related ops

theorem Reached.invariant (inv : β → Prop)
    (kept : ∀ b op c out, inv b → readOp b op = some (c, out) →
      GenBuf.readError c = false → inv c)
    {start b : β} (reached : Reached start b) (first : inv start) : inv b := by
  obtain ⟨ops, outs, ran⟩ := reached
  refine run_invariant (fun s op c out holds stepped => ?_) first ran
  simp only [successfulOp, Option.filter_eq_some_iff, Bool.not_eq_true'] at stepped
  exact kept s op c out holds stepped.1 stepped.2

/-! ## The simple buffer -/

/-- Two simple buffers that differ at most in their read errors. -/
def SBuf.Alike (b b' : SBuf) : Prop :=
  ∃ flag, b' = { b with readError := flag }

theorem SBuf.Alike.readOp {b b' : SBuf} (alike : b.Alike b') (op : ReadOp) :
    SameAnswer SBuf.Alike (Esnacc.readOp b op) (Esnacc.readOp b' op) := by
  -- No routine looks at the error flag, so both states take the same branch everywhere.
  obtain ⟨flag, rfl⟩ := alike
  cases op with
  | getSeg len =>
    simp only [Esnacc.readOp, GenBuf.getSeg, sBufGetSeg]
    split <;> exact ⟨⟨flag, rfl⟩, rfl⟩
  | call call =>
    cases call with
    | getByte =>
      simp only [Esnacc.readOp, bufRead, GenBuf.getByte, sBufGetByte, sBufEod,
        decide_eq_true_eq]
      split <;> exact ⟨⟨_, rfl⟩, rfl⟩
    | copy len =>
      simp only [Esnacc.readOp, bufRead, GenBuf.copy, sBufCopy]
      split
      · cases memcpy b.mem b.readLoc (b.dataEnd - b.readLoc) with
        | none => trivial
        | some octets => exact ⟨⟨true, rfl⟩, rfl⟩
      · cases memcpy b.mem b.readLoc len.toInt64.toUInt64 with
        | none => trivial
        | some octets => exact ⟨⟨flag, rfl⟩, rfl⟩
    | skip len =>
      simp only [Esnacc.readOp, bufRead, GenBuf.skip, sBufSkip]
      split <;> exact ⟨⟨_, rfl⟩, rfl⟩

theorem SBuf.readsAlike {b b' : SBuf} (alike : b'.Alike b) : ReadsAlike b' b :=
  readsAlike_of_sim (fun _ _ op related => SBuf.Alike.readOp related op) alike

/-- Every read keeps the read location from passing the end of the data. -/
theorem SBuf.readOp_inside {b c : SBuf} {op : ReadOp} {out : ReadOut}
    (inside : b.readLoc ≤ b.dataEnd) (stepped : readOp b op = some (c, out)) :
    c.readLoc ≤ c.dataEnd := by
  have within : ∀ len : UInt64, ¬ b.readLoc + len > b.dataEnd → b.readLoc + len ≤ b.dataEnd :=
    fun len notPast => UInt64.not_lt.mp notPast
  cases op with
  | getSeg len =>
    simp only [readOp, GenBuf.getSeg, sBufGetSeg] at stepped
    split at stepped
    · cases stepped
      exact UInt64.le_refl _
    · cases stepped
      exact within _ (by assumption)
  | call call =>
    cases call with
    | getByte =>
      simp only [readOp, bufRead, GenBuf.getByte, sBufGetByte, sBufEod, decide_eq_true_eq]
        at stepped
      split at stepped
      · cases stepped
        exact inside
      · rename_i left
        cases stepped
        rw [ge_iff_le, UInt64.not_le, UInt64.lt_iff_toNat_lt] at left
        have bound := UInt64.toNat_lt b.dataEnd
        simp only [UInt64.le_iff_toNat_le, UInt64.toNat_add, UInt64.toNat_one]
        omega
    | copy len =>
      simp only [readOp, bufRead, GenBuf.copy, sBufCopy] at stepped
      split at stepped
      · cases copied : memcpy b.mem b.readLoc (b.dataEnd - b.readLoc) with
        | none =>
          rw [copied] at stepped
          contradiction
        | some octets =>
          rw [copied] at stepped
          cases stepped
          exact UInt64.le_refl _
      · cases copied : memcpy b.mem b.readLoc len.toInt64.toUInt64 with
        | none =>
          rw [copied] at stepped
          contradiction
        | some octets =>
          rw [copied] at stepped
          cases stepped
          exact within _ (by assumption)
    | skip len =>
      simp only [readOp, bufRead, GenBuf.skip, sBufSkip] at stepped
      split at stepped
      · cases stepped
        exact UInt64.le_refl _
      · cases stepped
        exact within _ (by assumption)

theorem sBufPeekByte_foretells (b : SBuf) : PeekByteForetells b := by
  constructor
  · simp only [GenBuf.peekByte, GenBuf.getByte, sBufPeekByte, sBufGetByte]
    split <;> rfl
  · simp only [GenBuf.peekByte, GenBuf.getByte, sBufPeekByte, sBufGetByte]
    split <;> rfl
  · apply SBuf.readsAlike
    simp only [GenBuf.peekByte, sBufPeekByte]
    split <;> exact ⟨b.readError, rfl⟩

/-- A peek at a segment of a simple buffer foretells the copy. -/
theorem sBufPeekCopy_foretells {b : SBuf} {len : UInt64} (inside : b.readLoc ≤ b.dataEnd)
    (small : len.toNat < 2 ^ 31) : PeekCopyForetells b len := by
  rw [UInt64.le_iff_toNat_le] at inside
  have bound := UInt64.toNat_lt b.dataEnd
  constructor
  · simp only [GenBuf.peekCopy, GenBuf.copy, sBufPeekCopy, sBufCopy, UInt64.toUInt64_toInt64]
    split
    · cases memcpy b.mem b.readLoc (b.dataEnd - b.readLoc) <;> rfl
    · cases memcpy b.mem b.readLoc len <;> rfl
  · intro octets number peeked copied peek copy
    simp only [GenBuf.peekCopy, GenBuf.copy, sBufPeekCopy, sBufCopy, UInt64.toUInt64_toInt64]
      at peek copy
    split at peek
    · -- Fewer octets are left than wanted, so their number is small as well.
      rename_i past
      rw [if_pos past] at copy
      have size : (b.dataEnd - b.readLoc).toNat = b.dataEnd.toNat - b.readLoc.toNat :=
        UInt64.toNat_sub_of_le _ _ (by rwa [UInt64.le_iff_toNat_le])
      rw [gt_iff_lt, UInt64.lt_iff_toNat_lt, UInt64.toNat_add] at past
      rw [memcpy, if_pos (by omega)] at peek copy
      cases peek
      cases copy
      refine ⟨?_, rfl, SBuf.readsAlike ⟨b.readError, rfl⟩⟩
      rw [length_slice, toInt_intOf_of_lt (by omega)]
    · rename_i notPast
      rw [if_neg notPast] at copy
      cases delivered : memcpy b.mem b.readLoc len with
      | none => simp [delivered] at peek
      | some read =>
        rw [delivered] at peek copy
        cases peek
        cases copy
        have count : octets.length = len.toNat := by
          simp only [memcpy] at delivered
          split at delivered
          · cases delivered
            exact length_slice ..
          · contradiction
        refine ⟨?_, rfl, SBuf.readsAlike ⟨b.readError, rfl⟩⟩
        rw [count, toInt_intOf_of_lt small]

/-! ## A chain of blocks -/

namespace ExpBufRef

/-- Two handles with the same blocks ahead that differ at most in the current read error. -/
def Alike (b b' : ExpBufRef) : Prop :=
  b'.next = b.next ∧ ∃ flag, b'.buf = { b.buf with readError := flag }

theorem Alike.rfl {b : ExpBufRef} : b.Alike b :=
  ⟨Eq.refl _, b.buf.readError, Eq.refl _⟩

theorem atEod_readError (b : ExpBuf) (flag : Bool) :
    expBufAtEod { b with readError := flag } = expBufAtEod b := Eq.refl _

theorem hasNoData_readError (b : ExpBuf) (flag : Bool) :
    expBufHasNoData { b with readError := flag } = expBufHasNoData b := Eq.refl _

theorem skipNoData_prev (prev prev' : List ExpBuf) (b : ExpBuf) (next : List ExpBuf) :
    (skipNoData prev' b next).buf = (skipNoData prev b next).buf ∧
      (skipNoData prev' b next).next = (skipNoData prev b next).next := by
  induction next generalizing prev prev' b with
  | nil => exact ⟨Eq.refl _, Eq.refl _⟩
  | cons n rest ih =>
    simp only [skipNoData]
    split
    · exact ih (b :: prev) (b :: prev') n
    · exact ⟨Eq.refl _, Eq.refl _⟩

theorem Alike.rewind {b b' : ExpBufRef} (buf : b'.buf = b.buf) (next : b'.next = b.next) :
    b.rewind.Alike b'.rewind :=
  ⟨next, b.buf.readError, by simp only [ExpBufRef.rewind, buf]⟩

/-- Taking a segment does not depend on the error flag. -/
theorem Alike.getSeg {b b' : ExpBufRef} (alike : b.Alike b') (len : UInt64) :
    (expBufGetSeg b' len).1 = (expBufGetSeg b len).1 ∧
      (expBufGetSeg b' len).2.1 = (expBufGetSeg b len).2.1 ∧
      (expBufGetSeg b len).2.2.Alike (expBufGetSeg b' len).2.2 := by
  obtain ⟨prev, buf, next⟩ := b
  obtain ⟨prev', buf', next'⟩ := b'
  obtain ⟨same, flag, flagged⟩ := alike
  simp only at same flagged
  subst same flagged
  simp only [expBufGetSeg, expBufAtEod]
  split
  · exact ⟨Eq.refl _, Eq.refl _, Eq.refl _, flag, Eq.refl _⟩
  · split
    · cases next' with
      | nil => exact ⟨Eq.refl _, Eq.refl _, Eq.refl _, flag, Eq.refl _⟩
      | cons n rest =>
        have moved := skipNoData_prev (buf :: prev) ({ buf with readError := flag } :: prev') n rest
        exact ⟨Eq.refl _, Eq.refl _, Alike.rewind moved.1 moved.2⟩
    · exact ⟨Eq.refl _, Eq.refl _, Eq.refl _, flag, Eq.refl _⟩

theorem Alike.setReadError {b b' : ExpBufRef} (alike : b.Alike b') :
    b.setReadError.Alike b'.setReadError := by
  obtain ⟨same, flag, flagged⟩ := alike
  exact ⟨same, true, by simp only [ExpBufRef.setReadError, flagged]⟩

theorem Alike.copyLoop {b b' : ExpBufRef} (alike : b.Alike b') (len : UInt64) (fuel : Nat)
    (gotLen : UInt64) (total : Int32) :
    (expBufCopyLoop len fuel b gotLen total = none ∧
        expBufCopyLoop len fuel b' gotLen total = none) ∨
      ∃ octets total' c c', expBufCopyLoop len fuel b gotLen total = some (octets, total', c) ∧
        expBufCopyLoop len fuel b' gotLen total = some (octets, total', c') ∧ c.Alike c' := by
  -- Each turn takes the same segment on both sides and ends or goes on alike.
  induction fuel generalizing b b' gotLen total with
  | zero => exact Or.inl ⟨Eq.refl _, Eq.refl _⟩
  | succ fuel ih =>
    obtain ⟨ptr, size, moved⟩ := alike.getSeg gotLen
    simp only [expBufCopyLoop, ptr, size]
    generalize (expBufGetSeg b gotLen).2.1 = got
    generalize (expBufGetSeg b gotLen).1 = srcPtr
    generalize (expBufGetSeg b gotLen).2.2 = c at moved
    generalize (expBufGetSeg b' gotLen).2.2 = c' at moved
    cases copySeg srcPtr got with
    | none => exact Or.inl ⟨Eq.refl _, Eq.refl _⟩
    | some octets =>
      simp only [Option.bind_eq_bind, Option.bind_some, Option.pure_def]
      split
      · exact Or.inr ⟨octets, _, c, c', Eq.refl _, Eq.refl _, moved⟩
      · split
        · exact Or.inr ⟨octets, _, _, _, Eq.refl _, Eq.refl _, moved.setReadError⟩
        · rcases ih moved (len - ulongOf (intOf (ulongOf total + got)))
            (intOf (ulongOf total + got)) with ⟨left, right⟩ | ⟨more, total', d, d', left, right, rest⟩
          · exact Or.inl ⟨by rw [left]; rfl, by rw [right]; rfl⟩
          · exact Or.inr ⟨octets ++ more, total', d, d', by rw [left]; rfl, by rw [right]; rfl, rest⟩

theorem Alike.skipLoop {b b' : ExpBufRef} (alike : b.Alike b') (fuel : Nat) (len : UInt64) :
    (expBufSkipLoop fuel b len).Alike (expBufSkipLoop fuel b' len) := by
  induction fuel generalizing b b' len with
  | zero => exact alike
  | succ fuel ih =>
    obtain ⟨ptr, size, moved⟩ := alike.getSeg len
    simp only [expBufSkipLoop]
    split
    · exact alike
    · rcases seg : expBufGetSeg b len with ⟨p, got, c⟩
      rcases seg' : expBufGetSeg b' len with ⟨p', got', c'⟩
      rw [seg, seg'] at ptr size moved
      simp only at ptr size moved
      subst ptr size
      cases p' with
      | none => exact moved
      | some p =>
        simp only
        split
        · exact moved.setReadError
        · exact ih moved (len - got')

theorem Alike.skipNoData {b b' : ExpBufRef} (alike : b.Alike b') :
    (Esnacc.skipNoData b.prev b.buf b.next).Alike (Esnacc.skipNoData b'.prev b'.buf b'.next) := by
  obtain ⟨same, flag, flagged⟩ := alike
  rw [same, flagged]
  cases b.next with
  | nil => exact ⟨Eq.refl _, flag, Eq.refl _⟩
  | cons n rest =>
    by_cases noData : expBufHasNoData b.buf = true
    · -- An empty block is left behind, with the flag on it.
      have moved := skipNoData_prev (b.buf :: b.prev) ({ b.buf with readError := flag } :: b'.prev)
        n rest
      simp only [Esnacc.skipNoData, hasNoData_readError, if_pos noData]
      exact ⟨moved.2, _, by rw [moved.1]⟩
    · simp only [Esnacc.skipNoData, hasNoData_readError, if_neg noData]
      exact ⟨Eq.refl _, flag, Eq.refl _⟩

theorem Alike.stepToNext {b b' : ExpBufRef} (alike : b.Alike b') :
    (Esnacc.stepToNext b).Alike (Esnacc.stepToNext b') := by
  obtain ⟨prev, buf, next⟩ := b
  obtain ⟨prev', buf', next'⟩ := b'
  obtain ⟨same, flag, flagged⟩ := alike
  simp only at same flagged
  subst same flagged
  by_cases eod : expBufAtEod buf = true
  · simp only [Esnacc.stepToNext, atEod_readError, if_pos eod]
    cases next' with
    | nil => exact ⟨Eq.refl _, flag, Eq.refl _⟩
    | cons n rest => exact Alike.rewind (Eq.refl _) (Eq.refl _)
  · simp only [Esnacc.stepToNext, atEod_readError, if_neg eod]
    exact ⟨Eq.refl _, flag, Eq.refl _⟩

theorem Alike.getByte {b b' : ExpBufRef} (alike : b.Alike b') :
    (expBufGetByte b').1 = (expBufGetByte b).1 ∧ (expBufGetByte b).2.Alike (expBufGetByte b').2 := by
  have moved : (getByteBlock b).Alike (getByteBlock b') := alike.skipNoData.stepToNext
  simp only [expBufGetByte]
  generalize getByteBlock b = c at moved
  generalize getByteBlock b' = c' at moved
  obtain ⟨same, flag, flagged⟩ := moved
  have eod : expBufAtEod c'.buf = expBufAtEod c.buf := by rw [flagged]; rfl
  rw [eod]
  split
  · exact ⟨Eq.refl _, same, true, by simp only [ExpBufRef.setReadError, flagged]⟩
  · exact ⟨by rw [flagged], same, flag, by simp only [ExpBufRef.advance, flagged]⟩

/-- Two handles that are alike answer every read alike. -/
theorem Alike.readOp {b b' : ExpBufRef} (alike : b.Alike b') (op : ReadOp) :
    SameAnswer Alike (Esnacc.readOp b op) (Esnacc.readOp b' op) := by
  cases op with
  | getSeg len =>
    obtain ⟨ptr, size, moved⟩ := alike.getSeg len
    refine ⟨moved, ?_⟩
    change ReadOut.seg (expBufGetSeg b len).1 (expBufGetSeg b len).2.1 =
      ReadOut.seg (expBufGetSeg b' len).1 (expBufGetSeg b' len).2.1
    rw [ptr, size]
  | call call =>
    cases call with
    | getByte =>
      obtain ⟨octet, moved⟩ := alike.getByte
      refine ⟨moved, ?_⟩
      change ReadOut.octets [(expBufGetByte b).1] = ReadOut.octets [(expBufGetByte b').1]
      rw [octet]
    | copy len =>
      have same : b'.next.length = b.next.length := by rw [alike.1]
      simp only [Esnacc.readOp, bufRead, GenBuf.copy, expBufCopy, same]
      rcases alike.copyLoop len (b.next.length + 3) len 0 with
        ⟨left, right⟩ | ⟨octets, total, c, c', left, right, moved⟩
      · rw [left, right]
        trivial
      · rw [left, right]
        exact ⟨moved, Eq.refl _⟩
    | skip len =>
      have same : b'.next.length = b.next.length := by rw [alike.1]
      simp only [Esnacc.readOp, bufRead, GenBuf.skip, expBufSkip, same]
      exact ⟨alike.skipLoop _ len, Eq.refl _⟩

theorem readsAlike {b b' : ExpBufRef} (alike : b'.Alike b) : ReadsAlike b' b :=
  readsAlike_of_sim (fun _ _ op related => Alike.readOp related op) alike

end ExpBufRef

end Esnacc
