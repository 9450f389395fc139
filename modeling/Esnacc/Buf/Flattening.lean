import Esnacc.Buf.ExpBufReads

/-! Where mixed reads of a chain agree with the same reads of its flattened octets. -/

namespace Esnacc

open Lib

/-- One flat string of octets being read. -/
structure FlatBuf where
  unread : List UInt8
  readError : Bool

/-- The next octet of a flat string; reading past its end is an error. -/
def FlatBuf.getByte (f : FlatBuf) : UInt8 × FlatBuf :=
  match f.unread with
  | [] => (0, { f with readError := true })
  | x :: rest => (x, { f with unread := rest })

/-- The next `len` octets of a flat string; too few of them is an error. -/
def FlatBuf.copy (f : FlatBuf) (len : Nat) : List UInt8 × FlatBuf :=
  (f.unread.take len,
    { unread := f.unread.drop len, readError := f.readError || decide (f.unread.length < len) })

/-- Pass over the next `len` octets of a flat string, as far as there are any. -/
def FlatBuf.skip (f : FlatBuf) (len : Nat) : FlatBuf :=
  { f with unread := f.unread.drop len }

/-- One read of a sequence of reads. -/
inductive ReadCall where
  | getByte
  | copy (len : UInt64)
  | skip (len : UInt64)

/-- The length a read is given, if it takes one. -/
def ReadCall.len : ReadCall → UInt64
  | getByte => 0
  | copy len => len
  | skip len => len

/-- What a read of a flat string returns, and whether the read error is set after it. -/
def flatRead (f : FlatBuf) : ReadCall → Option (FlatBuf × List UInt8 × Bool)
  | .getByte => some (f.getByte.2, [f.getByte.1], f.getByte.2.readError)
  | .copy len =>
    some ((f.copy len.toNat).2, (f.copy len.toNat).1, (f.copy len.toNat).2.readError)
  | .skip len => some (f.skip len.toNat, [], (f.skip len.toNat).readError)

/-- What a read of a buffer returns, and whether the read error is set after it. -/
def bufRead {β : Type} [GenBuf β] (b : β) : ReadCall → Option (β × List UInt8 × Bool)
  | .getByte =>
    let (byte, b) := GenBuf.getByte b
    some (b, [byte], GenBuf.readError b)
  | .copy len => do
    let (octets, b) ← GenBuf.copy b len
    return (b, octets, GenBuf.readError b)
  | .skip len =>
    let b := GenBuf.skip b len
    some (b, [], GenBuf.readError b)

/-- A chain read up to where a flat string has been read. -/
structure Flattens (b : ExpBufRef) (f : FlatBuf) : Prop where
  readable : b.Readable
  same : f.unread = b.unread
  error : f.readError = b.buf.readError
  drained : f.readError = true → f.unread = []

/--
A read that meets no block boundary it would mistake for the end of data.

An octet may be taken in the middle of a block, from a chain standing on an empty block, or across a
boundary into a block that holds data or is followed by none. A segment must not start at the
end of a block that data follows, and must find every block it enters of a size an `int` holds.
-/
def Unhindered (b : ExpBufRef) : ReadCall → Prop
  | .getByte => b.NextHolds
  | .copy len =>
    (0 < len.toNat → ¬ b.Stalled) ∧ SegsFit len.toNat (b.buf.left :: b.next.map ExpBuf.left)
  | .skip len =>
    0 < len.toNat → ¬ b.Stalled ∧ SegsFit len.toNat (b.buf.left :: b.next.map ExpBuf.left)

/-- One unhindered read of a chain answers as the flat string does. -/
theorem bufRead_flattens {b : ExpBufRef} {f : FlatBuf} {call : ReadCall} (flat : Flattens b f)
    (met : Unhindered b call ∧ call.len.toNat < 2 ^ 31) :
    ∃ b' f' out, bufRead b call = some (b', out) ∧ flatRead f call = some (f', out) ∧
      Flattens b' f' := by
  obtain ⟨readable, same, error, drained⟩ := flat
  have drainedChain : b.buf.readError = true → b.unread = [] := by
    rw [← error, ← same]
    exact drained
  cases call with
  | getByte =>
    cases held : b.unread with
    | nil =>
      obtain ⟨b', read, readable', done, set⟩ :=
        expBufGetByte_nil readable met.1 drainedChain held
      refine ⟨b', { f with readError := true }, ([0], true), ?_, ?_, readable', ?_, set.symm, ?_⟩
      · simp [bufRead, GenBuf.getByte, GenBuf.readError, read, expBufReadError, set]
      · simp [flatRead, FlatBuf.getByte, same, held]
      · rw [done]
        exact same.trans held
      · exact fun _ => same.trans held
    | cons x rest =>
      obtain ⟨b', read, readable', after, clear⟩ :=
        expBufGetByte_cons readable met.1 drainedChain held
      have noError : f.readError = false := by
        by_contra set
        have gone := drained (by simpa using set)
        rw [same, held] at gone
        simp at gone
      refine ⟨b', { f with unread := rest }, ([x], false), ?_, ?_, readable', after.symm, ?_, ?_⟩
      · simp [bufRead, GenBuf.getByte, GenBuf.readError, read, expBufReadError, clear]
      · simp [flatRead, FlatBuf.getByte, same, held, noError]
      · exact noError.trans clear.symm
      · simp [noError]
  | copy len =>
    have small : len.toNat < 2 ^ 31 := met.2
    obtain ⟨b', total, copied, passed⟩ :=
      expBufCopy_spec small readable met.1.1 met.1.2 drainedChain
    refine ⟨b', (f.copy len.toNat).2, (b.unread.take len.toNat, b'.buf.readError), ?_, ?_,
      passed.readable, ?_, ?_, ?_⟩
    · simp [bufRead, GenBuf.copy, GenBuf.readError, copied, expBufReadError]
    · simp [flatRead, FlatBuf.copy, same, error, passed.error]
    · simp [FlatBuf.copy, same, passed.rest]
    · simp [FlatBuf.copy, same, error, passed.error]
    · -- An error means that the request went past the last octet.
      simp only [FlatBuf.copy, Bool.or_eq_true, decide_eq_true_eq, List.drop_eq_nil_iff]
      rintro (set | short)
      · simp [drained set]
      · omega
  | skip len =>
    have turn : SkipTurn b len :=
      ⟨met.2, readable, fun wanted => (met.1 wanted).1, fun wanted => (met.1 wanted).2,
        drainedChain⟩
    have passed := expBufSkip_spec turn
    refine ⟨expBufSkip b len, f.skip len.toNat, ([], b.buf.readError), ?_, ?_, passed.readable,
      ?_, ?_, ?_⟩
    · simp [bufRead, GenBuf.skip, GenBuf.readError, expBufReadError, passed.error]
    · simp [flatRead, FlatBuf.skip, error]
    · simp [FlatBuf.skip, same, passed.rest]
    · simp [FlatBuf.skip, error, passed.error]
    · intro set
      simp [FlatBuf.skip, drained set]

/-- The octets of a block's data area that hold data. -/
def ExpBuf.data (b : ExpBuf) : List UInt8 :=
  slice b.mem b.dataStart (b.dataEnd.toNat - b.dataStart.toNat)

theorem listFirstBuf_resetInReadModeFrom (prev : List ExpBuf) (p : ExpBuf) (next : List ExpBuf) :
    expBufListFirstBuf (expBufResetInReadModeFrom prev p next) =
      expBufListFirstBufFrom prev (expBufResetBlk p) (next.map expBufResetBlk) := by
  induction next generalizing prev p with
  | nil => rfl
  | cons n rest ih => exact ih (expBufResetBlk p :: prev) n

theorem ready_resetBlk {b : ExpBuf} (ordered : b.dataStart ≤ b.dataEnd) :
    (expBufResetBlk b).Ready :=
  ⟨rfl, ordered, rfl⟩

theorem listFirstBuf_resetInReadMode {b : ExpBufRef} (first : b.prev = []) :
    expBufListFirstBuf (expBufResetInReadMode b) =
      ⟨[], expBufResetBlk b.buf, b.next.map expBufResetBlk⟩ := by
  rw [expBufResetInReadMode, listFirstBuf_resetInReadModeFrom, first]
  rfl

theorem ready_map_resetBlk {blks : List ExpBuf} (ordered : ∀ blk ∈ blks, blk.dataStart ≤ blk.dataEnd) :
    ∀ n ∈ blks.map expBufResetBlk, n.Ready := by
  intro n linked
  obtain ⟨m, on, rfl⟩ := List.mem_map.mp linked
  exact ready_resetBlk (ordered m on)

theorem flattens_resetInReadMode {b : ExpBufRef} (first : b.prev = [])
    (ordered : ∀ blk ∈ b.buf :: b.next, blk.dataStart ≤ blk.dataEnd) :
    Flattens (expBufListFirstBuf (expBufResetInReadMode b))
      ⟨(b.buf :: b.next).flatMap ExpBuf.data, false⟩ := by
  rw [listFirstBuf_resetInReadMode first]
  refine ⟨⟨(ready_resetBlk (ordered _ List.mem_cons_self)).inside,
    ready_map_resetBlk fun blk on => ordered blk (List.mem_cons_of_mem _ on)⟩, ?_, rfl, by simp⟩
  simp only [ExpBufRef.unread, List.flatMap_cons, List.flatMap_map]
  rfl

/--
Reads that each meet no block boundary they would mistake return, over a whole run, exactly what
the same reads of the concatenated data return.
-/
theorem chain_reads_flat (b : ExpBufRef) (calls : List ReadCall) (first : b.prev = [])
    (ordered : ∀ blk ∈ b.buf :: b.next, blk.dataStart ≤ blk.dataEnd)
    (short : ∀ call ∈ calls, call.len.toNat < 2 ^ 31)
    (along : Along bufRead Unhindered (expBufListFirstBuf (expBufResetInReadMode b)) calls) :
    ∃ b' f' outs,
      run bufRead (expBufListFirstBuf (expBufResetInReadMode b)) calls = some (b', outs) ∧
      run flatRead ⟨(b.buf :: b.next).flatMap ExpBuf.data, false⟩ calls = some (f', outs) := by
  -- The flattening relation holds at the start and every unhindered read preserves it.
  have simulates : ∀ (b : ExpBufRef) (f : FlatBuf) (call : ReadCall), Flattens b f →
      Unhindered b call ∧ call.len.toNat < 2 ^ 31 → ∃ b' f' out,
        bufRead b call = some (b', out) ∧ flatRead f call = some (f', out) ∧ Flattens b' f' :=
    fun _ _ _ => bufRead_flattens
  obtain ⟨b', f', outs, ran, ranFlat, -⟩ :=
    run_simulates simulates (flattens_resetInReadMode first ordered) (along.and_forall short)
  exact ⟨b', f', outs, ran, ranFlat⟩

/-- A block of octets written out one by one, at the lowest addresses. -/
def blockOf (octets : List UInt8) : ExpBuf :=
  { mem := store (fun _ => 0) 0 octets, dataStart := 0, dataEnd := UInt64.ofNat octets.length
    curr := 0, blkStart := 0, blkEnd := UInt64.ofNat octets.length, readError := false
    writeError := false }

theorem chain_reads_flat_across_blocks :
    ∃ b' f' outs,
      run bufRead (expBufListFirstBuf (expBufResetInReadMode
        ⟨[], blockOf [1, 2], [blockOf [], blockOf [3]]⟩)) [.getByte, .copy 2] = some (b', outs) ∧
      run flatRead ⟨[blockOf [1, 2], blockOf [], blockOf [3]].flatMap ExpBuf.data, false⟩
        [.getByte, .copy 2] = some (f', outs) := by
  refine chain_reads_flat ⟨[], blockOf [1, 2], [blockOf [], blockOf [3]]⟩ [.getByte, .copy 2] rfl
    (by decide) (by decide) ⟨Or.inr (Or.inl (by decide)), ?_⟩
  intro b out read
  -- One octet of the first block is left, so the copy enters the last block.
  cases read
  exact ⟨⟨fun _ stalled => absurd stalled.1 (by decide), by decide⟩, fun _ _ _ => trivial⟩

/-- A copy that starts where a single-octet read finished a block reports the end of data. -/
theorem chain_reads_differ_at_block_end :
    ¬ ∀ (b : ExpBufRef) (calls : List ReadCall), b.prev = [] →
      (∀ blk ∈ b.buf :: b.next, blk.dataStart ≤ blk.dataEnd) →
      (∀ call ∈ calls, call.len.toNat < 2 ^ 31) →
      (run bufRead (expBufListFirstBuf (expBufResetInReadMode b)) calls).map Prod.snd =
        (run flatRead ⟨(b.buf :: b.next).flatMap ExpBuf.data, false⟩ calls).map Prod.snd := by
  intro alike
  have differ := alike ⟨[], blockOf [1], [blockOf [2]]⟩ [.getByte, .copy 1] rfl (by decide)
    (by decide)
  revert differ
  decide

end Esnacc
