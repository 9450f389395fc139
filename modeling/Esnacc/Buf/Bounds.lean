import Esnacc.Buf.ExpBufReads

/-! Which lengths from the wire keep a read inside the data of its buffer. -/

namespace Esnacc

open Lib

section

variable {β : Type} [GenBuf β] (kept : β → β → Prop) (unread : Nat) (b : β) (len : UInt64)

/-- Taking a segment keeps the cursor and reports no more octets than there are. -/
def GetSegKeeps : Prop :=
  kept b (GenBuf.getSeg b len).2.2 ∧ (GenBuf.getSeg b len).2.1.toNat ≤ unread

/-- Copying completes, keeps the cursor and delivers no more octets than there are. -/
def CopyKeeps : Prop :=
  ∃ octets b', GenBuf.copy b len = some (octets, b') ∧ kept b b' ∧ octets.length ≤ unread

/-- Skipping keeps the cursor. -/
def SkipKeeps : Prop :=
  kept b (GenBuf.skip b len)

end

/-! ## The simple buffer -/

namespace SBuf

/-- The read location lies within the data. -/
structure Inside (b : SBuf) : Prop where
  notBefore : b.dataStart ≤ b.readLoc
  notAfter : b.readLoc ≤ b.dataEnd

/-- The same data with the read location inside of it and not moved backwards. -/
structure Kept (b b' : SBuf) : Prop where
  dataStart : b'.dataStart = b.dataStart
  dataEnd : b'.dataEnd = b.dataEnd
  inside : b'.Inside
  forwards : b.readLoc ≤ b'.readLoc

variable {b : SBuf} {len : UInt64}

theorem Inside.kept_end (inside : b.Inside) (error : Bool) :
    b.Kept { b with readLoc := b.dataEnd, readError := error } :=
  ⟨rfl, rfl, ⟨UInt64.le_trans inside.1 inside.2, UInt64.le_refl _⟩, inside.2⟩

/-- A read that stays in front of the end moves forwards unless the sum of addresses wraps. -/
theorem Inside.kept_iff (inside : b.Inside) (within : ¬ b.readLoc + len > b.dataEnd) :
    b.Kept { b with readLoc := b.readLoc + len } ↔ b.readLoc.toNat + len.toNat < 2 ^ 64 := by
  obtain ⟨low, high⟩ := inside
  have bound := UInt64.toNat_lt len
  have startBound := UInt64.toNat_lt b.readLoc
  rw [gt_iff_lt, UInt64.not_lt] at within
  rw [UInt64.le_iff_toNat_le] at low
  constructor
  · rintro ⟨-, -, -, forwards⟩
    simp only [UInt64.le_iff_toNat_le, UInt64.toNat_add] at forwards
    omega
  · intro room
    have sum : (b.readLoc + len).toNat = b.readLoc.toNat + len.toNat := by
      rw [UInt64.toNat_add]
      omega
    refine ⟨rfl, rfl, ⟨?_, within⟩, ?_⟩ <;> simp only [UInt64.le_iff_toNat_le, sum] <;> omega

theorem Inside.past_or_room (inside : b.Inside) (past : b.readLoc + len > b.dataEnd) :
    b.readLoc.toNat + len.toNat < 2 ^ 64 := by
  obtain ⟨-, high⟩ := inside
  have bound := UInt64.toNat_lt len
  have startBound := UInt64.toNat_lt b.readLoc
  rw [gt_iff_lt, UInt64.lt_iff_toNat_lt, UInt64.toNat_add] at past
  rw [UInt64.le_iff_toNat_le] at high
  omega

/-- When taking a segment of a simple buffer stays inside its data. -/
theorem getSegKeeps_iff (inside : b.Inside) :
    GetSegKeeps Kept (b.dataEnd.toNat - b.readLoc.toNat) b len ↔
      b.readLoc.toNat + len.toNat < 2 ^ 64 := by
  have size : (b.dataEnd - b.readLoc).toNat = b.dataEnd.toNat - b.readLoc.toNat :=
    UInt64.toNat_sub_of_le _ _ inside.2
  simp only [GetSegKeeps, GenBuf.getSeg, sBufGetSeg, UInt64.toUInt64_toInt64]
  by_cases past : b.readLoc + len > b.dataEnd
  · rw [if_pos past]
    refine ⟨fun _ => inside.past_or_room past, fun _ => ⟨inside.kept_end b.readError, ?_⟩⟩
    simp only [UInt64.toUInt64_toInt64, size]
    exact Nat.le_refl _
  · rw [if_neg past]
    refine ⟨fun keeps => (inside.kept_iff past).mp keeps.1, fun room =>
      ⟨(inside.kept_iff past).mpr room, ?_⟩⟩
    rw [gt_iff_lt, UInt64.not_lt, UInt64.le_iff_toNat_le, UInt64.toNat_add] at past
    simp only [UInt64.toUInt64_toInt64]
    omega

/-- When copying from a simple buffer stays inside its data. -/
theorem copyKeeps_iff (inside : b.Inside) :
    CopyKeeps Kept (b.dataEnd.toNat - b.readLoc.toNat) b len ↔
      b.readLoc.toNat + len.toNat < 2 ^ 64 := by
  have size : (b.dataEnd - b.readLoc).toNat = b.dataEnd.toNat - b.readLoc.toNat :=
    UInt64.toNat_sub_of_le _ _ inside.2
  have bound := UInt64.toNat_lt b.dataEnd
  have high := inside.2
  rw [UInt64.le_iff_toNat_le] at high
  simp only [CopyKeeps, GenBuf.copy, sBufCopy, UInt64.toUInt64_toInt64]
  by_cases past : b.readLoc + len > b.dataEnd
  · rw [if_pos past, memcpy, if_pos (by omega)]
    refine ⟨fun _ => inside.past_or_room past, fun _ => ⟨_, _, rfl, inside.kept_end true, ?_⟩⟩
    rw [length_slice]
    omega
  · rw [if_neg past, memcpy]
    by_cases room : b.readLoc.toNat + len.toNat < 2 ^ 64
    · rw [if_pos room]
      refine ⟨fun _ => room, fun _ => ⟨_, _, rfl, (inside.kept_iff past).mpr room, ?_⟩⟩
      rw [gt_iff_lt, UInt64.not_lt, UInt64.le_iff_toNat_le, UInt64.toNat_add] at past
      rw [length_slice]
      omega
    · rw [if_neg room]
      refine ⟨?_, fun wraps => absurd wraps room⟩
      rintro ⟨octets, b', copied, -⟩
      contradiction

theorem skipKeeps_iff (inside : b.Inside) :
    SkipKeeps Kept b len ↔ b.readLoc.toNat + len.toNat < 2 ^ 64 := by
  simp only [SkipKeeps, GenBuf.skip, sBufSkip, UInt64.toUInt64_toInt64]
  by_cases past : b.readLoc + len > b.dataEnd
  · rw [if_pos past]
    exact ⟨fun _ => inside.past_or_room past, fun _ => inside.kept_end true⟩
  · rw [if_neg past]
    exact inside.kept_iff past

end SBuf

/-! ## A block of a chain -/

namespace ExpBufRef

/-- The cursor lies within the data of its block and has not moved backwards. -/
structure Kept (b b' : ExpBufRef) : Prop where
  inside : b'.buf.Inside
  forwards : b.Forwards b'

/-- How many octets a segment of a block with `left` octets left covers, as the `int`s compare. -/
@[grind =] def segLen (left len : UInt64) : UInt64 :=
  if intOf left ≤ intOf len then ulongOf (intOf left) else len

/-- A segment of a block with `left` octets left does not overrun it. -/
@[grind =] def SegStays (left len : UInt64) : Prop :=
  segLen left len ≤ left

instance (left len : UInt64) : Decidable (SegStays left len) :=
  inferInstanceAs (Decidable (segLen left len ≤ left))

variable {b : ExpBufRef} {len : UInt64}

/-- The cursor moved inside a block keeps to it exactly when the block has that many octets left. -/
theorem kept_advance_iff (inside : b.buf.Inside) :
    b.Kept (b.advance len) ↔ len.toNat ≤ b.buf.left := by
  have bound := UInt64.toNat_lt b.buf.dataEnd
  have lenBound := UInt64.toNat_lt len
  obtain ⟨low, high⟩ := inside
  rw [UInt64.le_iff_toNat_le] at low high
  constructor
  · rintro ⟨⟨-, high'⟩, later | ⟨-, -, -, forwards⟩⟩
    · simp [advance] at later
    · simp only [advance, UInt64.le_iff_toNat_le, UInt64.toNat_add] at high' forwards
      simp only [ExpBuf.left]
      omega
  · intro within
    simp only [ExpBuf.left] at within
    have sum : (b.buf.curr + len).toNat = b.buf.curr.toNat + len.toNat := by
      rw [UInt64.toNat_add]
      omega
    refine ⟨⟨?_, ?_⟩, Or.inr ⟨rfl, rfl, rfl, ?_⟩⟩ <;>
      simp only [advance, UInt64.le_iff_toNat_le, sum] <;> omega

theorem kept_skipNoData {n : ExpBuf} {rest : List ExpBuf} (linked : b.next = n :: rest)
    (later : ∀ m ∈ b.next, m.Ready) :
    (skipNoData (b.buf :: b.prev) n rest).rewind = skipNoData (b.buf :: b.prev) n rest ∧
      b.Kept (skipNoData (b.buf :: b.prev) n rest) := by
  have ready := later n (by simp [linked])
  have others : ∀ m ∈ rest, m.Ready := fun m on => later m (by simp [linked, on])
  obtain ⟨ready', -, -, -, shorter, -⟩ := skipNoData_spec (b.buf :: b.prev) ready others
  refine ⟨rewind_of_ready ready', ready'.inside, Or.inl ?_⟩
  rw [linked, List.length_cons]
  omega

/-- When taking a segment of a block stays inside its data. -/
theorem getSegKeeps_iff (inside : b.buf.Inside) (later : ∀ m ∈ b.next, m.Ready) :
    GetSegKeeps Kept b.buf.left b len ↔
      b.buf.curr = b.buf.dataEnd ∨ SegStays (b.buf.dataEnd - b.buf.curr) len := by
  have size := inside.toNat_sub
  simp only [GetSegKeeps, GenBuf.getSeg]
  by_cases eod : b.buf.curr = b.buf.dataEnd
  · have atEod : expBufAtEod b.buf = true := by simpa [expBufAtEod] using eod
    have same : b.Kept b := ⟨inside, Or.inr ⟨rfl, rfl, rfl, UInt64.le_refl _⟩⟩
    simp only [expBufGetSeg, if_pos atEod]
    exact ⟨fun _ => Or.inl eod, fun _ => ⟨same, by simp⟩⟩
  · have left : ¬ expBufAtEod b.buf = true := by simpa [expBufAtEod] using eod
    rw [or_iff_right eod]
    simp only [expBufGetSeg, if_neg left, SegStays, segLen]
    by_cases fault : intOf (b.buf.dataEnd - b.buf.curr) ≤ intOf len
    · simp only [if_pos fault]
      rw [UInt64.le_iff_toNat_le, size]
      split
      · rename_i n rest linked
        obtain ⟨rewound, kept⟩ := kept_skipNoData linked later
        rw [rewound]
        exact ⟨fun keeps => keeps.2, fun within => ⟨kept, within⟩⟩
      · exact ⟨fun keeps => keeps.2, fun within => ⟨(kept_advance_iff inside).mpr within, within⟩⟩
    · simp only [if_neg fault]
      rw [UInt64.le_iff_toNat_le, size]
      exact ⟨fun keeps => keeps.2, fun within => ⟨(kept_advance_iff inside).mpr within, within⟩⟩

/-! ### A block on its own -/

theorem getSeg_alone (alone : b.next = []) (left : ¬ expBufAtEod b.buf = true) (len : UInt64) :
    expBufGetSeg b len = (some ⟨b.buf.mem, b.buf.curr⟩, segLen (b.buf.dataEnd - b.buf.curr) len,
      b.advance (segLen (b.buf.dataEnd - b.buf.curr) len)) := by
  simp only [expBufGetSeg, if_neg left, alone, segLen]
  split <;> rfl

theorem sub_advance (b : ExpBufRef) (n : UInt64) :
    (b.advance n).buf.dataEnd - (b.advance n).buf.curr = b.buf.dataEnd - b.buf.curr - n := by
  simp only [advance]
  grind

/-- A second segment of a block that reads as used up covers nothing, if some is still wanted. -/
theorem getSeg_second (alone : b.next = []) {wanted : UInt64} (nonneg : 0 ≤ intOf wanted) :
    let used := b.advance (ulongOf (intOf (b.buf.dataEnd - b.buf.curr)))
    ∃ ptr, expBufGetSeg used wanted = (ptr, 0, used) := by
  intro used
  by_cases eod : expBufAtEod used.buf = true
  · exact ⟨none, by simp only [expBufGetSeg, if_pos eod]⟩
  · have nothing : segLen (used.buf.dataEnd - used.buf.curr) wanted = 0 := by
      rw [sub_advance, segLen, intOf_sub_ulongOf_intOf, if_pos nonneg]
      decide
    have moved := getSeg_alone (b := used) alone eod wanted
    rw [nothing] at moved
    have stays : used.advance 0 = used := by simp [advance]
    exact ⟨_, by rw [moved, stays]⟩

theorem kept_setReadError_iff {c : ExpBufRef} : b.Kept c.setReadError ↔ b.Kept c :=
  ⟨fun kept => ⟨⟨kept.inside.1, kept.inside.2⟩, kept.forwards⟩,
    fun kept => ⟨⟨kept.inside.1, kept.inside.2⟩, kept.forwards⟩⟩

/-- A block whose first segment stays inside it is used up by that, or has enough for the rest. -/
theorem atEod_or_nonneg (fault : intOf (b.buf.dataEnd - b.buf.curr) ≤ intOf len)
    (stays : SegStays (b.buf.dataEnd - b.buf.curr) len) :
    expBufAtEod (b.advance (ulongOf (intOf (b.buf.dataEnd - b.buf.curr)))).buf = true ∨
      0 ≤ intOf (len - ulongOf (intOf (b.buf.dataEnd - b.buf.curr))) := by
  rw [SegStays, segLen, if_pos fault] at stays
  rw [Int32.le_iff_toInt_le] at fault
  by_cases nonneg : 0 ≤ (intOf (b.buf.dataEnd - b.buf.curr)).toInt
  · exact Or.inr (intOf_sub_ulongOf_nonneg nonneg fault)
  · -- Only a block that is used up entirely reads as negative without being overrun.
    have whole := ulongOf_intOf_of_neg (Int.not_le.mp nonneg) stays
    have gone := sub_advance b (ulongOf (intOf (b.buf.dataEnd - b.buf.curr)))
    generalize b.advance (ulongOf (intOf (b.buf.dataEnd - b.buf.curr))) = used at gone
    rw [whole, UInt64.sub_self] at gone
    have same : used.buf.curr = used.buf.dataEnd := by grind
    exact Or.inl (by simpa [expBufAtEod] using same)

theorem getSeg_after (alone : b.next = [])
    (fault : intOf (b.buf.dataEnd - b.buf.curr) ≤ intOf len)
    (stays : SegStays (b.buf.dataEnd - b.buf.curr) len) :
    let used := b.advance (ulongOf (intOf (b.buf.dataEnd - b.buf.curr)))
    ∃ ptr, expBufGetSeg used (len - ulongOf (intOf (b.buf.dataEnd - b.buf.curr))) = (ptr, 0, used) := by
  intro used
  rcases atEod_or_nonneg fault stays with eod | nonneg
  · exact ⟨none, by simp only [expBufGetSeg, used, if_pos eod]⟩
  · exact getSeg_second alone nonneg

/-- When copying from a block on its own stays inside its data. -/
theorem copyKeeps_iff (inside : b.buf.Inside) (alone : b.next = []) :
    CopyKeeps Kept b.buf.left b len ↔
      b.buf.curr = b.buf.dataEnd ∨ SegStays (b.buf.dataEnd - b.buf.curr) len := by
  have size := inside.toNat_sub
  have same : b.Kept b := ⟨inside, Or.inr ⟨rfl, rfl, rfl, UInt64.le_refl _⟩⟩
  by_cases eod : b.buf.curr = b.buf.dataEnd
  · have atEod : expBufAtEod b.buf = true := by simpa [expBufAtEod] using eod
    refine ⟨fun _ => Or.inl eod, fun _ => ?_⟩
    simp only [CopyKeeps, GenBuf.copy, expBufCopy]
    rw [expBufCopyLoop_succ]
    simp only [expBufGetSeg, if_pos atEod, copySeg, Option.bind_some, beq_self_eq_true, if_true]
    split
    · exact ⟨_, _, rfl, same, Nat.zero_le _⟩
    · exact ⟨_, _, rfl, kept_setReadError_iff.mpr same, Nat.zero_le _⟩
  · have left : ¬ expBufAtEod b.buf = true := by simpa [expBufAtEod] using eod
    rw [or_iff_right eod]
    have seg := getSeg_alone alone left len
    have start : ulongOf 0 + segLen (b.buf.dataEnd - b.buf.curr) len =
        segLen (b.buf.dataEnd - b.buf.curr) len := by
      rw [show ulongOf 0 = 0 by decide, UInt64.zero_add]
    constructor
    · rintro ⟨octets, b', copied, -, few⟩
      -- The first turn alone delivers as many octets as its segment covers.
      obtain ⟨⟨all, total, c⟩, ran, same'⟩ := Option.map_eq_some_iff.mp copied
      cases same'
      rw [expBufCopy, expBufCopyLoop_succ, seg] at ran
      simp only at ran
      obtain ⟨front, delivered, rest⟩ := Option.bind_eq_some_iff.mp ran
      have count : (segLen (b.buf.dataEnd - b.buf.curr) len).toNat ≤ octets.length := by
        have frontLength : front.length = (segLen (b.buf.dataEnd - b.buf.curr) len).toNat := by
          simp only [copySeg, memcpy] at delivered
          split at delivered
          · cases delivered
            exact length_slice ..
          · contradiction
        rw [← frontLength]
        split at rest
        · cases rest
          exact Nat.le_refl _
        · split at rest
          · cases rest
            exact Nat.le_refl _
          · obtain ⟨⟨more, total', c'⟩, -, same'⟩ := Option.bind_eq_some_iff.mp rest
            cases same'
            rw [List.length_append]
            omega
      rw [SegStays, UInt64.le_iff_toNat_le, size]
      omega
    · intro stays
      have within : (segLen (b.buf.dataEnd - b.buf.curr) len).toNat ≤ b.buf.left := by
        rwa [SegStays, UInt64.le_iff_toNat_le, size] at stays
      have octets := copySeg_of_inside inside within
      have kept : b.Kept (b.advance (segLen (b.buf.dataEnd - b.buf.curr) len)) :=
        (kept_advance_iff inside).mpr within
      have few : (b.buf.unread.take (segLen (b.buf.dataEnd - b.buf.curr) len).toNat).length ≤
          b.buf.left := by
        rw [List.length_take]
        omega
      rw [CopyKeeps, GenBuf.copy]
      change ∃ octets b', (expBufCopy b len).map (fun r => (r.1, r.2.2)) =
        some (octets, b') ∧ _
      rw [expBufCopy, expBufCopyLoop_succ, seg]
      simp only [octets, start, Option.bind_some]
      split
      · exact ⟨_, _, rfl, kept, few⟩
      · rename_i short
        split
        · exact ⟨_, _, rfl, kept_setReadError_iff.mpr kept, few⟩
        · -- More is wanted, so all that reads as left was taken, and the next turn is the last.
          have fault : intOf (b.buf.dataEnd - b.buf.curr) ≤ intOf len := by
            by_contra more
            rw [segLen, if_neg more] at short
            exact short (Int32.le_refl _)
          have took : segLen (b.buf.dataEnd - b.buf.curr) len =
              ulongOf (intOf (b.buf.dataEnd - b.buf.curr)) := by rw [segLen, if_pos fault]
          obtain ⟨ptr, after⟩ := getSeg_after alone fault stays
          have none : copySeg ptr 0 = some [] := by
            cases ptr with
            | none => rfl
            | some p =>
              have bound := UInt64.toNat_lt p.addr
              simp only [copySeg, memcpy, UInt64.toNat_zero]
              rw [if_pos (by omega)]
              rfl
          rw [took] at kept few ⊢
          rw [intOf_ulongOf, expBufCopyLoop_succ, after]
          simp only [none, Option.bind_some, beq_self_eq_true, if_true]
          split
          · exact ⟨_, _, rfl, kept, by simpa using few⟩
          · exact ⟨_, _, rfl, kept_setReadError_iff.mpr kept, by simpa using few⟩

/-- What decides whether skipping on a block on its own stays inside its data. -/
def SkipStays (left len : UInt64) : Prop :=
  SegStays left len ∨
    intOf left ≤ intOf len ∧ intOf (len - ulongOf (intOf left)) < 0 ∧ len ≤ left

instance (left len : UInt64) : Decidable (SkipStays left len) :=
  inferInstanceAs (Decidable (_ ∨ _))

/-- When skipping on a block on its own stays inside its data. -/
theorem skipKeeps_iff (inside : b.buf.Inside) (alone : b.next = []) :
    SkipKeeps Kept b len ↔ len = 0 ∨ b.buf.curr = b.buf.dataEnd ∨
      SkipStays (b.buf.dataEnd - b.buf.curr) len := by
  have size := inside.toNat_sub
  have same : b.Kept b := ⟨inside, Or.inr ⟨rfl, rfl, rfl, UInt64.le_refl _⟩⟩
  have ended : ∀ turns c, expBufSkipLoop turns c 0 = c := by
    intro turns c
    cases turns <;> simp [expBufSkipLoop]
  rw [SkipKeeps]
  change b.Kept (expBufSkip b len) ↔ _
  rw [expBufSkip, alone]
  simp only [List.length_nil]
  by_cases none : len = 0
  · rw [none, ended]
    exact ⟨fun _ => Or.inl rfl, fun _ => same⟩
  rw [or_iff_right none]
  by_cases eod : b.buf.curr = b.buf.dataEnd
  · have atEod : expBufAtEod b.buf = true := by simpa [expBufAtEod] using eod
    simp only [expBufSkipLoop, if_neg none, expBufGetSeg, if_pos atEod]
    exact ⟨fun _ => Or.inl eod, fun _ => same⟩
  have left : ¬ expBufAtEod b.buf = true := by simpa [expBufAtEod] using eod
  have seg := getSeg_alone alone left len
  rw [or_iff_right eod, expBufSkipLoop, if_neg none, seg]
  by_cases fault : intOf (b.buf.dataEnd - b.buf.curr) ≤ intOf len
  · have took : segLen (b.buf.dataEnd - b.buf.curr) len =
        ulongOf (intOf (b.buf.dataEnd - b.buf.curr)) := by rw [segLen, if_pos fault]
    have stays_iff : SegStays (b.buf.dataEnd - b.buf.curr) len ↔
        b.Kept (b.advance (ulongOf (intOf (b.buf.dataEnd - b.buf.curr)))) := by
      rw [kept_advance_iff inside, SegStays, took, UInt64.le_iff_toNat_le, size]
    simp only [took, SkipStays]
    generalize used : b.advance (ulongOf (intOf (b.buf.dataEnd - b.buf.curr))) = c at stays_iff ⊢
    by_cases nonneg : 0 ≤ intOf (len - ulongOf (intOf (b.buf.dataEnd - b.buf.curr)))
    · -- The first segment decides, for the next one covers nothing.
      have only : ¬ (intOf (b.buf.dataEnd - b.buf.curr) ≤ intOf len ∧
          intOf (len - ulongOf (intOf (b.buf.dataEnd - b.buf.curr))) < 0 ∧
          len ≤ b.buf.dataEnd - b.buf.curr) := fun negative => by
        have below := negative.2.1
        rw [Int32.lt_iff_toInt_lt] at below
        rw [Int32.le_iff_toInt_le] at nonneg
        omega
      rw [or_iff_left only, stays_iff]
      split
      · exact kept_setReadError_iff
      · obtain ⟨ptr, second⟩ := getSeg_second (b := b) alone nonneg
        rw [used] at second
        rw [expBufSkipLoop]
        split
        · rfl
        · rw [second]
          cases ptr with
          | none => rfl
          | some p =>
            simp only [beq_self_eq_true, if_true]
            exact kept_setReadError_iff
    · -- The first segment is given back by the second one, unless it has used the block up.
      have below : intOf (len - ulongOf (intOf (b.buf.dataEnd - b.buf.curr))) < 0 := by
        rw [Int32.lt_iff_toInt_lt]
        rw [Int32.le_iff_toInt_le] at nonneg
        omega
      have got : ¬ (ulongOf (intOf (b.buf.dataEnd - b.buf.curr)) == 0) = true := by
        intro zero
        rw [beq_iff_eq] at zero
        have reads := intOf_ulongOf (intOf (b.buf.dataEnd - b.buf.curr))
        rw [zero, show intOf 0 = 0 by decide] at reads
        rw [zero, UInt64.sub_zero, reads] at nonneg
        exact nonneg fault
      have more : ¬ len - ulongOf (intOf (b.buf.dataEnd - b.buf.curr)) = 0 := by
        intro zero
        rw [zero] at below
        exact absurd below (by decide)
      have gone := sub_advance b (ulongOf (intOf (b.buf.dataEnd - b.buf.curr)))
      rw [used] at gone
      rw [if_neg got, expBufSkipLoop, if_neg more]
      by_cases eodAfter : expBufAtEod c.buf = true
      · have whole : ulongOf (intOf (b.buf.dataEnd - b.buf.curr)) =
            b.buf.dataEnd - b.buf.curr := by
          have same : c.buf.curr = c.buf.dataEnd := by simpa [expBufAtEod] using eodAfter
          grind
        have stays : SegStays (b.buf.dataEnd - b.buf.curr) len := by
          rw [SegStays, took, whole]
          exact UInt64.le_refl _
        simp only [expBufGetSeg, if_pos eodAfter]
        exact ⟨fun _ => Or.inl stays, fun _ => stays_iff.mp stays⟩
      · have overrun : ¬ SegStays (b.buf.dataEnd - b.buf.curr) len := by
          intro stays
          rcases atEod_or_nonneg fault stays with eod' | nonneg'
          · exact eodAfter (used ▸ eod')
          · exact nonneg nonneg'
        have aloneAfter : c.next = [] := by rw [← used]; exact alone
        have negative : ¬ (0 : Int32) ≤
            intOf (len - ulongOf (intOf (b.buf.dataEnd - b.buf.curr))) := nonneg
        have second := getSeg_alone aloneAfter eodAfter
          (len - ulongOf (intOf (b.buf.dataEnd - b.buf.curr)))
        rw [gone, segLen, intOf_sub_ulongOf_intOf, if_neg negative] at second
        have total : c.advance (len - ulongOf (intOf (b.buf.dataEnd - b.buf.curr))) =
            b.advance len := by
          rw [← used]
          simp only [advance]
          grind
        have moreBeq : ¬ (len - ulongOf (intOf (b.buf.dataEnd - b.buf.curr)) == 0) = true := by
          simpa using more
        rw [second]
        simp only [if_neg moreBeq, UInt64.sub_self, ended, total]
        rw [or_iff_right overrun, kept_advance_iff inside, UInt64.le_iff_toNat_le, size]
        exact ⟨fun within => ⟨fault, below, within⟩, fun holds => holds.2.2⟩
  · -- The segment covers all that was asked for, and the loop ends.
    have got : ¬ (len == 0) = true := by simpa using none
    have took : segLen (b.buf.dataEnd - b.buf.curr) len = len := by rw [segLen, if_neg fault]
    simp only [took, if_neg got, UInt64.sub_self, ended]
    rw [kept_advance_iff inside, SkipStays, SegStays, took, UInt64.le_iff_toNat_le, size]
    exact ⟨Or.inl, fun stays => stays.elim id fun both => absurd both.1 fault⟩

/-! ### A block with others behind it -/

theorem copyKeeps_of_fits (readable : b.Readable) (noError : b.buf.readError = false)
    (going : ¬ b.Stalled) (small : len.toNat < 2 ^ 31)
    (fits : SegsFit len.toNat (b.buf.left :: b.next.map ExpBuf.left)) :
    CopyKeeps Kept b.unread.length b len := by
  obtain ⟨b', total, copied, passed⟩ :=
    expBufCopy_spec small readable (fun _ => going) fits (by simp [noError])
  refine ⟨b.unread.take len.toNat, b', ?_, ⟨passed.readable.inside, passed.forwards⟩, ?_⟩
  · simp only [GenBuf.copy, copied]
    rfl
  · rw [List.length_take]
    omega

theorem skipKeeps_of_fits (readable : b.Readable) (noError : b.buf.readError = false)
    (going : ¬ b.Stalled) (small : len.toNat < 2 ^ 31)
    (fits : SegsFit len.toNat (b.buf.left :: b.next.map ExpBuf.left)) : SkipKeeps Kept b len := by
  have passed := expBufSkip_spec
    (⟨small, readable, fun _ => going, fun _ => fits, by simp [noError]⟩ : SkipTurn b len)
  exact ⟨passed.readable.inside, passed.forwards⟩

end ExpBufRef

/-! ## All lengths from the wire -/

end Esnacc
