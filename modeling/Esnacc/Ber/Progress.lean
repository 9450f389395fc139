import Esnacc.Ber.Headers

/-! Constructed strings: how far each piece moves the read location, and when the collecting ends. -/

namespace Esnacc

open Lib

/-! ## One reference into the simple buffer -/

theorem SBuf.getSeg_within {b : SBuf} {len : UInt64} (within : ¬ b.readLoc + len > b.dataEnd) :
    GenBuf.getSeg b len =
      (some ⟨b.mem, b.readLoc⟩, len, { b with readLoc := b.readLoc + len }) := by
  have seg : sBufGetSeg b len.toInt64 =
      (⟨b.mem, b.readLoc⟩, len.toInt64, { b with readLoc := b.readLoc + len }) := by
    simp only [sBufGetSeg, UInt64.toUInt64_toInt64, if_neg within]
  simp only [GenBuf.getSeg, seg, UInt64.toUInt64_toInt64]

theorem SBuf.getSeg_past {b : SBuf} {len : UInt64} (past : b.readLoc + len > b.dataEnd) :
    GenBuf.getSeg b len =
      (some ⟨b.mem, b.readLoc⟩, b.dataEnd - b.readLoc, { b with readLoc := b.dataEnd }) := by
  have seg : sBufGetSeg b len.toInt64 =
      (⟨b.mem, b.readLoc⟩, (b.dataEnd - b.readLoc).toInt64, { b with readLoc := b.dataEnd }) := by
    simp only [sBufGetSeg, UInt64.toUInt64_toInt64, if_pos past]
  simp only [GenBuf.getSeg, seg, UInt64.toUInt64_toInt64]

theorem SBuf.getSeg_again {b : SBuf} {len : UInt64} (past : b.readLoc + len > b.dataEnd) :
    GenBuf.getSeg { b with readLoc := b.dataEnd } (len - (b.dataEnd - b.readLoc)) =
      (some ⟨b.mem, b.dataEnd⟩, 0, { b with readLoc := b.dataEnd }) := by
  have sum : b.dataEnd + (len - (b.dataEnd - b.readLoc)) = b.readLoc + len := by grind
  rw [SBuf.getSeg_past (by simpa only [sum] using past)]
  simp

theorem SBuf.cut_ne {b : SBuf} {len : UInt64} (past : b.readLoc + len > b.dataEnd) :
    b.dataEnd - b.readLoc ≠ len := by
  rintro rfl
  have whole : b.readLoc + (b.dataEnd - b.readLoc) = b.dataEnd := by grind
  rw [whole] at past
  exact UInt64.lt_irrefl _ past

theorem octetPieceLoop_within {len : AsnLen} (fuel : Nat) {s : DecState SBuf}
    (within : ¬ s.buf.readLoc + len > s.buf.dataEnd) :
    (octetPieceLoop len (fuel + 1) len 0).run s =
      .ok () (DecState.pushStr { s with buf := { s.buf with readLoc := s.buf.readLoc + len } }
        (some ⟨s.buf.mem, s.buf.readLoc⟩) len) := by
  rw [octetPieceLoop, EStateM.run_bind, run_bufGetSeg]
  simp [SBuf.getSeg_within within]

/-- An octet string piece is referred to as one segment, and is refused where it is cut off. -/
theorem octetPieceLoop_spec (len : AsnLen) (fuel : Nat) (s : DecState SBuf) :
    match (octetPieceLoop len (fuel + 2) len 0).run s with
    | .ok _ s' => s'.buf.readLoc = s.buf.readLoc + len
    | .error e _ => e ≠ .outOfTurns := by
  by_cases past : s.buf.readLoc + len > s.buf.dataEnd
  · rw [octetPieceLoop, EStateM.run_bind, run_bufGetSeg]
    -- The first segment ends with the data; the second one is empty.
    have shorter : ¬ (s.buf.dataEnd - s.buf.readLoc == len) = true := by
      simpa using SBuf.cut_ne past
    simp only [SBuf.getSeg_past past, EStateM.run_bind, run_pushStr, UInt64.zero_add,
      if_neg shorter]
    by_cases empty : (s.buf.dataEnd - s.buf.readLoc == 0) = true
    · rw [if_pos empty]
      simp
    · rw [if_neg empty, octetPieceLoop, EStateM.run_bind, run_bufGetSeg]
      simp only [DecState.pushStr_buf, SBuf.getSeg_again past, EStateM.run_bind, run_pushStr,
        UInt64.add_zero,
        if_neg shorter, beq_self_eq_true, if_true, run_asn1Error]
      simp
  · simp [octetPieceLoop_within (fuel + 1) past]

/-- So is what a bit string piece holds behind its unused bits octet. -/
theorem bitPieceLoop_spec (lenToRef : AsnLen) (fuel : Nat) (s : DecState SBuf) :
    match (bitPieceLoop (fuel + 2) lenToRef).run s with
    | .ok _ s' => s'.buf.readLoc = s.buf.readLoc + lenToRef
    | .error e _ => e ≠ .outOfTurns := by
  rw [bitPieceLoop]
  by_cases some_left : lenToRef > 0
  · rw [if_pos some_left, EStateM.run_bind, run_bufGetSeg]
    by_cases past : s.buf.readLoc + lenToRef > s.buf.dataEnd
    · have shorter := SBuf.cut_ne past
      have more : lenToRef - (s.buf.dataEnd - s.buf.readLoc) > 0 := by
        rw [gt_iff_lt, ← UInt64.not_le, UInt64.le_zero_iff]
        intro none
        exact shorter (by grind)
      simp only [SBuf.getSeg_past past]
      by_cases empty : (s.buf.dataEnd - s.buf.readLoc == 0) = true
      · rw [if_pos empty]
        simp
      · rw [if_neg empty, EStateM.run_bind, run_pushStr]
        dsimp only
        rw [bitPieceLoop, if_pos more, EStateM.run_bind, run_bufGetSeg]
        simp [SBuf.getSeg_again past]
    · have whole : ¬ (lenToRef == 0) = true := by
        rw [beq_iff_eq]
        rintro rfl
        exact UInt64.lt_irrefl _ some_left
      simp only [SBuf.getSeg_within past, if_neg whole, EStateM.run_bind, run_pushStr]
      rw [UInt64.sub_self, bitPieceLoop, if_neg (UInt64.lt_irrefl _)]
      rfl
  · rw [if_neg some_left]
    have none : lenToRef = 0 := UInt64.le_zero_iff.mp (UInt64.not_lt.mp some_left)
    simp [none]

/-! ## One turn of a collector -/

section

variable {β : Type} [GenBuf β] {tagCode : UInt32} {wrongTag : Exit} {piece : AsnLen → Dec β Unit}
variable {p : StkPos} {s s' : DecState β}

/-- A completed turn has read a tag, and then either the end of contents or a length and a piece. -/
theorem fillStringStk_turn_eq_ok {how : Turn AsnLen StkPos}
    (done : ((fillStringStk tagCode wrongTag piece).turn p).run s = .ok how s') :
    ∃ tagId t s1, (bDecTag p.totalElmtsLen1).run s = .ok (tagId, t) s1 ∧
      (((tagId = EOC_TAG_ID ∧ p.elmtLen0 = INDEFINITE_LEN) ∧
          ∃ r, how = .stop r ∧ (bDec2ndEocOctet t).run s1 = .ok r s') ∨
        ∃ len u s2, (bDecLen t).run s1 = .ok (len, u) s2 ∧
          ((tagId = makeTagId UNIV PRIM tagCode ∧ how = .next ⟨p.elmtLen0, u + len⟩ ∧
              (piece len).run s2 = .ok () s') ∨
            ((tagId ≠ makeTagId UNIV PRIM tagCode ∧ tagId = makeTagId UNIV CONS tagCode) ∧ s' = s2 ∧
              how = .call ⟨len, 0⟩ fun inner => ⟨p.elmtLen0, u + inner⟩))) := by
  obtain ⟨⟨tagId, t⟩, s1, tagged, done⟩ := run_bind_eq_ok.mp done
  refine ⟨tagId, t, s1, tagged, ?_⟩
  dsimp only at done
  split at done
  · rename_i eoc
    rw [Bool.and_eq_true, beq_iff_eq, beq_iff_eq] at eoc
    obtain ⟨r, s2, ended, done⟩ := run_bind_eq_ok.mp done
    obtain ⟨rfl, rfl⟩ := run_pure_eq_ok.mp done
    exact Or.inl ⟨eoc, r, rfl, ended⟩
  · right
    obtain ⟨⟨len, u⟩, s2, measured, done⟩ := run_bind_eq_ok.mp done
    refine ⟨len, u, s2, measured, ?_⟩
    dsimp only at done
    split at done
    · rename_i primitive
      obtain ⟨⟨⟩, s3, taken, done⟩ := run_bind_eq_ok.mp done
      obtain ⟨rfl, rfl⟩ := run_pure_eq_ok.mp done
      exact Or.inl ⟨beq_iff_eq.mp primitive, rfl, taken⟩
    · rename_i other
      right
      split at done
      · rename_i constructed
        obtain ⟨rfl, rfl⟩ := run_pure_eq_ok.mp done
        exact ⟨⟨fun same => other (beq_iff_eq.mpr same), beq_iff_eq.mp constructed⟩, rfl, rfl⟩
      · cases done

theorem fillStringStk_turn_piece {t u len : AsnLen} {s1 s2 : DecState β}
    (proper : makeTagId UNIV PRIM tagCode ≠ EOC_TAG_ID)
    (tagged : (bDecTag p.totalElmtsLen1).run s = .ok (makeTagId UNIV PRIM tagCode, t) s1)
    (measured : (bDecLen t).run s1 = .ok (len, u) s2) (taken : (piece len).run s2 = .ok () s') :
    ((fillStringStk tagCode wrongTag piece).turn p).run s =
      .ok (.next ⟨p.elmtLen0, u + len⟩) s' := by
  have content : ¬ (makeTagId UNIV PRIM tagCode == EOC_TAG_ID &&
      p.elmtLen0 == INDEFINITE_LEN) = true := by
    simp [proper]
  simp only [fillStringStk, EStateM.run_bind, tagged, if_neg content, measured, beq_self_eq_true,
    if_true, taken, EStateM.run_pure]

/-- A turn runs out of turns only where its piece does. -/
theorem fillStringStk_turn_ne_outOfTurns (wrong : wrongTag ≠ .outOfTurns)
    (pieces : ∀ len t t', (piece len).run t ≠ .error .outOfTurns t') :
    ((fillStringStk tagCode wrongTag piece).turn p).run s ≠ .error .outOfTurns s' := by
  intro failed
  rcases run_bind_eq_error.mp failed with tag | ⟨⟨tagId, t⟩, s1, -, failed⟩
  · exact bDecTag_ne_outOfTurns tag
  dsimp only at failed
  split at failed
  · rcases run_bind_eq_error.mp failed with eoc | ⟨r, s2, -, failed⟩
    · exact bDec2ndEocOctet_ne_outOfTurns eoc
    · cases failed
  rcases run_bind_eq_error.mp failed with len | ⟨⟨len, u⟩, s2, -, failed⟩
  · exact bDecLen_ne_outOfTurns len
  dsimp only at failed
  split at failed
  · rcases run_bind_eq_error.mp failed with taken | ⟨_, s3, -, failed⟩
    · exact pieces _ _ _ taken
    · cases failed
  split at failed
  · cases failed
  · cases failed
    exact wrong rfl

end

/-! ## The two kinds of constructed strings -/

/-- The types whose values may come in pieces. -/
inductive StringKind where
  | octets
  | bits
  deriving DecidableEq

namespace StringKind

/-- The universal tag code of a kind. -/
def tagCode : StringKind → UInt32
  | octets => OCTETSTRING_TAG_CODE
  | bits => BITSTRING_TAG_CODE

/-- What is done with a primitive piece of a given length. -/
def piece (fuel : Nat) : StringKind → AsnLen → Dec SBuf Unit
  | octets => fun elmtLen1 => octetPieceLoop elmtLen1 fuel elmtLen1 0
  | bits => bitPiece fuel

/-- The loop that collects the pieces. -/
def loop (fuel : Nat) : StringKind → Loop Exit (DecState SBuf) AsnLen StkPos
  | octets => octetStringLoop fuel
  | bits => bitStringLoop fuel

/-- Where the octets of a primitive piece are referred to from, and how many of them. -/
def segment (b : SBuf) (elmtLen1 : AsnLen) : StringKind → UInt64 × UInt64
  | octets => (b.readLoc, elmtLen1)
  | bits => ((GenBuf.getByte b).2.readLoc, elmtLen1 - 1)

/-- A primitive piece that is accepted moves the read location over its octets. -/
theorem piece_spec (kind : StringKind) (elmtLen1 : AsnLen) (fuel : Nat) (s : DecState SBuf) :
    match (kind.piece (fuel + 2) elmtLen1).run s with
    | .ok _ s' =>
      s'.buf.readLoc = (kind.segment s.buf elmtLen1).1 + (kind.segment s.buf elmtLen1).2
    | .error e _ => e ≠ .outOfTurns := by
  cases kind with
  | octets => exact octetPieceLoop_spec elmtLen1 fuel s
  | bits =>
    change match (bitPiece (fuel + 2) elmtLen1).run s with
      | .ok _ s' => s'.buf.readLoc = (GenBuf.getByte s.buf).2.readLoc + (elmtLen1 - 1)
      | .error e _ => e ≠ .outOfTurns
    rw [bitPiece]
    by_cases empty : (elmtLen1 == 0) = true
    · rw [if_pos empty]
      simp
    rw [if_neg empty, EStateM.run_bind, run_getUnusedBitsG]
    dsimp only
    by_cases unaligned : (s.glob.unusedBitsG != 0) = true
    · rw [if_pos unaligned]
      simp
    rw [if_neg unaligned, EStateM.run_bind, run_bufGetByte]
    exact bitPieceLoop_spec (elmtLen1 - 1) fuel
      (DecState.setUnusedBitsG { s with buf := (GenBuf.getByte s.buf).2 }
        (GenBuf.getByte s.buf).1.toUInt16)

theorem loop_eq (kind : StringKind) (fuel : Nat) :
    ∃ wrongTag : Exit, wrongTag ≠ .outOfTurns ∧
      kind.loop fuel = fillStringStk kind.tagCode wrongTag (kind.piece fuel) := by
  cases kind with
  | octets => exact ⟨_, by simp, rfl⟩
  | bits => exact ⟨_, by simp, rfl⟩

theorem tagCode_ne_eoc (kind : StringKind) :
    EOC_TAG_ID ≠ makeTagId UNIV PRIM kind.tagCode := by
  cases kind <;> decide

theorem readLoc_le_getByte (b : SBuf) : b.readLoc.toNat ≤ (GenBuf.getByte b).2.readLoc.toNat := by
  change _ ≤ (sBufGetByte b).2.readLoc.toNat
  rw [sBufGetByte]
  split
  · exact Nat.le_refl _
  · rename_i left
    have bound := UInt64.toNat_lt b.dataEnd
    simp only [sBufEod, decide_eq_true_eq, ge_iff_le, UInt64.not_le, UInt64.lt_iff_toNat_lt] at left
    rw [UInt64.toNat_add, UInt64.toNat_one]
    omega

theorem le_segment (kind : StringKind) (b : SBuf) (elmtLen1 : AsnLen) :
    b.readLoc.toNat ≤ (kind.segment b elmtLen1).1.toNat := by
  cases kind with
  | octets => exact Nat.le_refl _
  | bits => exact readLoc_le_getByte b

end StringKind

/--
Moving over a segment either stays below the end of the address space, or wraps around it to a place
behind the given one.
-/
def SegForward (start : UInt64) (segment : UInt64 × UInt64) : Prop :=
  segment.1.toNat + segment.2.toNat < 2 ^ 64 ∨
    start.toNat + 2 ^ 64 < segment.1.toNat + segment.2.toNat

theorem segForward_iff {start : UInt64} {segment : UInt64 × UInt64}
    (behind : start.toNat < segment.1.toNat) :
    SegForward start segment ↔ start.toNat < (segment.1 + segment.2).toNat := by
  have bound := UInt64.toNat_lt segment.1
  have bound' := UInt64.toNat_lt segment.2
  rw [SegForward, UInt64.toNat_add]
  omega

namespace StringKind

/-- The primitive piece that starts where a turn does, if one does, lies forward of its header. -/
def PieceForward (kind : StringKind) (p : StkPos) (s _s' : DecState SBuf) : Prop :=
  ∀ tagId t s1 len u s2, (bDecTag p.totalElmtsLen1).run s = .ok (tagId, t) s1 →
    tagId = makeTagId UNIV PRIM kind.tagCode → (bDecLen t).run s1 = .ok (len, u) s2 →
      SegForward s.buf.readLoc (kind.segment s2.buf len)

/-- How much of the address space lies behind the read location. -/
def room (s : DecState SBuf) : Nat :=
  2 ^ 64 - s.buf.readLoc.toNat

theorem room_lt_iff {s s' : DecState SBuf} :
    room s' < room s ↔ s.buf.readLoc.toNat < s'.buf.readLoc.toNat := by
  have bound := UInt64.toNat_lt s.buf.readLoc
  have bound' := UInt64.toNat_lt s'.buf.readLoc
  rw [room, room]
  omega

/-- Headers move the read location forward, and pieces do where they lie forward. -/
theorem descends (kind : StringKind) (fuel : Nat) :
    (kind.loop (fuel + 2)).Descends .outOfTurns kind.PieceForward room := by
  obtain ⟨wrongTag, wrong, same⟩ := kind.loop_eq (fuel + 2)
  rw [same]
  refine ⟨?_, ?_, ?_, ?_⟩
  · intro p s r s' done
    obtain ⟨tagId, t, s1, tagged, ⟨⟨eoc, -⟩, _, -, ended⟩ |
      ⟨_, _, _, _, ⟨-, how, -⟩ | ⟨-, -, how⟩⟩⟩ := fillStringStk_turn_eq_ok done
    · have first := (bDecTag_hasRead tagged).forward.1
      have second := (bDec2ndEocOctet_hasRead ended).forward.1
      refine ⟨room_lt_iff.mpr (Nat.lt_trans first second), ?_⟩
      -- The end of contents is not the tag of a piece.
      intro tagId' t' s1' len u s2 tagged' primitive
      rw [tagged] at tagged'
      cases tagged'
      exact absurd (eoc.symm.trans primitive) kind.tagCode_ne_eoc
    · cases how
    · cases how
  · intro p p' s s' done
    obtain ⟨tagId, t, s1, tagged, ⟨-, _, how, -⟩ |
      ⟨len, u, s2, measured, ⟨primitive, -, taken⟩ | ⟨-, -, how⟩⟩⟩ := fillStringStk_turn_eq_ok done
    · cases how
    · have first := (bDecTag_hasRead tagged).forward.1
      have second := (bDecLen_hasRead measured).forward.1
      have moved := kind.piece_spec len fuel s2
      rw [taken] at moved
      have after := kind.le_segment s2.buf len
      rw [room_lt_iff, moved, ← segForward_iff (by omega)]
      constructor
      · intro forward
        exact forward tagId t s1 len u s2 tagged primitive measured
      · intro forward tagId' t' s1' len' u' s2' tagged' _ measured'
        rw [tagged] at tagged'
        cases tagged'
        rw [measured] at measured'
        cases measured'
        exact forward
    · cases how
  · intro p inner resume s s' done
    obtain ⟨tagId, t, s1, tagged, ⟨-, _, how, -⟩ |
      ⟨len, u, s2, measured, ⟨-, how, -⟩ | ⟨⟨other, -⟩, rfl, -⟩⟩⟩ := fillStringStk_turn_eq_ok done
    · cases how
    · cases how
    · have first := (bDecTag_hasRead tagged).forward.1
      have second := (bDecLen_hasRead measured).forward.1
      refine ⟨room_lt_iff.mpr (Nat.lt_trans first second), ?_⟩
      intro s'' tagId' t' s1' len' u' s2' tagged' primitive
      rw [tagged] at tagged'
      cases tagged'
      exact absurd primitive other
  · intro p s s'
    apply fillStringStk_turn_ne_outOfTurns wrong
    intro len t t' failed
    have spec := kind.piece_spec len fuel t
    rw [failed] at spec
    exact spec rfl

/--
Every turn of collecting the pieces of a string, nested strings included, relates the state it
starts in to the one it ends in.

The loops over one piece need two turns at most, so they are granted as many.
-/
def EveryTurn (kind : StringKind) (holds : StkPos → DecState SBuf → DecState SBuf → Prop)
    (len : AsnLen) (s : DecState SBuf) : Prop :=
  ∀ fuel, (kind.loop (fuel + 2)).EveryTurn .outOfTurns holds (fuel + 2) ⟨len, 0⟩ s.resetStrStk

/-- Decoding a string returns or fails after finitely many turns. -/
def Ends (kind : StringKind) (tag : AsnTag) (len n : AsnLen) (s : DecState SBuf) : Prop :=
  match kind with
  | octets => ∃ fuel, ∀ s', (bDecAsnOctsContent fuel tag len n).run s ≠ .error .outOfTurns s'
  | bits => ∃ fuel, ∀ s', (bDecAsnBitsContent fuel tag len n).run s ≠ .error .outOfTurns s'

theorem mergePieces_eq_error {size : Nat} {e : Exit} {s s' : DecState SBuf}
    (failed : (mergePieces size).run s = .error e s') : e = .fault := by
  rw [EStateM.run, mergePieces] at failed
  split at failed
  · cases failed
    rfl
  · exact storeInto_eq_error failed

/-- An octet string is decoded in turns of its collector only. -/
theorem octets_ends {fuel : Nat} {tag : AsnTag} {len n : AsnLen} {s : DecState SBuf}
    (constructed : tagIsCons tag = true)
    (collected : ∀ t, ((octetStringLoop fuel).run .outOfTurns fuel ⟨len, 0⟩).run s.resetStrStk ≠
      .error .outOfTurns t) (s' : DecState SBuf) :
    (bDecAsnOctsContent fuel tag len n).run s ≠ .error .outOfTurns s' := by
  intro failed
  rw [bDecAsnOctsContent, if_pos constructed, bDecConsAsnOcts] at failed
  rw [EStateM.run_bind, run_resetStrStk] at failed
  dsimp only at failed
  rcases run_bind_eq_error.mp failed with filling | ⟨total, t, -, failed⟩
  · rcases run_bind_eq_error.mp filling with looped | ⟨_, _, -, failed⟩
    · exact collected _ looped
    · cases failed
  rw [EStateM.run_bind, run_getTotalByteLen] at failed
  dsimp only at failed
  rcases run_bind_eq_error.mp failed with failed | ⟨size, u, -, failed⟩
  · cases asn1Alloc_eq_error failed
  rcases run_bind_eq_error.mp failed with failed | ⟨octs, v, -, failed⟩
  · cases mergePieces_eq_error failed
  rcases run_bind_eq_error.mp failed with failed | ⟨_, _, -, failed⟩
  · cases storeInto_eq_error failed
  · cases failed

/-- So is a bit string. -/
theorem bits_ends {fuel : Nat} {tag : AsnTag} {len n : AsnLen} {s : DecState SBuf}
    (constructed : tagIsCons tag = true)
    (collected : ∀ t, ((bitStringLoop fuel).run .outOfTurns fuel ⟨len, 0⟩).run s.resetStrStk ≠
      .error .outOfTurns t) (s' : DecState SBuf) :
    (bDecAsnBitsContent fuel tag len n).run s ≠ .error .outOfTurns s' := by
  intro failed
  rw [bDecAsnBitsContent, if_pos constructed, bDecConsAsnBits] at failed
  rw [EStateM.run_bind, run_resetStrStk] at failed
  dsimp only at failed
  rcases run_bind_eq_error.mp failed with filling | ⟨total, t, -, failed⟩
  · rcases run_bind_eq_error.mp filling with looped | ⟨_, _, -, failed⟩
    · exact collected _ looped
    · cases failed
  rw [EStateM.run_bind, run_getTotalByteLen] at failed
  dsimp only at failed
  rw [EStateM.run_bind, run_getUnusedBitsG] at failed
  dsimp only at failed
  rcases run_bind_eq_error.mp failed with failed | ⟨size, u, -, failed⟩
  · cases asn1Alloc_eq_error failed
  rcases run_bind_eq_error.mp failed with failed | ⟨bits, v, -, failed⟩
  · cases mergePieces_eq_error failed
  · cases failed

theorem ends_of_loop (kind : StringKind) {fuel : Nat} {tag : AsnTag} {len n : AsnLen}
    {s : DecState SBuf} (constructed : tagIsCons tag = true)
    (collected : ∀ t, ((kind.loop fuel).run .outOfTurns fuel ⟨len, 0⟩).run s.resetStrStk ≠
      .error .outOfTurns t) : kind.Ends tag len n s := by
  cases kind with
  | octets => exact ⟨fuel, octets_ends constructed collected⟩
  | bits => exact ⟨fuel, bits_ends constructed collected⟩

end StringKind

/--
Decoding a constructed string ends, every turn moving the read location forward, exactly where every
primitive piece met on the way lies forward of its header.
-/
theorem constructed_strings_progress_iff (kind : StringKind) {tag : AsnTag} (len n : AsnLen)
    (s : DecState SBuf) (constructed : tagIsCons tag = true) :
    kind.Ends tag len n s ∧
        kind.EveryTurn (fun _ t t' => t.buf.readLoc < t'.buf.readLoc) len s ↔
      kind.EveryTurn kind.PieceForward len s := by
  have forwards : kind.EveryTurn (fun _ t t' => t.buf.readLoc < t'.buf.readLoc) len s ↔
      kind.EveryTurn kind.PieceForward len s := by
    refine forall_congr' fun fuel => ?_
    rw [(kind.descends fuel).everyTurn_iff]
    simp only [StringKind.room_lt_iff, UInt64.lt_iff_toNat_lt]
  rw [forwards]
  refine ⟨And.right, fun every => ⟨?_, every⟩⟩
  -- The room behind the read location bounds the turns.
  exact kind.ends_of_loop constructed fun t =>
    (kind.descends _).run_ne_exhausted (every (StringKind.room (s.resetStrStk))) (by omega) t

/-- A piece of one octet lies forward of its header, and leaves the collector nothing more to do. -/
theorem one_piece_everyTurn {s : DecState SBuf} (held : s.buf.unread = [4, 1, 7])
    (clear : s.buf.readError = false) :
    StringKind.octets.EveryTurn StringKind.octets.PieceForward 3 s := by
  intro fuel
  have held' : (s.buf.advance 1).unread = [1, 7] := by
    rw [SBuf.unread_advance (by simp [held]), held]
    rfl
  have tagged := bDecTag_short (s := s.resetStrStk) 0 held (by decide) clear
  have measured := bDecLen_short (s := { s.resetStrStk with buf := s.buf.advance 1 }) 1 held'
    (by decide) clear
  rw [SBuf.advance_advance] at measured
  -- The octet behind the header is the last one of the data.
  have moved := SBuf.toNat_readLoc_advance (b := s.buf) (n := 2) (by simp [held])
  have size := congrArg List.length held
  have bound := UInt64.toNat_lt s.buf.dataEnd
  rw [SBuf.length_unread] at size
  simp only [List.length_cons, List.length_nil] at size
  have within : ¬ (s.buf.advance 2).readLoc + 1 > (s.buf.advance 2).dataEnd := by
    rw [gt_iff_lt, UInt64.lt_iff_toNat_lt, UInt64.toNat_add, moved, UInt64.toNat_one,
      SBuf.advance_dataEnd]
    omega
  have taken := octetPieceLoop_within (fuel + 1)
    (s := { s.resetStrStk with buf := s.buf.advance 2 }) within
  have turn : ((octetStringLoop (fuel + 2)).turn ⟨3, 0⟩).run s.resetStrStk = _ :=
    fillStringStk_turn_piece (by decide) tagged measured taken
  -- The three octets are used up.
  refine Loop.everyTurn_of_next turn ?_ (Loop.everyTurn_of_not_test Bool.false_ne_true)
  intro tagId t s1 len u s2 tagged' _ measured'
  rw [tagged] at tagged'
  cases tagged'
  cases measured.symm.trans measured'
  left
  change (s.buf.advance 2).readLoc.toNat + (1 : UInt64).toNat < 2 ^ 64
  rw [moved, UInt64.toNat_one]
  omega

/-- A piece of 2^64 - 10 octets ends where its header of 10 octets starts. -/
theorem circular_piece_turn (fuel : Nat) {s : DecState SBuf}
    (held : s.buf.unread = [4, 0x88, 255, 255, 255, 255, 255, 255, 255, 246])
    (clear : s.buf.readError = false) :
    ∃ s', ((octetStringLoop (fuel + 1)).turn ⟨10, 0⟩).run s = .ok (.next ⟨10, 0⟩) s' ∧
      s'.buf = s.buf := by
  have held' : (s.buf.advance 1).unread =
      0x88 :: ([255, 255, 255, 255, 255, 255, 255, 246] ++ []) := by
    rw [SBuf.unread_advance (by simp [held]), held]
    rfl
  have tagged := bDecTag_short 0 held (by decide) clear
  have measured := bDecLen_long (s := { s with buf := s.buf.advance 1 }) 1 held' (by decide)
    (by decide) (by decide) (by decide) clear
  rw [SBuf.advance_advance] at measured
  have back : (s.buf.advance 10).readLoc + 18446744073709551606 = s.buf.readLoc := by
    rw [SBuf.advance, UInt64.add_assoc]
    exact UInt64.add_zero _
  have within : ¬ (s.buf.advance 10).readLoc + 18446744073709551606 >
      (s.buf.advance 10).dataEnd := by
    rw [back, gt_iff_lt, UInt64.lt_iff_toNat_lt, SBuf.advance_dataEnd]
    have size := congrArg List.length held
    rw [SBuf.length_unread] at size
    simp only [List.length_cons, List.length_nil] at size
    omega
  have taken := octetPieceLoop_within fuel (s := { s with buf := s.buf.advance 10 }) within
  refine ⟨_, fillStringStk_turn_piece (p := ⟨10, 0⟩) (by decide) tagged measured taken, ?_⟩
  rw [DecState.pushStr_buf]
  simp only [back]
  rfl

theorem circular_piece_run (turns fuel : Nat) {s : DecState SBuf}
    (held : s.buf.unread = [4, 0x88, 255, 255, 255, 255, 255, 255, 255, 246])
    (clear : s.buf.readError = false) :
    ∃ s', ((octetStringLoop (fuel + 1)).run .outOfTurns turns ⟨10, 0⟩).run s =
      .error .outOfTurns s' := by
  induction turns generalizing s with
  | zero => exact ⟨_, rfl⟩
  | succ turns ih =>
    obtain ⟨s', turn, same⟩ := circular_piece_turn fuel held clear
    rw [Loop.run_of_test rfl, turn]
    exact ih (by rw [same, held]) (by rw [same, clear])

/-- A buffer that holds the given octets, all unread. -/
def bufferOf (octets : List UInt8) : SBuf :=
  sBufInstallData (store (fun _ => 0) 4096 octets) 4096 (UInt64.ofNat octets.length).toInt64

theorem constructed_strings_progress_iff_one_piece :
    StringKind.octets.Ends 0x24000000 3 0 ⟨bufferOf [4, 1, 7], initialGlobals⟩ ∧
      StringKind.octets.EveryTurn (fun _ t t' => t.buf.readLoc < t'.buf.readLoc) 3
        ⟨bufferOf [4, 1, 7], initialGlobals⟩ :=
  (constructed_strings_progress_iff .octets 3 0 _ (by decide)).mpr
    (one_piece_everyTurn (by decide) rfl)

/-- A piece whose length leads back to its header is collected without end. -/
theorem circular_piece_never_ends :
    ¬ ∀ (kind : StringKind) (tag : AsnTag) (len n : AsnLen) (s : DecState SBuf),
      tagIsCons tag = true → kind.Ends tag len n s ∧
        kind.EveryTurn (fun _ t t' => t.buf.readLoc < t'.buf.readLoc) len s := by
  intro progress
  obtain ⟨⟨fuel, ends⟩, -⟩ := progress .octets 0x24000000 10 0
    ⟨bufferOf [4, 0x88, 255, 255, 255, 255, 255, 255, 255, 246], initialGlobals⟩ (by decide)
  cases fuel with
  | zero => exact ends _ rfl
  | succ fuel =>
    obtain ⟨s', looped⟩ := circular_piece_run (fuel + 1) fuel
      (s := ⟨bufferOf [4, 0x88, 255, 255, 255, 255, 255, 255, 255, 246], initialGlobals⟩)
      (by decide) rfl
    apply ends s'
    rw [bDecAsnOctsContent, if_pos (by decide), bDecConsAsnOcts, EStateM.run_bind, run_resetStrStk]
    dsimp only
    apply run_bind_eq_error.mpr
    left
    rw [fillOctetStringStk]
    apply run_bind_eq_error.mpr
    left
    exact looped

end Esnacc
