import Esnacc.Ber.Segments
import Esnacc.Ber.StringPieces

/-! What the collectors of constructed strings read and refer to. -/

namespace Esnacc

open Lib

variable {β : Type}

/-! ## References that are followed -/

/-- The octets that the collected pieces refer to. -/
def Globals.gathered (g : Globals) : Option (List UInt8) :=
  copyPieces g.strStkG.stk.reverse

/-- The collected pieces can be followed, and their octets are less than an `int` can count. -/
def Globals.Bounded (g : Globals) : Prop :=
  ∃ octets, g.gathered = some octets ∧ octets.length < 2 ^ 31

/-- More octets have been referred to. -/
structure Gathers (g : Globals) (octets : List UInt8) (g' : Globals) : Prop where
  gathered : g'.gathered = g.gathered.map (· ++ octets)
  total : g'.strStkG.totalByteLen = g.strStkG.totalByteLen + UInt64.ofNat octets.length
  unusedBits : g'.unusedBitsG = g.unusedBitsG

theorem Gathers.refl (g : Globals) : Gathers g [] g where
  gathered := by cases g.gathered <;> simp
  total := (UInt64.add_zero _).symm
  unusedBits := rfl

theorem Gathers.trans {g g' g'' : Globals} {octets more : List UInt8} (first : Gathers g octets g')
    (later : Gathers g' more g'') : Gathers g (octets ++ more) g'' where
  gathered := by
    rw [later.gathered, first.gathered]
    cases g.gathered <;> simp
  total := by
    rw [later.total, first.total, UInt64.add_assoc, List.length_append, UInt64.ofNat_add]
  unusedBits := later.unusedBits.trans first.unusedBits

theorem Globals.Bounded.of_suffix {g g' : Globals} (bounded : g'.Bounded)
    (earlier : g.strStkG.stk <:+ g'.strStkG.stk) : g.Bounded := by
  obtain ⟨octets, gathered, few⟩ := bounded
  obtain ⟨later, pieces⟩ := earlier
  rw [Globals.gathered, ← pieces, List.reverse_append, copyPieces_append] at gathered
  obtain ⟨first, second, before, -, rfl⟩ := gathered
  rw [List.length_append] at few
  exact ⟨first, before, by omega⟩

/-- A piece that is pushed and can be followed adds its octets. -/
theorem gathers_pushStr {s : DecState β} {str : Option Ptr} {k : UInt64} {octets : List UInt8}
    (followed : StrStkElmt.octets ⟨str, k⟩ = some octets) :
    Gathers s.glob octets (s.pushStr str k).glob where
  gathered := by
    have alone : copyPieces [⟨str, k⟩] = some octets := by
      rw [copyPieces_cons, followed, Option.bind_some]
      simp [copyPieces]
    change copyPieces (⟨str, k⟩ :: s.glob.strStkG.stk).reverse = _
    rw [List.reverse_cons]
    cases before : s.glob.gathered with
    | none =>
      rw [Option.map_none, Option.eq_none_iff_forall_ne_some]
      intro all copied
      obtain ⟨first, _, copied, -⟩ := copyPieces_append.mp copied
      rw [Globals.gathered, copied] at before
      cases before
    | some first => exact copyPieces_append.mpr ⟨first, octets, before, alone, rfl⟩
  total := by
    have size := StrStkElmt.length_octets followed
    change s.glob.strStkG.totalByteLen + k = _
    rw [size, UInt64.ofNat_toNat]
  unusedBits := rfl

/-- A piece that was pushed last can be followed where all can. -/
theorem followed_of_gathered {s : DecState β} {str : Option Ptr} {k : UInt64} {all : List UInt8}
    (gathered : (s.pushStr str k).glob.gathered = some all) :
    ∃ octets, StrStkElmt.octets ⟨str, k⟩ = some octets ∧ octets.length ≤ all.length := by
  change copyPieces (⟨str, k⟩ :: s.glob.strStkG.stk).reverse = some all at gathered
  rw [List.reverse_cons, copyPieces_append] at gathered
  obtain ⟨first, second, -, alone, rfl⟩ := gathered
  rw [copyPieces_cons] at alone
  obtain ⟨octets, followed, alone⟩ := Option.bind_eq_some_iff.mp alone
  refine ⟨octets, followed, ?_⟩
  simp only [copyPieces, Option.map_some, List.append_nil, Option.some.injEq] at alone
  rw [List.length_append, ← alone]
  omega

theorem Gathers.bounded {g g' : Globals} {octets : List UInt8} (gathers : Gathers g octets g')
    (bounded : g'.Bounded) :
    ∃ before, g.gathered = some before ∧ before.length + octets.length < 2 ^ 31 := by
  obtain ⟨all, gathered, few⟩ := bounded
  rw [gathers.gathered, Option.map_eq_some_iff] at gathered
  obtain ⟨before, earlier, rfl⟩ := gathered
  rw [List.length_append] at few
  exact ⟨before, earlier, few⟩

/-- A completed merge has followed all pieces, into a block that an `int` can count. -/
theorem mergePieces_eq_ok {size : Nat} {block : List UInt8} {s s' : DecState β}
    (merged : (mergePieces size).run s = .ok block s') :
    s' = s ∧ ∃ octets, s.glob.gathered = some octets ∧ octets.length ≤ size ∧
      block = octets ++ List.replicate (size - octets.length) 0 := by
  rw [EStateM.run, mergePieces] at merged
  split at merged
  · cases merged
  · rename_i octets gathered
    simp only [storeInto] at merged
    split at merged
    · rename_i fits
      cases merged
      exact ⟨rfl, octets, gathered, fits, rfl⟩
    · cases merged

theorem asn1Alloc_lt {size : UInt64} {k : Nat} {s s' : DecState β}
    (allocated : (asn1Alloc size).run s = .ok k s') : k < 2 ^ 31 := by
  have bound := Int32.toInt_lt (intOf size)
  rw [EStateM.run, asn1Alloc] at allocated
  split at allocated <;> cases allocated
  omega

/-! ## One piece -/

variable [GenBuf β] {inv : β → Prop} {handles : UInt64 → Prop} {unread : β → List UInt8}

/-- Octets have been referred to, which were unread before and are no more. -/
structure Refers (inv : β → Prop) (unread : β → List UInt8) (s : DecState β) (octets : List UInt8)
    (s' : DecState β) : Prop where
  gathers : Gathers s.glob octets s'.glob
  reads : inv s.buf → inv s'.buf ∧ unread s.buf = octets ++ unread s'.buf ∧
    GenBuf.readError s'.buf = GenBuf.readError s.buf

theorem Refers.refl (s : DecState β) : Refers inv unread s [] s where
  gathers := .refl _
  reads holds := ⟨holds, rfl, rfl⟩

theorem Refers.trans {s s' s'' : DecState β} {octets more : List UInt8}
    (first : Refers inv unread s octets s') (later : Refers inv unread s' more s'') :
    Refers inv unread s (octets ++ more) s'' where
  gathers := first.gathers.trans later.gathers
  reads holds := by
    obtain ⟨holds', tape, error⟩ := first.reads holds
    obtain ⟨holds'', tape', error'⟩ := later.reads holds'
    exact ⟨holds'', by rw [tape, tape', List.append_assoc], error'.trans error⟩

/-- A segment in front of others that are referred to, which cover what it leaves of the request. -/
theorem Segments.refers (segments : Segments inv handles unread)
    (handled : ∀ {len}, len.toNat < 2 ^ 31 → handles len) {s s' : DecState β} {len k : UInt64}
    {str : Option Ptr} {b' : β} {more : List UInt8}
    (delivered : GenBuf.getSeg s.buf len = (str, k, b'))
    (later : Refers inv unread (DecState.pushStr { s with buf := b' } str k) more s')
    (covered : UInt64.ofNat more.length = len - k) (bounded : s'.glob.Bounded) :
    ∃ octets, UInt64.ofNat octets.length = len ∧ Refers inv unread s octets s' := by
  obtain ⟨before, earlier, few⟩ := later.gathers.bounded bounded
  obtain ⟨octets, followed, within⟩ := followed_of_gathered earlier
  have size : octets.length = k.toNat := StrStkElmt.length_octets followed
  have whole : UInt64.ofNat (octets ++ more).length = len := by
    rw [List.length_append, UInt64.ofNat_add, size, UInt64.ofNat_toNat, covered]
    grind
  -- What was asked for is no more than an `int` can count.
  have small : len.toNat < 2 ^ 31 := by
    rw [← whole, List.length_append, UInt64.toNat_ofNat_of_lt' (by rw [UInt64.size]; omega)]
    omega
  have pushed : Refers inv unread s octets (DecState.pushStr { s with buf := b' } str k) := by
    refine ⟨gathers_pushStr (s := { s with buf := b' }) followed, fun holds => ?_⟩
    exact segments.getSeg_followed holds (handled small) delivered followed
  exact ⟨_, whole, pushed.trans later⟩

/-- What is collected later is on top of what was collected before. -/
def Extends (s s' : DecState β) : Prop :=
  s.glob.strStkG.stk <:+ s'.glob.strStkG.stk

theorem octetPieceLoop_extends {len refdLen total : UInt64} {fuel : Nat} {s s' : DecState β}
    (ran : (octetPieceLoop len fuel refdLen total).run s = .ok () s') : Extends s s' := by
  induction fuel generalizing refdLen total s with
  | zero => cases ran
  | succ fuel ih =>
    rw [octetPieceLoop, EStateM.run_bind, run_bufGetSeg] at ran
    dsimp only at ran
    rw [EStateM.run_bind, run_pushStr] at ran
    dsimp only at ran
    have pushed : Extends s (DecState.pushStr { s with buf := (GenBuf.getSeg s.buf refdLen).2.2 }
        (GenBuf.getSeg s.buf refdLen).1 (GenBuf.getSeg s.buf refdLen).2.1) :=
      List.suffix_cons _ _
    split at ran
    · cases ran
      exact pushed
    split at ran
    · cases ran
    · exact pushed.trans (ih ran)

theorem bitPieceLoop_extends {lenToRef : UInt64} {fuel : Nat} {s s' : DecState β}
    (ran : (bitPieceLoop fuel lenToRef).run s = .ok () s') : Extends s s' := by
  induction fuel generalizing lenToRef s with
  | zero => cases ran
  | succ fuel ih =>
    rw [bitPieceLoop] at ran
    split at ran
    · rw [EStateM.run_bind, run_bufGetSeg] at ran
      dsimp only at ran
      split at ran
      · cases ran
      rw [EStateM.run_bind, run_pushStr] at ran
      dsimp only at ran
      have pushed : Extends s (DecState.pushStr { s with buf := (GenBuf.getSeg s.buf lenToRef).2.2 }
          (GenBuf.getSeg s.buf lenToRef).1 (GenBuf.getSeg s.buf lenToRef).2.1) :=
        List.suffix_cons _ _
      exact pushed.trans (ih ran)
    · cases ran
      exact List.suffix_refl _

/-- The octets of a piece are referred to segment by segment, as many as its length says. -/
theorem Segments.octetPieceLoop_refers (segments : Segments inv handles unread)
    (handled : ∀ {len}, len.toNat < 2 ^ 31 → handles len) {len total : UInt64} {fuel : Nat}
    {s s' : DecState β} (ran : (octetPieceLoop len fuel (len - total) total).run s = .ok () s')
    (bounded : s'.glob.Bounded) :
    ∃ octets, UInt64.ofNat octets.length = len - total ∧ Refers inv unread s octets s' := by
  -- The induction is on the segments; what the later ones cover tells how much the first one does.
  induction fuel generalizing total s with
  | zero => cases ran
  | succ fuel ih =>
    rw [octetPieceLoop, EStateM.run_bind, run_bufGetSeg] at ran
    dsimp only at ran
    rw [EStateM.run_bind, run_pushStr] at ran
    dsimp only at ran
    split at ran
    · rename_i last
      rw [beq_iff_eq] at last
      cases ran
      refine segments.refers handled rfl (.refl _) ?_ bounded
      rw [List.length_nil]
      grind
    split at ran
    · cases ran
    · obtain ⟨more, covered, later⟩ := ih ran
      refine segments.refers handled rfl later ?_ bounded
      rw [covered]
      grind

/-- So are those of a bit string piece behind its unused bits octet. -/
theorem Segments.bitPieceLoop_refers (segments : Segments inv handles unread)
    (handled : ∀ {len}, len.toNat < 2 ^ 31 → handles len) {lenToRef : UInt64} {fuel : Nat}
    {s s' : DecState β} (ran : (bitPieceLoop fuel lenToRef).run s = .ok () s')
    (bounded : s'.glob.Bounded) :
    ∃ octets, UInt64.ofNat octets.length = lenToRef ∧ Refers inv unread s octets s' := by
  induction fuel generalizing lenToRef s with
  | zero => cases ran
  | succ fuel ih =>
    rw [bitPieceLoop] at ran
    split at ran
    · rw [EStateM.run_bind, run_bufGetSeg] at ran
      dsimp only at ran
      split at ran
      · cases ran
      rw [EStateM.run_bind, run_pushStr] at ran
      dsimp only at ran
      obtain ⟨more, covered, later⟩ := ih ran
      exact segments.refers handled rfl later covered bounded
    · rename_i none
      cases ran
      have zero : lenToRef = 0 := UInt64.le_zero_iff.mp (UInt64.not_lt.mp none)
      exact ⟨[], by rw [zero]; rfl, .refl _⟩

/-! ## All pieces -/

/-- A decoder stands in front of octets, which those that are read beyond the end of the data, if any
are, follow. -/
def StandsAt (inv : β → Prop) (unread : β → List UInt8) (beyond tape : List UInt8)
    (s : DecState β) : Prop :=
  (decTape inv unread).valid s ∧ tape = unread s.buf ++ beyond ∨
    beyond ≠ [] ∧ inv s.buf ∧ GenBuf.readError s.buf = true ∧ tape = []

/-- What is done with a primitive piece reads its octets and collects something of them. -/
structure PieceReads (inv : β → Prop) (unread : β → List UInt8) (beyond : List UInt8)
    (after : Globals → List UInt8 → Globals → Prop) (piece : AsnLen → Dec β Unit) : Prop where
  onTop : ∀ {s s' len}, (piece len).run s = .ok () s' → Extends s s'
  reads : ∀ {s s' len}, (piece len).run s = .ok () s' → (decTape inv unread).valid s →
    s'.glob.Bounded → ∃ octets tape, UInt64.ofNat octets.length = len ∧ octets.length < 2 ^ 64 ∧
      unread s.buf ++ beyond = octets ++ tape ∧ StandsAt inv unread beyond tape s' ∧
      after s.glob octets s'.glob

/-- Something of several pieces has been collected. -/
inductive AfterAll (after : Globals → List UInt8 → Globals → Prop) :
    Globals → List (List UInt8) → Globals → Prop
  | nil {g : Globals} : AfterAll after g [] g
  | cons {g g' g'' : Globals} {octets : List UInt8} {leaves : List (List UInt8)}
      (first : after g octets g') (later : AfterAll after g' leaves g'') :
      AfterAll after g (octets :: leaves) g''

theorem AfterAll.append {after : Globals → List UInt8 → Globals → Prop} {g g' g'' : Globals}
    {pieces leaves : List (List UInt8)} (first : AfterAll after g pieces g')
    (later : AfterAll after g' leaves g'') : AfterAll after g (pieces ++ leaves) g'' := by
  induction first with
  | nil => exact later
  | cons here _ ih => exact .cons here (ih later)

theorem HasRead.glob {s s' : DecState β} (read : HasRead s s') : s'.glob = s.glob := by
  obtain ⟨m, -, rfl, -⟩ := read
  rfl

theorem HasRead.extends {s s' : DecState β} (read : HasRead s s') : Extends s s' := by
  obtain ⟨m, -, rfl, -⟩ := read
  exact List.suffix_refl _

theorem HasRead.clear (inOrder : InOrder inv handles unread) {s s' : DecState β} (read : HasRead s s')
    (holds : inv s.buf) : GenBuf.readError s.buf = false := by
  obtain ⟨k, some, rfl, clear⟩ := read
  obtain ⟨j, rfl⟩ := Nat.exists_eq_succ_of_ne_zero (Nat.ne_of_gt some)
  obtain ⟨c, rest, -, noError⟩ := inOrder.held_of_clear holds clear
  exact noError

theorem StandsAt.of_hasRead (inOrder : InOrder inv handles unread) {beyond tape : List UInt8}
    {s s' : DecState β} (stands : StandsAt inv unread beyond tape s) (read : HasRead s s') :
    (decTape inv unread).valid s ∧ tape = unread s.buf ++ beyond := by
  rcases stands with here | ⟨-, holds, failed, -⟩
  · exact here
  · rw [read.clear inOrder holds] at failed
    cases failed

section

variable {beyond : List UInt8} {after : Globals → List UInt8 → Globals → Prop} {tagCode : UInt32}
  {wrongTag : Exit} {piece : AsnLen → Dec β Unit}

/-- A collector only adds to what is collected. -/
theorem PieceReads.loop_extends (pieces : PieceReads inv unread beyond after piece) {fuel : Nat}
    {p : StkPos} {total : AsnLen} {s s' : DecState β}
    (ran : ((fillStringStk tagCode wrongTag piece).run .outOfTurns fuel p).run s = .ok total s') :
    Extends s s' := by
  induction fuel generalizing p total s s' with
  | zero => cases ran
  | succ fuel ih =>
    by_cases more : (fillStringStk tagCode wrongTag piece).test p = true
    · rw [Loop.run_of_test more] at ran
      cases turned : ((fillStringStk tagCode wrongTag piece).turn p).run s with
      | error e t => simp [turned] at ran
      | ok how t =>
        simp only [turned] at ran
        obtain ⟨tagId, n, s1, tagged, ⟨-, r, rfl, ended⟩ |
          ⟨len, u, s2, measured, ⟨-, rfl, taken⟩ | ⟨-, rfl, rfl⟩⟩⟩ := fillStringStk_turn_eq_ok turned
        · cases ran
          exact (bDecTag_hasRead tagged).extends.trans (bDec2ndEocOctet_hasRead ended).extends
        · exact ((bDecTag_hasRead tagged).extends.trans (bDecLen_hasRead measured).extends).trans
            ((pieces.onTop taken).trans (ih ran))
        · obtain ⟨inner, s3, inside, later⟩ := run_bind_eq_ok.mp ran
          exact ((bDecTag_hasRead tagged).extends.trans (bDecLen_hasRead measured).extends).trans
            ((ih inside).trans (ih later))
    · rw [Loop.run_of_not_test more] at ran
      cases ran
      exact List.suffix_refl _

/-- The second octet of an end of contents is zero. -/
theorem InOrder.bDec2ndEocOctet_read (inOrder : InOrder inv handles unread) {n m : AsnLen}
    {s s' : DecState β} (valid : (decTape inv unread).valid s)
    (ran : (bDec2ndEocOctet n).run s = .ok m s') :
    (decTape inv unread).valid s' ∧ unread s.buf = 0 :: unread s'.buf ∧ m = n + 1 := by
  rw [bDec2ndEocOctet, EStateM.run_bind, run_bufGetByte] at ran
  dsimp only at ran
  split at ran
  · simp at ran
  rename_i zero
  obtain ⟨rfl, clear, rfl⟩ := checked_eq_ok.mp ran
  obtain ⟨c, rest, held, -⟩ := inOrder.held_of_clear (k := 0) valid.1 clear
  obtain ⟨octet, valid', left⟩ := inOrder.getByte_held valid held
  rw [octet, bne_iff_ne, not_not] at zero
  exact ⟨valid', by rw [held, zero, left], rfl⟩

/-- A header with what is behind it, in front of which a decoder stands. -/
theorem InOrder.header_read (inOrder : InOrder inv handles unread) {tape : List UInt8}
    {n t u len : AsnLen} {tagId : AsnTag} {s s1 s2 : DecState β}
    (stands : StandsAt inv unread beyond tape s) (tagged : (bDecTag n).run s = .ok (tagId, t) s1)
    (measured : (bDecLen t).run s1 = .ok (len, u) s2) :
    (decTape inv unread).valid s2 ∧ ∃ tag length, TagRead tag tagId ∧ LenRead length len ∧
      tape = tag ++ (length ++ (unread s2.buf ++ beyond)) ∧
      u = n + UInt64.ofNat (tag ++ length).length ∧ s2.glob = s.glob := by
  obtain ⟨valid, rfl⟩ := stands.of_hasRead inOrder (bDecTag_hasRead tagged)
  obtain ⟨valid1, tag, isTag, tape1, rfl⟩ := inOrder.bDecTag_recognises.sound valid tagged
  obtain ⟨valid2, length, isLength, tape2, rfl⟩ := inOrder.bDecLen_recognises.sound valid1 measured
  refine ⟨valid2, tag, length, isTag, isLength, ?_, ?_,
    (bDecLen_hasRead measured).glob.trans (bDecTag_hasRead tagged).glob⟩
  · rw [show unread s.buf = _ from tape1, show (decTape inv unread).unread s1 = _ from tape2,
      List.append_assoc, List.append_assoc]
    rfl
  · rw [List.length_append]
    exact (decTape inv unread).advance_add n tag.length length.length

/-- A collector passes over elements, collecting something of their leaves in order. -/
theorem PieceReads.loop_passed (pieces : PieceReads inv unread beyond after piece)
    (inOrder : InOrder inv handles unread) {fuel : Nat} {p : StkPos} {total : AsnLen}
    {s s' : DecState β} {tape : List UInt8} (stands : StandsAt inv unread beyond tape s)
    (ran : ((fillStringStk tagCode wrongTag piece).run .outOfTurns fuel p).run s = .ok total s')
    (bounded : s'.glob.Bounded) :
    ∃ w leaves tape', Passed tagCode (fun _ _ => True) p.elmtLen0 p.totalElmtsLen1 w leaves ∧
      tape = w ++ tape' ∧ StandsAt inv unread beyond tape' s' ∧
      total = p.totalElmtsLen1 + UInt64.ofNat w.length ∧ AfterAll after s.glob leaves s'.glob := by
  -- The induction is on the turns, one after another or inside one another.
  induction fuel generalizing p total s s' tape with
  | zero => cases ran
  | succ fuel ih =>
    by_cases more : (fillStringStk tagCode wrongTag piece).test p = true
    · rw [Loop.run_of_test more] at ran
      cases turned : ((fillStringStk tagCode wrongTag piece).turn p).run s with
      | error e t => simp [turned] at ran
      | ok how t =>
        simp only [turned] at ran
        obtain ⟨tagId, n, s1, tagged, ⟨⟨rfl, isIndefinite⟩, r, rfl, ended⟩ |
          ⟨len, u, s2, measured, ⟨rfl, rfl, taken⟩ | ⟨⟨-, rfl⟩, rfl, rfl⟩⟩⟩ :=
            fillStringStk_turn_eq_ok turned
        · -- The end of contents.
          cases ran
          obtain ⟨valid, rfl⟩ := stands.of_hasRead inOrder (bDecTag_hasRead tagged)
          obtain ⟨valid1, tag, isTag, tape1, rfl⟩ := inOrder.bDecTag_recognises.sound valid tagged
          obtain ⟨valid', zero, rfl⟩ := inOrder.bDec2ndEocOctet_read valid1 ended
          refine ⟨tag ++ [0], [], unread s'.buf ++ beyond, ?_, ?_, .inl ⟨valid', rfl⟩, ?_, ?_⟩
          · rw [isIndefinite]
            exact .eoc isTag
          · rw [show unread s.buf = _ from tape1, show (decTape inv unread).unread s1 = _ from zero]
            simp only [List.append_assoc, List.cons_append, List.nil_append]
          · rw [List.length_append, UInt64.ofNat_add, ← UInt64.add_assoc]
            rfl
          · rw [(bDec2ndEocOctet_hasRead ended).glob, (bDecTag_hasRead tagged).glob]
            exact .nil
        · -- A primitive piece.
          obtain ⟨valid2, tag, length, isTag, isLength, rfl, rfl, same⟩ :=
            inOrder.header_read stands tagged measured
          obtain ⟨octets, tape1, rfl, few, held, stands', collected⟩ :=
            pieces.reads taken valid2 (bounded.of_suffix (pieces.loop_extends ran))
          obtain ⟨w, leaves, tape', passed, rfl, stands'', rfl, later⟩ := ih stands' ran bounded
          have size : octets.length = (UInt64.ofNat octets.length).toNat :=
            (UInt64.toNat_ofNat_of_lt' few).symm
          have count : p.totalElmtsLen1 + UInt64.ofNat (tag ++ length).length +
              UInt64.ofNat octets.length =
                p.totalElmtsLen1 + UInt64.ofNat (tag ++ (length ++ octets)).length := by
            rw [UInt64.add_assoc, ← UInt64.ofNat_add, ← List.length_append, List.append_assoc]
          rw [count] at passed
          refine ⟨tag ++ (length ++ (octets ++ w)), octets :: leaves, tape',
            .leaf more isTag isLength size trivial passed, ?_, stands'', ?_, ?_⟩
          · rw [held]
            simp only [List.append_assoc]
          · rw [count, UInt64.add_assoc, ← UInt64.ofNat_add, ← length_element]
          · rw [same] at collected
            exact .cons collected later
        · -- An inner string.
          obtain ⟨inner, s3, inside, after⟩ := run_bind_eq_ok.mp ran
          obtain ⟨valid2, tag, length, isTag, isLength, rfl, rfl, same⟩ :=
            inOrder.header_read stands tagged measured
          obtain ⟨w1, pieces1, tape1, contents, held, stands', rfl, collected⟩ :=
            ih (.inl ⟨valid2, rfl⟩) inside (bounded.of_suffix (pieces.loop_extends after))
          obtain ⟨w, leaves, tape', passed, rfl, stands'', rfl, later⟩ := ih stands' after bounded
          have count : p.totalElmtsLen1 + UInt64.ofNat (tag ++ length).length +
              (0 + UInt64.ofNat w1.length) =
                p.totalElmtsLen1 + UInt64.ofNat (tag ++ (length ++ w1)).length := by
            rw [UInt64.zero_add, UInt64.add_assoc, ← UInt64.ofNat_add, ← List.length_append,
              List.append_assoc]
          dsimp only at passed
          rw [count] at passed
          refine ⟨tag ++ (length ++ (w1 ++ w)), pieces1 ++ leaves, tape',
            .inner more isTag isLength contents trivial passed, ?_, stands'', ?_, ?_⟩
          · rw [held]
            simp only [List.append_assoc]
          · dsimp only
            rw [count, UInt64.add_assoc, ← UInt64.ofNat_add, ← length_element]
          · rw [same] at collected
            exact collected.append later
    · rw [Loop.run_of_not_test more] at ran
      cases ran
      exact ⟨[], [], tape, .done more, rfl, stands, (UInt64.add_zero _).symm, .nil⟩

/-- A collector that begins behind a read error has nothing to do. -/
theorem InOrder.loop_of_failed (inOrder : InOrder inv handles unread) {tagCode : UInt32}
    {wrongTag : Exit} {piece : AsnLen → Dec β Unit} {fuel : Nat} {p : StkPos} {total : AsnLen}
    {s s' : DecState β} (holds : inv s.buf) (failed : GenBuf.readError s.buf = true)
    (ran : ((fillStringStk tagCode wrongTag piece).run .outOfTurns fuel p).run s = .ok total s') :
    ¬ p.more = true ∧ total = p.totalElmtsLen1 ∧ s' = s := by
  cases fuel with
  | zero => cases ran
  | succ fuel =>
    by_cases more : (fillStringStk tagCode wrongTag piece).test p = true
    · rw [Loop.run_of_test more] at ran
      cases turned : ((fillStringStk tagCode wrongTag piece).turn p).run s with
      | error e t => simp [turned] at ran
      | ok how t =>
        obtain ⟨tagId, n, s1, tagged, -⟩ := fillStringStk_turn_eq_ok turned
        have clear := (bDecTag_hasRead tagged).clear inOrder holds
        rw [failed] at clear
        cases clear
    · rw [Loop.run_of_not_test more] at ran
      cases ran
      exact ⟨more, rfl, rfl⟩

end

end Esnacc
