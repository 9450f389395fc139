import Esnacc.Cxx.ContentAccounting
import Esnacc.Cxx.Fragments
import Esnacc.Cxx.Pieces

/-! The bits that the C++ library has of the contents of a BIT STRING. -/

namespace Esnacc.Cxx

open Lib

/-! ## Bit strings and their pieces -/

/-- A piece of a bit string: the octet that tells how many bits are unused, and those of the bits. -/
structure BitPiece where
  unused : UInt8
  octets : List UInt8

namespace BitPiece

/-- The octets of a piece. -/
@[grind =] def contents (piece : BitPiece) : List UInt8 :=
  piece.unused :: piece.octets

/-- The bits that are used. -/
def bits (piece : BitPiece) : List Bool :=
  (piece.octets.flatMap bitsOf).take (8 * piece.octets.length - piece.unused.toNat)

/-- Only bits of a last octet can be unused. -/
def Valid (piece : BitPiece) : Prop :=
  piece.unused ≤ 7 ∧ (piece.octets = [] → piece.unused = 0)

theorem length_bits (piece : BitPiece) :
    piece.bits.length = 8 * piece.octets.length - piece.unused.toNat := by
  rw [bits, List.length_take, length_flatMap_bitsOf]
  omega

end BitPiece

/-- Pieces one after the other, the contents of a constructed bit string. -/
inductive BitPieces where
  | nil
  | primitive (len : List UInt8) (piece : BitPiece) (rest : BitPieces)
  | definite (len : List UInt8) (inner rest : BitPieces)
  | indefinite (inner rest : BitPieces)

namespace BitPieces

/-- The octets of pieces. -/
def encode : BitPieces → List UInt8
  | nil => []
  | primitive len piece rest => 3 :: (len ++ (piece.contents ++ rest.encode))
  | definite len inner rest => 0x23 :: (len ++ (inner.encode ++ rest.encode))
  | indefinite inner rest => 0x23 :: 0x80 :: (inner.encode ++ 0 :: 0 :: rest.encode)

/-- The primitive pieces in order. -/
@[grind =] def leaves : BitPieces → List BitPiece
  | nil => []
  | primitive _ piece rest => piece :: rest.leaves
  | definite _ inner rest => inner.leaves ++ rest.leaves
  | indefinite inner rest => inner.leaves ++ rest.leaves

/-- Every length is the number of octets it stands in front of. -/
def WellFormed : BitPieces → Prop
  | nil => True
  | primitive len piece rest => IsLength len piece.contents.length ∧ rest.WellFormed
  | definite len inner rest =>
    IsLength len inner.encode.length ∧ inner.WellFormed ∧ rest.WellFormed
  | indefinite inner rest => inner.WellFormed ∧ rest.WellFormed

/-- All pieces are primitive. -/
def Flat : BitPieces → Prop
  | nil => True
  | primitive _ _ rest => rest.Flat
  | definite _ _ _ => False
  | indefinite _ _ => False

end BitPieces

/-- The primitive pieces of contents, which are one themselves unless the form is constructed. -/
def ContentPieces (tagId : AsnTag) (contents : List UInt8) (pieces : List BitPiece) : Prop :=
  if tagIsCons tagId then ∃ p : BitPieces, p.WellFormed ∧ contents = p.encode ∧ pieces = p.leaves
  else ∃ piece : BitPiece, contents = piece.contents ∧ pieces = [piece]

/-- Only the last piece has unused bits. -/
def OnlyLastUnused (pieces : List BitPiece) : Prop :=
  ∀ piece ∈ pieces.dropLast, piece.unused = 0

/-- A bit string has the bits of pieces, as many as can be counted, and no further octets. -/
def AsnBits.HasPieces (x : AsnBits) (pieces : List BitPiece) : Prop :=
  (∀ piece ∈ pieces, piece.Valid) ∧ (pieces.flatMap BitPiece.bits).length < 2 ^ 64 ∧
    x.Has (pieces.flatMap BitPiece.bits)

/-- What is decoded is the bit string that the contents encode. -/
def DecodesBits (tagId : AsnTag) (contents : List UInt8) (x : AsnBits) : Prop :=
  ∃ pieces, ContentPieces tagId contents pieces ∧ OnlyLastUnused pieces ∧ x.HasPieces pieces

/-! ## The primitive form -/

/-- What is decoded from primitive contents: their octets behind the first one. -/
theorem bDecPrimBits_returns {b b' : AsnBuf} (sound : b.Sound) {elmtLen n n' : AsnLen} {x : AsnBits}
    (ran : (bDecPrimBits elmtLen n).run b = .ok (x, n') b') :
    ∃ piece : BitPiece, b.unread.take elmtLen.toNat = piece.contents ∧ piece.unused ≤ 7 ∧
      x = ⟨.ofNat piece.octets.length * 8 - piece.unused.toUInt64, piece.octets⟩ := by
  rw [bDecPrimBits] at ran
  by_cases endless : elmtLen = INDEFINITE_LEN
  · rw [if_pos endless] at ran
    cases ran
  rw [if_neg endless] at ran
  obtain ⟨total, b1, measured, rest⟩ := run_bind_eq_ok.mp ran
  obtain ⟨sound1, -, left1⟩ := (length_takes sound measured).1
  by_cases wrong : total < elmtLen ∨ elmtLen = 0
  · simp only [if_pos wrong] at rest
    cases rest
  simp only [if_neg wrong] at rest
  obtain ⟨unused, b2, read, rest⟩ := run_bind_eq_ok.mp rest
  obtain ⟨⟨sound2, -, left2⟩, front⟩ := getByte_takes sound1 read
  by_cases large : 7 < unused
  · simp only [if_pos large] at rest
    cases rest
  simp only [if_neg large] at rest
  obtain ⟨bits, b3, octets, rest⟩ := run_bind_eq_ok.mp rest
  obtain ⟨-, same⟩ := run_pure_eq_ok.mp rest
  obtain ⟨⟨-, within, -⟩, seg⟩ := getUSeg_takes sound2 octets
  -- The octet in front and the segment are what the length asks for.
  have size := toNat_pred fun zero => wrong (.inr zero)
  have count : bits.length = (elmtLen - 1).toNat := by
    rw [seg, List.length_take]
    omega
  obtain ⟨tail, split⟩ : ∃ tail, b.unread = unused :: tail := by
    rw [left1, List.drop_zero] at front
    cases unread : b.unread with
    | nil =>
      rw [unread] at front
      cases front
    | cons first tail =>
      rw [unread] at front
      exact ⟨tail, by rw [Option.some.inj front]⟩
  refine ⟨⟨unused, bits⟩, ?_, UInt8.not_lt.mp large, ?_⟩
  · rw [left2, left1, List.drop_zero, split, List.drop_one, List.tail_cons] at seg
    rw [split, ← size, Nat.add_comm, List.take_succ_cons, ← seg]
    rfl
  · have word : UInt64.ofNat bits.length = elmtLen - 1 := by rw [count, UInt64.ofNat_toNat]
    rw [(Prod.mk.inj same).1]
    dsimp only
    rw [word]

/-- The bits that are computed for octets are those of the piece unless there is none, or too many. -/
theorem hasPieces_singleton_iff {piece : BitPiece} (few : piece.unused ≤ 7)
    (small : piece.octets.length < 2 ^ 63) :
    AsnBits.HasPieces ⟨.ofNat piece.octets.length * 8 - piece.unused.toUInt64, piece.octets⟩ [piece] ↔
      piece.Valid ∧ piece.bits.length < 2 ^ 64 := by
  have most : piece.unused.toNat ≤ 7 := few
  have size := piece.length_bits
  have number : (UInt64.ofNat piece.octets.length * 8 - piece.unused.toUInt64).toNat =
      (2 ^ 64 - piece.unused.toNat + piece.octets.length * 8 % 2 ^ 64) % 2 ^ 64 := by
    rw [UInt64.toNat_sub, UInt64.toNat_mul, UInt64.toNat_ofNat', UInt8.toNat_toUInt64]
    change (_ + piece.octets.length % 2 ^ 64 * 8 % 2 ^ 64) % 2 ^ 64 = _
    omega
  rw [AsnBits.HasPieces, List.forall_mem_singleton, List.flatMap_singleton]
  constructor
  · rintro ⟨valid, counted, -⟩
    exact ⟨valid, counted⟩
  · rintro ⟨valid, counted⟩
    have some : piece.octets.length = 0 → piece.unused.toNat = 0 := by
      intro empty
      rw [valid.2 (List.length_eq_zero_iff.mp empty)]
      rfl
    refine ⟨valid, counted, ?_, ?_, ?_⟩
    · dsimp only
      rw [← UInt64.toNat_inj, number, UInt64.toNat_ofNat', size]
      omega
    · dsimp only
      omega
    · dsimp only
      rw [size]
      rfl

/-! ## The constructed form -/

/-- What the collector keeps of a piece. -/
def BitPiece.pair (piece : BitPiece) : StringPair :=
  (some piece.contents, .ofNat piece.contents.length)

theorem isTag_three : IsTag [3] :=
  .inl ⟨3, rfl, by decide⟩

/-- Primitive pieces that are collected are kept in order. -/
theorem BitPieces.kept_of_ran {p : BitPieces} (wellFormed : p.WellFormed) (flat : p.Flat)
    {b b' : AsnBuf} {st : Collector} {turns passed : Nat} {strDeck : List StringPair}
    {data : List UInt8} (sound : b.Sound) (unread : b.unread = p.encode ++ data)
    (inside : passed + p.encode.length < 2 ^ 64 - 1)
    (ran : (fillTurns BITSTRING_TAG_CODE turns
      (.at_ [] (nodeOf (some (passed + p.encode.length)) passed) strDeck)).run b = .ok st b') :
    st.strDeck = strDeck ++ p.leaves.map BitPiece.pair := by
  induction p generalizing b passed strDeck turns with
  | nil =>
    rw [encode, List.length_nil, Nat.add_zero] at ran inside
    cases turns with
    | zero => cases ran
    | succ turns =>
      have ended := not_more_of_le (Nat.le_refl passed) inside (by omega)
      obtain ⟨st', acts, kept, -⟩ := fillTurns_done BITSTRING_TAG_CODE [] strDeck turns sound ended
      have same := (acts.eq_of_ok ran).1
      cases same
      rw [kept, leaves, List.map_nil, List.append_nil]
  | primitive len piece rest ih =>
    obtain ⟨isLength, wellFormed⟩ := wellFormed
    have size : (primitive len piece rest).encode.length =
        1 + len.length + piece.contents.length + rest.encode.length := by
      simp only [encode, List.length_cons, List.length_append]
      omega
    rw [size] at ran inside
    rw [encode, List.cons_append, List.append_assoc, List.append_assoc] at unread
    have more : (nodeOf (some (passed + (1 + len.length + piece.contents.length +
        rest.encode.length))) passed).more = true := by
      refine Inside.more (n := passed + 1) ?_ (Nat.lt_succ_self _)
      rintro l ⟨⟩
      exact ⟨by omega, by omega⟩
    cases turns with
    | zero => cases ran
    | succ turns =>
      by_cases short : len.length ≤ 9
      · -- The piece is put in the deck, and the others follow.
        have turn := fillTurn_primitive BITSTRING_TAG_CODE [] (nodeOf (some (passed + (1 +
          len.length + piece.contents.length + rest.encode.length))) passed) strDeck sound
          isTag_three (by decide) isLength short unread
          (fun both => absurd both.1 (by decide)) (.inl (by decide))
        rw [show (nodeOf _ passed).count = UInt64.ofNat passed from rfl, ← UInt64.ofNat_add] at turn
        have shrinks : (rest.encode ++ data).length ≤ b.unread.length := by
          rw [unread]
          simp only [List.length_cons, List.length_append]
          omega
        obtain ⟨mid, soundMid, left, same⟩ := fillTurns_of_turn sound more turn shrinks
        rw [same] at ran
        have place : passed + (1 + len.length + piece.contents.length + rest.encode.length) =
            passed + (1 + len.length + piece.contents.length) + rest.encode.length := by
          omega
        rw [place] at ran
        have kept := ih wellFormed flat soundMid left (by omega) ran
        rw [kept, leaves, List.map_cons, List.append_assoc]
        rfl
      · -- A longer length is not read.
        obtain ⟨_, failed⟩ := fillTurn_long BITSTRING_TAG_CODE [] (nodeOf (some (passed + (1 +
          len.length + piece.contents.length + rest.encode.length))) passed) strDeck (c := 3) sound
          (by decide) unread (by decide) (.inl (by decide)) fun b' sound' left =>
            bDecLen_long sound' isLength (Nat.lt_of_not_le short) left
        rw [fillTurns_of_error more failed] at ran
        cases ran
  | definite len inner rest => exact flat.elim
  | indefinite inner rest => exact flat.elim

/-- Where the check of the unused bits passes, only the last piece has some. -/
theorem onlyLastUnused_of_ok {pieces : List BitPiece}
    (passes : unusedBitsAreZero (pieces.map BitPiece.pair) = .ok ()) : OnlyLastUnused pieces := by
  induction pieces with
  | nil => exact fun _ isIn => absurd isIn List.not_mem_nil
  | cons piece rest ih =>
    cases rest with
    | nil => exact fun _ isIn => absurd isIn List.not_mem_nil
    | cons next rest =>
      rw [List.map_cons, List.map_cons, BitPiece.pair, BitPiece.contents, unusedBitsAreZero] at passes
      by_cases used : piece.unused = 0
      · rw [if_neg (not_not.2 used)] at passes
        intro other isIn
        rw [List.dropLast_cons_cons, List.mem_cons] at isIn
        rcases isIn with rfl | later
        · exact used
        · exact ih passes other later
      · rw [if_pos used] at passes
        cases passes

/-- Constructed contents that are accepted leave the object as it is, and are checked if they are
primitive pieces. -/
theorem bDecConsBits_returns {b b' : AsnBuf} (sound : b.Sound) {turns : Nat} {elmtLen n n' : AsnLen}
    {x x' : AsnBits} (ran : (x.bDecConsBits turns elmtLen n).run b = .ok (x', n') b') :
    x' = x ∧ ∀ p : BitPieces, p.WellFormed → p.Flat → elmtLen ≠ INDEFINITE_LEN →
      b.unread.take elmtLen.toNat = p.encode → elmtLen.toNat ≤ b.unread.length →
      OnlyLastUnused p.leaves := by
  rw [AsnBits.bDecConsBits] at ran
  obtain ⟨⟨deck, count⟩, b1, filled, rest⟩ := run_bind_eq_ok.mp ran
  dsimp only at rest
  cases passes : unusedBitsAreZero deck with
  | error thrown =>
    rw [passes] at rest
    cases rest
  | ok u =>
    rw [passes, ofExcept_ok, pure_bind] at rest
    obtain ⟨-, same⟩ := run_pure_eq_ok.mp rest
    refine ⟨(Prod.mk.inj same).1, fun p wellFormed flat known front within => ?_⟩
    rw [fill] at filled
    obtain ⟨st, b2, turned, kept⟩ := run_bind_eq_ok.mp filled
    obtain ⟨-, same⟩ := run_pure_eq_ok.mp kept
    have size : p.encode.length = elmtLen.toNat := by
      rw [← front, List.length_take]
      omega
    have top : INDEFINITE_LEN.toNat = 18446744073709551615 := rfl
    have word := elmtLen.toNat_lt
    have other : elmtLen.toNat ≠ INDEFINITE_LEN.toNat := fun same => known (UInt64.toNat_inj.mp same)
    have start : (⟨[⟨elmtLen, 0⟩], 0, []⟩ : Collector) =
        .at_ [] (nodeOf (some (0 + p.encode.length)) 0) [] := by
      rw [Nat.zero_add, size, nodeOf, formLen, UInt64.ofNat_toNat]
      rfl
    rw [start] at turned
    have unread : b.unread = p.encode ++ b.unread.drop elmtLen.toNat := by
      rw [← front, List.take_append_drop]
    have strDeck := p.kept_of_ran wellFormed flat sound unread (by omega) turned
    rw [List.nil_append] at strDeck
    rw [(Prod.mk.inj same).1, strDeck] at passes
    exact onlyLastUnused_of_ok passes

/-! ## Both forms -/

/-- Contents whose bits are decoded: primitive ones of a bit string, or pieces of the bits that the
object has before. -/
def KeepsBits (tagId : AsnTag) (contents : List UInt8) (x : AsnBits) : Prop :=
  if tagIsCons tagId then
    ∃ p : BitPieces, p.WellFormed ∧ contents = p.encode ∧ (p.Flat ∨ OnlyLastUnused p.leaves) ∧
      x.HasPieces p.leaves
  else ∃ piece : BitPiece, contents = piece.contents ∧ (piece.octets = [] → piece.unused = 0) ∧
    piece.bits.length < 2 ^ 64

/--
What is decoded is the bit string of the contents exactly if they are primitive, with no bits unused
where there are none, or the object had the bits of the pieces before.
-/
theorem decodesBits_iff {b b' : AsnBuf} {turns : Nat} {x x' : AsnBits} {tagId : AsnTag}
    {elmtLen n n' : AsnLen} (sound : b.Sound)
    (ran : (x.bDecContent turns tagId elmtLen n).run b = .ok (x', n') b') :
    DecodesBits tagId (b.unread.take elmtLen.toNat) x' ↔
      KeepsBits tagId (b.unread.take elmtLen.toNat) x := by
  rw [AsnBits.bDecContent] at ran
  by_cases endless : elmtLen = INDEFINITE_LEN
  · simp only [if_pos endless] at ran
    cases ran
  simp only [if_neg endless] at ran
  obtain ⟨total, b1, measured, rest⟩ := run_bind_eq_ok.mp ran
  obtain ⟨⟨sound1, -, left1⟩, count⟩ := length_takes sound measured
  rw [List.drop_zero] at left1
  by_cases short : total < elmtLen
  · simp only [if_pos short] at rest
    cases rest
  simp only [if_neg short] at rest
  have within : elmtLen.toNat ≤ b1.unread.length := by
    rw [left1, ← count]
    exact Nat.le_of_not_lt short
  rw [← left1]
  cases constructed : tagIsCons tagId with
  | true =>
    simp only [constructed, if_true] at rest
    obtain ⟨rfl, checked⟩ := bDecConsBits_returns sound1 rest
    simp only [DecodesBits, ContentPieces, KeepsBits, constructed, if_true]
    constructor
    · rintro ⟨_, ⟨p, wellFormed, front, rfl⟩, only, has⟩
      exact ⟨p, wellFormed, front, .inr only, has⟩
    · rintro ⟨p, wellFormed, front, flat | only, has⟩
      · exact ⟨p.leaves, ⟨p, wellFormed, front, rfl⟩,
          checked p wellFormed flat endless front within, has⟩
      · exact ⟨p.leaves, ⟨p, wellFormed, front, rfl⟩, only, has⟩
  | false =>
    simp only [constructed, Bool.false_eq_true, if_false] at rest
    obtain ⟨piece, front, few, rfl⟩ := bDecPrimBits_returns sound1 rest
    have small : piece.octets.length < 2 ^ 63 := by
      have sizes := congrArg List.length front
      have fits := sound1.fits
      rw [List.length_take, BitPiece.contents, List.length_cons] at sizes
      omega
    have has := hasPieces_singleton_iff few small
    simp only [DecodesBits, ContentPieces, KeepsBits, constructed, Bool.false_eq_true, if_false, front]
    constructor
    · rintro ⟨_, ⟨other, same, rfl⟩, -, valid⟩
      obtain ⟨unused, octets⟩ := other
      obtain ⟨rfl, rfl⟩ := List.cons.inj same
      obtain ⟨⟨-, some⟩, counted⟩ := has.1 valid
      exact ⟨piece, rfl, some, counted⟩
    · rintro ⟨other, same, some, counted⟩
      obtain ⟨unused, octets⟩ := other
      obtain ⟨rfl, rfl⟩ := List.cons.inj same
      exact ⟨[piece], ⟨piece, rfl, rfl⟩, fun _ isIn => absurd isIn List.not_mem_nil,
        has.2 ⟨⟨few, some⟩, counted⟩⟩

/-- Four bits in one octet are decoded. -/
theorem decodesBits_iff_four :
    DecodesBits (makeTagId UNIV PRIM BITSTRING_TAG_CODE)
      ((AsnBuf.ofSeg [4, 0xA0]).unread.take (UInt64.toNat 2)) ⟨4, [0xA0]⟩ := by
  have sound : (AsnBuf.ofSeg [4, 0xA0]).Sound := AsnBuf.ofSeg_sound (by decide) (by decide)
  obtain ⟨b', ran⟩ : ∃ b', (AsnBits.bDecContent 0 ⟨0, []⟩ (makeTagId UNIV PRIM BITSTRING_TAG_CODE) 2
      0).run (.ofSeg [4, 0xA0]) = .ok (⟨4, [0xA0]⟩, 2) b' := ⟨_, rfl⟩
  exact (decodesBits_iff sound ran).2 ⟨⟨4, [0xA0]⟩, rfl, nofun, by decide⟩

/-- The bits of constructed contents are dropped. -/
theorem not_decodesBits :
    ¬ ∀ (b b' : AsnBuf) (turns : Nat) (x x' : AsnBits) (tagId : AsnTag) (elmtLen n n' : AsnLen),
      b.Sound → (x.bDecContent turns tagId elmtLen n).run b = .ok (x', n') b' →
      DecodesBits tagId (b.unread.take elmtLen.toNat) x' := by
  intro decodes
  have sound : (AsnBuf.ofSeg [3, 2, 0, 0xA0]).Sound := AsnBuf.ofSeg_sound (by decide) (by decide)
  obtain ⟨pieces, content, -, valid, -, has⟩ := decodes (.ofSeg [3, 2, 0, 0xA0]) _ 2 ⟨0, []⟩ _
    (makeTagId UNIV CONS BITSTRING_TAG_CODE) 4 0 _ sound rfl
  have none := has.octets
  rw [List.length_nil] at none
  obtain ⟨p, wellFormed, front, rfl⟩ := content
  cases p with
  | nil => cases front
  | definite len inner rest => cases front
  | indefinite inner rest => cases front
  | primitive len piece rest =>
    have same : [2, 0, 0xA0] = len ++ (piece.contents ++ rest.encode) := (List.cons.inj front).2
    rcases wellFormed.1 with ⟨c, rfl, -, size⟩ | ⟨c, more, rfl, above, -⟩
    · -- The length is two, so there is an octet of bits, and not all of them are unused.
      obtain ⟨rfl, -⟩ := List.cons.inj same
      have few : piece.unused.toNat ≤ 7 := (valid piece List.mem_cons_self).1
      rw [BitPiece.contents, List.length_cons] at size
      rw [BitPieces.leaves, List.flatMap_cons, List.length_append, piece.length_bits] at none
      change 2 = _ at size
      omega
    · obtain ⟨rfl, -⟩ := List.cons.inj same
      exact absurd above (by decide)

end Esnacc.Cxx
