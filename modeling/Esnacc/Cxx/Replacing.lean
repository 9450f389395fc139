import Esnacc.Cxx.PerStrings

/-! Which decodings replace the value that an object held before, and which ones do not. -/

namespace Esnacc.Cxx

open Lib

/-- The octets of some pieces are put behind any string in the same way. -/
theorem collapse_append (strDeck : List StringPair) (str : List UInt8) :
    collapse strDeck str = (collapse strDeck []).map (str ++ ·) := by
  induction strDeck generalizing str with
  | nil => simp [collapse, pure, Except.pure, Except.map]
  | cons piece rest ih =>
    obtain ⟨octets, len⟩ := piece
    cases octets with
    | some seg =>
      rw [collapse, collapse, ih, ih ([] ++ _)]
      cases collapse rest [] with
      | error thrown => rfl
      | ok more => simp [Except.map]
    | none =>
      simp only [collapse]
      by_cases empty : len = 0
      · simp only [if_pos empty]
        exact ih str
      · simp only [if_neg empty]
        rfl

/-- A tag and a length are read from a buffer. -/
def Header (b : AsnBuf) (n : AsnLen) (tag : AsnTag) (len n' : AsnLen) (b' : AsnBuf) : Prop :=
  ∃ mid b1, (bDecTag n).run b = .ok (tag, mid) b1 ∧ (bDecLen mid).run b1 = .ok (len, n') b'

/-! ## OCTET STRING -/

/--
An octet string that adds to the old octets: an empty one, or one whose pieces are all collected.

An empty one leaves the old octets alone, and the octets of pieces go behind them.
-/
def AsnOcts.Adds (turns : Nat) (b : AsnBuf) (n : AsnLen) : Prop :=
  ∃ tag len n' b', Header b n tag len n' b' ∧
    (tag = makeTagId UNIV PRIM OCTETSTRING_TAG_CODE ∨
      tag = makeTagId UNIV CONS OCTETSTRING_TAG_CODE) ∧
    (len = 0 ∨ tagIsCons tag ∧ ∃ strDeck n'' b'' octets,
      (fill turns OCTETSTRING_TAG_CODE len n').run b' = .ok (strDeck, n'') b'' ∧
        collapse strDeck [] = .ok octets)

/-- Pieces that are collected are put behind the old octets. -/
theorem AsnOcts.replaces_bDecConsOcts_iff {turns : Nat} {len n : AsnLen} {b : AsnBuf} :
    Replaces (fun x : AsnOcts => x.bDecConsOcts turns len n) b ↔
      ¬ ∃ strDeck n' b' octets,
        (fill turns OCTETSTRING_TAG_CODE len n).run b = .ok (strDeck, n') b' ∧
          collapse strDeck [] = .ok octets := by
  unfold AsnOcts.bDecConsOcts
  rw [replaces_bind_iff]
  constructor
  · rintro replaces ⟨strDeck, n', b', octets, filled, collapsed⟩
    -- An object without octets and one with an octet differ afterwards.
    have alike := replaces (strDeck, n') b' filled ⟨[]⟩ ⟨[0]⟩
    dsimp only at alike
    rw [collapse_append strDeck [0], collapsed] at alike
    simp [SameValue, Except.map, ofExcept_ok] at alike
  · rintro none ⟨strDeck, n'⟩ b' filled x x'
    dsimp only
    cases collapsed : collapse strDeck [] with
    | ok octets => exact absurd ⟨strDeck, n', b', octets, filled, collapsed⟩ none
    | error thrown =>
      -- A piece that could not be had is missed in any object.
      rw [collapse_append strDeck x.mStr, collapse_append strDeck x'.mStr, collapsed]
      trivial

/-- The contents of an octet string replace the old octets unless they are empty or collected. -/
theorem AsnOcts.replaces_bDecContent_iff {turns : Nat} {tag : AsnTag} {len n : AsnLen}
    {b : AsnBuf} :
    Replaces (fun x : AsnOcts => x.bDecContent turns tag len n) b ↔
      ¬ (len = 0 ∨ tagIsCons tag ∧ ∃ strDeck n' b' octets,
        (fill turns OCTETSTRING_TAG_CODE len n).run b = .ok (strDeck, n') b' ∧
          collapse strDeck [] = .ok octets) := by
  unfold AsnOcts.bDecContent
  by_cases empty : len = 0
  · simp only [empty, ne_eq, not_true_eq_false, if_false, true_or, iff_false]
    intro replaces
    have alike : (⟨[]⟩ : AsnOcts) = ⟨[0]⟩ := replaces ⟨[]⟩ ⟨[0]⟩
    cases alike
  · simp only [if_pos empty, empty, false_or]
    cases tagIsCons tag with
    | true =>
      simp only [if_true, true_and]
      exact replaces_bDecConsOcts_iff
    | false =>
      simp only [Bool.false_eq_true, if_false, false_and, not_false_eq_true, iff_true]
      exact replaces_of_const _ b

/-- Reading an octet string replaces the old octets unless it adds to them. -/
theorem AsnOcts.replaces_bDec_iff {turns : Nat} {n : AsnLen} {b : AsnBuf} :
    Replaces (fun x : AsnOcts => x.bDec turns n) b ↔ ¬ AsnOcts.Adds turns b n := by
  unfold AsnOcts.bDec
  rw [replaces_bind_iff]
  constructor
  · rintro replaces ⟨tag, len, n', b', ⟨mid, b1, tagged, measured⟩, right, adds⟩
    have later := replaces (tag, mid) b1 tagged
    have known : ¬ (tag ≠ makeTagId UNIV PRIM OCTETSTRING_TAG_CODE ∧
        tag ≠ makeTagId UNIV CONS OCTETSTRING_TAG_CODE) := by
      rintro ⟨notPrim, notCons⟩
      exact right.elim notPrim notCons
    simp only [if_neg known] at later
    exact replaces_bDecContent_iff.mp (replaces_bind_iff.mp later (len, n') b' measured) adds
  · rintro none ⟨tag, mid⟩ b1 tagged
    dsimp only
    by_cases known : tag ≠ makeTagId UNIV PRIM OCTETSTRING_TAG_CODE ∧
        tag ≠ makeTagId UNIV CONS OCTETSTRING_TAG_CODE
    · simp only [if_pos known]
      exact replaces_of_const _ b1
    · simp only [if_neg known]
      rw [replaces_bind_iff]
      rintro ⟨len, n'⟩ b' measured
      apply replaces_bDecContent_iff.mpr
      intro adds
      refine none ⟨tag, len, n', b', ⟨mid, b1, tagged, measured⟩, ?_, adds⟩
      rw [not_and_or, not_not, not_not] at known
      exact known

theorem AsnOcts.replaces_pDec (turns : Nat) (sizeConstraints : List SizeConstraint) (n : AsnLen)
    (b : AsnBufBits) : Replaces (fun x : AsnOcts => x.pDec turns sizeConstraints n) b := by
  cases sizeConstraints with
  | nil => exact replaces_of_const (Cxx.decodeGeneral 8 append turns (clear ⟨[]⟩) n) b
  | cons first rest =>
    exact replaces_of_const (decodeWithSizeConstraint ⟨[]⟩ (findSizeConstraintBounds (first :: rest)
      (intOf first.lowerBound, intOf first.lowerBound)) n) b

/-! ## BIT STRING -/

/-- A constructed bit string whose pieces are all collected; the old bits are left alone. -/
def AsnBits.Stays (turns : Nat) (b : AsnBuf) (n : AsnLen) : Prop :=
  ∃ tag len n' b' total b1, Header b n tag len n' b' ∧
    (tag = makeTagId UNIV PRIM BITSTRING_TAG_CODE ∨ tag = makeTagId UNIV CONS BITSTRING_TAG_CODE) ∧
    len ≠ INDEFINITE_LEN ∧ length.run b' = .ok total b1 ∧ ¬ total < len ∧ tagIsCons tag ∧
    ∃ deck n'' b'', (fill turns BITSTRING_TAG_CODE len n').run b1 = .ok (deck, n'') b'' ∧
      unusedBitsAreZero deck = .ok ()

/-- Pieces that are collected leave the old bits alone. -/
theorem AsnBits.replaces_bDecConsBits_iff {turns : Nat} {len n : AsnLen} {b : AsnBuf} :
    Replaces (fun x : AsnBits => x.bDecConsBits turns len n) b ↔
      ¬ ∃ deck n' b', (fill turns BITSTRING_TAG_CODE len n).run b = .ok (deck, n') b' ∧
        unusedBitsAreZero deck = .ok () := by
  unfold AsnBits.bDecConsBits
  rw [replaces_bind_iff]
  constructor
  · rintro replaces ⟨deck, n', b', filled, zero⟩
    -- An object without bits and one with eight bits stay as they are.
    have alike := replaces (deck, n') b' filled ⟨0, []⟩ ⟨8, [0]⟩
    dsimp only at alike
    rw [zero, ofExcept_ok] at alike
    have same : (⟨0, []⟩ : AsnBits) = ⟨8, [0]⟩ := alike
    cases same
  · rintro none ⟨deck, n'⟩ b' filled x x'
    dsimp only
    cases zero : unusedBitsAreZero deck with
    | ok u => exact absurd ⟨deck, n', b', filled, zero⟩ none
    | error thrown => trivial

/-- The contents of a bit string replace the old bits unless they are pieces that are collected. -/
theorem AsnBits.replaces_bDecContent_iff {turns : Nat} {tag : AsnTag} {len n : AsnLen}
    {b : AsnBuf} :
    Replaces (fun x : AsnBits => x.bDecContent turns tag len n) b ↔
      ¬ ∃ total b1, len ≠ INDEFINITE_LEN ∧ length.run b = .ok total b1 ∧ ¬ total < len ∧
        tagIsCons tag ∧ ∃ deck n' b',
          (fill turns BITSTRING_TAG_CODE len n).run b1 = .ok (deck, n') b' ∧
            unusedBitsAreZero deck = .ok () := by
  unfold AsnBits.bDecContent
  by_cases endless : len = INDEFINITE_LEN
  · simp only [endless, ne_eq, not_true_eq_false, false_and, exists_false, not_false_eq_true,
      iff_true]
    exact replaces_of_const _ b
  · simp only [if_neg endless]
    rw [replaces_bind_iff]
    constructor
    · rintro replaces ⟨total, b1, -, measured, enough, constructed, collected⟩
      have later := replaces total b1 measured
      simp only [if_neg enough, if_pos constructed] at later
      exact replaces_bDecConsBits_iff.mp later collected
    · intro none total b1 measured
      by_cases enough : total < len
      · simp only [if_pos enough]
        exact replaces_of_const _ b1
      · simp only [if_neg enough]
        cases constructed : tagIsCons tag with
        | true =>
          simp only [if_true]
          apply replaces_bDecConsBits_iff.mpr
          intro collected
          exact none ⟨total, b1, endless, measured, enough, constructed, collected⟩
        | false =>
          simp only [Bool.false_eq_true, if_false]
          exact replaces_of_const _ b1

/-- Reading a bit string replaces the old bits unless it leaves them alone. -/
theorem AsnBits.replaces_bDec_iff {turns : Nat} {n : AsnLen} {b : AsnBuf} :
    Replaces (fun x : AsnBits => x.bDec turns n) b ↔ ¬ AsnBits.Stays turns b n := by
  unfold AsnBits.bDec
  rw [replaces_bind_iff]
  constructor
  · rintro replaces ⟨tag, len, n', b', total, b1, ⟨mid, b0, tagged, measured⟩, right, stays⟩
    have later := replaces (tag, mid) b0 tagged
    have known : ¬ (tag ≠ makeTagId UNIV PRIM BITSTRING_TAG_CODE ∧
        tag ≠ makeTagId UNIV CONS BITSTRING_TAG_CODE) := by
      rintro ⟨notPrim, notCons⟩
      exact right.elim notPrim notCons
    simp only [if_neg known] at later
    exact replaces_bDecContent_iff.mp (replaces_bind_iff.mp later (len, n') b' measured)
      ⟨total, b1, stays⟩
  · rintro none ⟨tag, mid⟩ b0 tagged
    dsimp only
    by_cases known : tag ≠ makeTagId UNIV PRIM BITSTRING_TAG_CODE ∧
        tag ≠ makeTagId UNIV CONS BITSTRING_TAG_CODE
    · simp only [if_pos known]
      exact replaces_of_const _ b0
    · simp only [if_neg known]
      rw [replaces_bind_iff]
      rintro ⟨len, n'⟩ b' measured
      apply replaces_bDecContent_iff.mpr
      rintro ⟨total, b1, stays⟩
      refine none ⟨tag, len, n', b', total, b1, ⟨mid, b0, tagged, measured⟩, ?_, stays⟩
      rw [not_and_or, not_not, not_not] at known
      exact known

theorem AsnBits.replaces_pDec (turns : Nat) (sizeConstraints : List SizeConstraint) (n : AsnLen)
    (b : AsnBufBits) : Replaces (fun x : AsnBits => x.pDec turns sizeConstraints n) b := by
  cases sizeConstraints with
  | nil => exact replaces_of_const (Cxx.decodeGeneral 1 append turns (clear ⟨0, []⟩) n) b
  | cons first rest =>
    exact replaces_of_const (decodeWithSizeConstraint ⟨0, []⟩
      (findSizeConstraintBounds (first :: rest)
        (intOf first.lowerBound, intOf first.lowerBound)) n) b

/-! ## Object identifiers -/

theorem AsnRelativeOid.replaces_bDec (isRelative : Bool) (n : AsnLen) (b : AsnBuf) :
    Replaces (fun oid : List UInt8 => (⟨isRelative, oid⟩ : AsnRelativeOid).bDec n) b :=
  replaces_of_const ((⟨isRelative, []⟩ : AsnRelativeOid).bDec n) b

/-- An object identifier without octets is read from a bit buffer; the old octets stay. -/
def AsnRelativeOid.Stays (b : AsnBufBits) : Prop :=
  ∃ seg b', (getBits 8).run b = .ok seg b' ∧ seg.headD 0 = 0

/-- An object identifier from a bit buffer replaces the old octets unless it has none. -/
theorem AsnRelativeOid.replaces_pDec_iff {isRelative : Bool} {n : AsnLen} {b : AsnBufBits} :
    Replaces (fun oid : List UInt8 => (⟨isRelative, oid⟩ : AsnRelativeOid).pDec n) b ↔
      ¬ AsnRelativeOid.Stays b := by
  unfold AsnRelativeOid.pDec
  rw [replaces_bind_iff]
  constructor
  · rintro replaces ⟨seg, b', read, zero⟩
    have alike := replaces seg b' read [] [0]
    dsimp only at alike
    rw [zero] at alike
    have same : (⟨isRelative, []⟩ : AsnRelativeOid) = ⟨isRelative, [0]⟩ := alike
    cases same
  · intro none seg b' read
    have some : 0 < (seg.headD 0).toNat := by
      apply Nat.pos_of_ne_zero
      intro zero
      exact none ⟨seg, b', read, UInt8.toNat_inj.mp zero⟩
    simp only [if_pos some]
    exact replaces_of_const _ b'

/-! ## All of them -/

/--
Which decodings replace the value that an object held before.

An octet string that is empty or comes in pieces adds to the old octets; a bit string in pieces and
an object identifier without octets leave the old value alone.
-/
theorem decodings_replace_iff (turns : Nat) (b : AsnBuf) (bits : AsnBufBits)
    (sizeConstraints : List SizeConstraint) (isRelative : Bool) (n : AsnLen) :
    (Replaces (fun x : AsnOcts => x.bDec turns n) b ↔ ¬ AsnOcts.Adds turns b n) ∧
    Replaces (fun x : AsnOcts => x.pDec turns sizeConstraints n) bits ∧
    (Replaces (fun x : AsnBits => x.bDec turns n) b ↔ ¬ AsnBits.Stays turns b n) ∧
    Replaces (fun x : AsnBits => x.pDec turns sizeConstraints n) bits ∧
    Replaces (fun oid : List UInt8 => (⟨isRelative, oid⟩ : AsnRelativeOid).bDec n) b ∧
    (Replaces (fun oid : List UInt8 => (⟨isRelative, oid⟩ : AsnRelativeOid).pDec n) bits ↔
      ¬ AsnRelativeOid.Stays bits) :=
  ⟨AsnOcts.replaces_bDec_iff, AsnOcts.replaces_pDec turns sizeConstraints n bits,
    AsnBits.replaces_bDec_iff, AsnBits.replaces_pDec turns sizeConstraints n bits,
    AsnRelativeOid.replaces_bDec isRelative n b, AsnRelativeOid.replaces_pDec_iff⟩

/-- An empty octet string that is read into an object leaves the octets that it held. -/
theorem empty_octets_keep_old :
    ¬ ∀ (turns : Nat) (b : AsnBuf) (n : AsnLen),
      Replaces (fun x : AsnOcts => x.bDec turns n) b := by
  intro replaces
  have alike := replaces 0 (AsnBuf.ofSeg [4, 0]) 0 ⟨[]⟩ ⟨[1]⟩
  have same : (⟨[]⟩ : AsnOcts) = ⟨[1]⟩ := alike
  cases same

end Esnacc.Cxx
