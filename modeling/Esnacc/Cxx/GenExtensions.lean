import Esnacc.Cxx.GenAccepts
import Esnacc.Cxx.SetExtensions

/-! When the decoders printed for types with an extension marker keep the elements behind it. -/

namespace Esnacc.Cxx

open Lib

variable {β : Type}

/--
When the printed decoders take contents with an extension marker for what they are.

A SEQUENCE is taken whole, counted exactly and left with its unknown elements only where it has none
behind its marker, and a SET only where it has none among its elements.
-/
theorem extensions_kept_iff {cls : SnaccClass β} {es : List (Elmt β)}
    (components : cls.components = extended es) (legal : LegalElmts es) (readsAny : cls.ReadsAny)
    {b : AsnBuf} (steady : b.Steady) (orderly : b.Orderly) (current : b.ahead ≠ [])
    {all rest : List UInt8} (tape : b.unread = all ++ rest) (elmtLen0 : AsnLen) :
    (ToldApart es → ∀ d us, InOrder es d → (∀ u ∈ us, UnknownElmt cls es u) →
      Framed elmtLen0 (d ++ us.flatten) all →
      (KeepsUnknown (fun turns => cls.bDecSeqContent turns elmtLen0) b all rest us ↔ us = [])) ∧
    (CasesApart es → es.length < 2 ^ 32 → ∀ items, SetContents cls es items →
      Framed elmtLen0 (itemOctets items) all →
      (KeepsUnknown (fun turns => cls.bDecSetContent elmtLen0 turns) b all rest
          (items.filterMap SetItem.unknown?) ↔
        items.filterMap SetItem.unknown? = [])) := by
  constructor
  · intro apart d us inOrder unknown framed
    have octets := seqOctets_of_inOrder apart inOrder
    cases us with
    | nil =>
      rw [List.flatten_nil, List.append_nil] at framed
      simp only [iff_true]
      exact keepsUnknown_none components legal elmtLen0 octets steady orderly tape framed
    | cons u us =>
      have first := unknown u List.mem_cons_self
      have lost := not_keepsUnknown components legal elmtLen0 readsAny octets first steady orderly
        tape framed
      exact ⟨fun keeps => absurd keeps lost, fun none => by cases none⟩
  · intro apart few items contents framed
    by_cases known : items.filterMap SetItem.unknown? = []
    · rw [known]
      simp only [iff_true]
      exact set_keepsUnknown_none components legal apart contents known few steady orderly current
        tape framed
    · have lost := set_not_keepsUnknown components legal apart readsAny contents steady orderly tape
        framed known
      exact ⟨fun keeps => absurd keeps lost, fun none => absurd none known⟩

/-! ## An addition to a SEQUENCE of one component -/

/-- AsnAny::BDec on elements with a short tag and without contents. -/
def shortAny (n : AsnLen) : BufM (List UInt8 × AsnLen) := do
  let (first, n) ← countedByte n
  let (second, n) ← countedByte n
  if second = 0 then return ([first, second], n)
  else throw (decodeError "not an empty element")

theorem shortAny_recognises : asnTape.Recognises shortAny fun w x => ∃ c, w = [c, 0] ∧ x = w := by
  have reads := countedByte_recognises.bind fun first => countedByte_recognises.bind fun second =>
    Tape.Recognises.test (p := second = 0)
      (fun _ => Tape.Recognises.pure asnTape [first, second])
      (fun _ => Tape.Recognises.throw asnTape (decodeError "not an empty element"))
  refine reads.congr fun w x => ?_
  constructor
  · rintro ⟨c, rfl, rfl⟩
    exact ⟨[c], [0], c, rfl, rfl, [0], [], 0, rfl, rfl, by simp⟩
  · rintro ⟨_, _, c, rfl, rfl, _, d, second, rfl, rfl, last⟩
    by_cases zero : second = 0
    · rw [if_pos zero] at last
      obtain ⟨rfl, rfl⟩ := last
      exact ⟨c, by simp [zero], by simp⟩
    · rw [if_neg zero] at last
      exact last.elim

theorem keepsDeck_shortAny (n : AsnLen) : KeepsDeck (shortAny n) := by
  have one : ∀ n, KeepsDeck (countedByte n) := fun n => keepsDeck_getByte.bind fun _ => .pure _
  exact (one n).bind fun _ => (one _).bind fun _ => .ite (.pure _) (.throw _)

/-- The class of `SEQUENCE { a [0] NULL, ... }`. -/
def extensibleClass : SnaccClass Unit :=
  ⟨"Extensible", extended [nullElmt "a" false 0], shortAny⟩

theorem extensible_legal : LegalElmts [nullElmt "a" false 0] where
  noEoc := by decide
  additionsLast := List.pairwise_singleton _ _
  whole e isIn := by
    rw [List.mem_singleton.1 isIn]
    exact AsnNull.bDecContent_whole
  readsOn e isIn := by
    rw [List.mem_singleton.1 isIn]
    exact fun tag1 len n => .ite (.throw _) (.pure _)

theorem extensible_readsAny : extensibleClass.ReadsAny :=
  ⟨shortAny_recognises.takesWords, keepsDeck_shortAny⟩

/-- The component, and an element with a tag that no component has. -/
def extensionBuf : AsnBuf :=
  .ofSeg [0x80, 0x00, 0x85, 0x00]

theorem extensionBuf_orderly : extensionBuf.Orderly where
  inOrder c listed := by cases listed
  full := by decide

theorem extensionBuf_steady : extensionBuf.Steady :=
  ⟨AsnBuf.ofSeg_sound (by decide) (by decide), extensionBuf_orderly.inOrder⟩

theorem extensible_inOrder : InOrder [nullElmt "a" false 0] [0x80, 0x00] := by
  refine .inl ⟨[0x80, 0x00], [], rfl, ⟨[0x80], tagWord [0x80], [0x00],
    ((), tagWord [0x80]), rfl, ?_, ?_, ?_⟩, rfl⟩
  · exact ⟨.inl ⟨0x80, rfl, by decide⟩, by decide, rfl⟩
  · decide
  · exact ⟨[0x00], 0, [], rfl, .inr ⟨0, isLength_short (by decide), by decide, rfl⟩,
      ⟨AsnNull.words_nil _, rfl⟩, fun _ => .inr (isLength_short (by decide))⟩

theorem extensible_unknown : UnknownElmt extensibleClass [nullElmt "a" false 0] [0x85, 0x00] := by
  refine ⟨[0x85], tagWord [0x85], [0x00], 0, [], rfl, ⟨.inl ⟨0x85, rfl, by decide⟩, by decide, rfl⟩,
    .inr ⟨0, isLength_short (by decide), by decide, rfl⟩, by decide, by decide, ?_⟩
  refine ⟨⟨.ofSeg [0x85, 0x00], [], ⟨AsnBuf.ofSeg_sound (by decide) (by decide), ?_⟩, rfl⟩, ?_⟩
  · exact fun c listed => by cases listed
  · exact fun b rest steady tape n =>
      shortAny_recognises.accepts steady tape ⟨0x85, rfl, rfl⟩ n

theorem extensions_kept_iff_extensible :
    KeepsUnknown (fun turns => extensibleClass.bDecSeqContent turns 4) extensionBuf
      [0x80, 0x00, 0x85, 0x00] [] [[0x85, 0x00]] ↔ [[(0x85 : UInt8), 0x00]] = [] := by
  have tape : extensionBuf.unread = [0x80, 0x00, 0x85, 0x00] ++ [] := rfl
  have both := extensions_kept_iff rfl extensible_legal extensible_readsAny extensionBuf_steady
    extensionBuf_orderly (by decide) tape 4
  refine both.1 ⟨nofun, trivial⟩ [0x80, 0x00] [[0x85, 0x00]] extensible_inOrder ?_
    (.inl ⟨by decide, rfl, rfl⟩)
  intro u isIn
  rw [List.mem_singleton.1 isIn]
  exact extensible_unknown

/-- An element behind the marker is not counted. -/
theorem extension_not_counted : ¬ ∀ (cls : SnaccClass Unit) (es : List (Elmt Unit)),
    cls.components = extended es → LegalElmts es → cls.ReadsAny → ToldApart es →
    ∀ (elmtLen0 : AsnLen) (b : AsnBuf), b.Steady → b.Orderly → b.ahead ≠ [] →
    ∀ (d : List UInt8) (us : List (List UInt8)) (all rest : List UInt8), InOrder es d →
    (∀ u ∈ us, UnknownElmt cls es u) → Framed elmtLen0 (d ++ us.flatten) all →
    b.unread = all ++ rest →
    KeepsUnknown (fun turns => cls.bDecSeqContent turns elmtLen0) b all rest us := by
  intro always
  have unknown : ∀ u ∈ [[0x85, 0x00]], UnknownElmt extensibleClass [nullElmt "a" false 0] u := by
    intro u isIn
    rw [List.mem_singleton.1 isIn]
    exact extensible_unknown
  have framed : Framed 4 ([0x80, 0x00] ++ [[0x85, 0x00]].flatten) [0x80, 0x00, 0x85, 0x00] :=
    .inl ⟨by decide, rfl, rfl⟩
  have apart : ToldApart [nullElmt "a" false 0] := ⟨nofun, trivial⟩
  have kept := always extensibleClass [nullElmt "a" false 0] rfl extensible_legal
    extensible_readsAny apart 4 extensionBuf extensionBuf_steady extensionBuf_orderly (by decide)
    [0x80, 0x00] [[0x85, 0x00]] [0x80, 0x00, 0x85, 0x00] [] extensible_inOrder unknown framed rfl
  exact not_keepsUnknown rfl extensible_legal 4 extensible_readsAny
    (seqOctets_of_inOrder apart extensible_inOrder) extensible_unknown extensionBuf_steady
    extensionBuf_orderly rfl framed kept

end Esnacc.Cxx
