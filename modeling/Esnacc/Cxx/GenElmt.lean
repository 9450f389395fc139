import Esnacc.Cxx.TagWords

/-! The components of a SEQUENCE or SET, and the C++ code that is printed to decode one of them. -/

namespace Esnacc.Cxx

open Lib

variable {β : Type}

/-! ## Components -/

/-- A tag that the compiler found for a component, with its form where only one is taken. -/
structure ElmtTag where
  tclass : UInt32
  form : Option UInt32
  code : UInt32

/-- The words that a tag is compared with. -/
def ElmtTag.ids (t : ElmtTag) : List AsnTag :=
  match t.form with
  | some form => [makeTagId t.tclass form t.code]
  | none => [makeTagId t.tclass PRIM t.code, makeTagId t.tclass CONS t.code]

/-- The routine that decodes what stands behind the tags of a component. -/
inductive ElmtDecoder (β : Type) where
  | content (bDecContent : AsnTag → AsnLen → AsnLen → BufM (β × AsnLen))
  | choice (bDecContent : AsnTag → AsnLen → AsnLen → BufM (β × AsnLen))
  | any (bDec : AsnLen → BufM (β × AsnLen))
  | octetContaining (bDec : AsnLen → BufM (β × AsnLen))
  | bitContaining (bDec : AsnLen → BufM (β × AsnLen))

/-- A component with the tags found for it, which are those of its alternatives where it is an
untagged CHOICE. -/
structure Elmt (β : Type) where
  fieldName : String
  optional : Bool
  hasDefaultVal : Bool
  extensionAddition : Bool
  tags : List ElmtTag
  stoleChoiceTags : Bool
  decoder : ElmtDecoder β

/-- What the braces of a type list. -/
inductive Component (β : Type) where
  | elmt (e : Elmt β)
  | extension

/-- The words of the tags that a component begins with. -/
def Elmt.firstIds (e : Elmt β) : List AsnTag :=
  if e.stoleChoiceTags then e.tags.flatMap ElmtTag.ids
  else (e.tags.take 1).flatMap ElmtTag.ids

/-- A contained CHOICE whose tags were not stolen has its key tag read, whatever it is. -/
def ElmtDecoder.keyTag : ElmtDecoder β → List (Option ElmtTag)
  | .choice _ => [none]
  | _ => []

/-- The tags that stand behind the first one. -/
def Elmt.innerTags (e : Elmt β) : List (Option ElmtTag) :=
  if e.stoleChoiceTags then [] else e.tags.tail.map some ++ e.decoder.keyTag

/-- A component that has to be there. -/
def Elmt.mandatory (e : Elmt β) : Bool :=
  !e.optional && !e.hasDefaultVal

/-- The component is, or marks the place of, an addition. -/
def Component.extensionAddition : Component β → Bool
  | .elmt e => e.extensionAddition
  | .extension => true

/-- Nothing of what is listed has to follow. -/
def isTailOptional (rest : List (Component β)) : Bool :=
  rest.all fun
    | .elmt e => !e.mandatory || e.extensionAddition
    | .extension => true

/-! ## Decoding a component -/

/-- Read the end of contents where the length left them open. -/
def closeEoc (len n : AsnLen) : BufM (Unit × AsnLen) :=
  if len = INDEFINITE_LEN then countedEoc n else return ((), n)

/-- Whether a tag is taken, which any is where none is asked for. -/
def takesTag : Option ElmtTag → AsnTag → Bool
  | none, _ => true
  | some t, tag1 => t.ids.contains tag1

/-- Decode what stands behind the last tag and length of a component. -/
def ElmtDecoder.decode (tag1 : AsnTag) (len n : AsnLen) : ElmtDecoder β → BufM (β × AsnLen)
  | .content bDecContent | .choice bDecContent => bDecContent tag1 len n
  | .any bDec => do
    let (v, n) ← bDec n
    let (_, n) ← closeEoc len n
    return (v, n)
  | .octetContaining bDec => bDec n
  | .bitContaining _ => do
    -- No octet is equal to the character constant '0x0'.
    let _ ← getByte
    throw (decodeError "Decode past end of data")

/-- Decode what stands behind a tag and length of a component, with the last tag of it. -/
def bDecInner (typeName : String) (decoder : ElmtDecoder β) :
    List (Option ElmtTag) → AsnTag → AsnLen → AsnLen → BufM ((β × AsnTag) × AsnLen)
  | [], tag1, len, n => do
    let (v, n) ← decoder.decode tag1 len n
    return ((v, tag1), n)
  | t :: rest, _, len, n => do
    let (tag1, n) ← bDecTag n
    if takesTag t tag1 then
      let (innerLen, n) ← bDecLen n
      let (x, n) ← bDecInner typeName decoder rest tag1 innerLen n
      let (_, n) ← closeEoc len n
      return (x, n)
    else throw (.invalidTagException typeName tag1)

/-- Decode what stands behind the first tag of a component. -/
def Elmt.decode (typeName : String) (e : Elmt β) (tag1 : AsnTag) (n : AsnLen) :
    BufM ((β × AsnTag) × AsnLen) := do
  let (len, n) ← bDecLen n
  bDecInner typeName e.decoder e.innerTags tag1 len n

/-! ## The octets of a component -/

/-- The length octets of what follows them, where lengths are looked at. -/
def Fits (strict : Bool) (l c : List UInt8) : Prop :=
  strict = true → l = [0x80] ∨ IsLength l c.length

/-- The octets that close contents. -/
@[grind =] def CloseOctets (len : AsnLen) (w : List UInt8) (_ : Unit) : Prop :=
  if len = INDEFINITE_LEN then w = [0, 0] else w = []

/-- The octets behind the last tag and length of a component. -/
def ElmtDecoder.Octets (strict : Bool) (tag1 : AsnTag) (len : AsnLen) (decoder : ElmtDecoder β)
    (w : List UInt8) (v : β) : Prop :=
  match decoder with
  | .content bDecContent | .choice bDecContent => asnTape.Words (bDecContent tag1 len) w v
  | .any bDec => ∃ c e, w = c ++ e ∧ asnTape.Words bDec c v ∧ CloseOctets len e ()
  -- Nothing closes the octets of the string.
  | .octetContaining bDec => asnTape.Words bDec w v ∧ (strict = true → len ≠ INDEFINITE_LEN)
  | .bitContaining _ => False

/-- The octets behind a tag and length of a component, with its value and last tag. -/
def InnerOctets (strict : Bool) (decoder : ElmtDecoder β) :
    List (Option ElmtTag) → AsnTag → AsnLen → List UInt8 → β × AsnTag → Prop
  | [], tag1, len, w, x => decoder.Octets strict tag1 len w x.1 ∧ x.2 = tag1
  | t :: rest, _, len, w, x => ∃ tag tag1 l innerLen c e, w = tag ++ (l ++ (c ++ e)) ∧
      TagOctets tag tag1 ∧ takesTag t tag1 ∧ LenOctets l innerLen ∧
      InnerOctets strict decoder rest tag1 innerLen c x ∧ Fits strict l c ∧ CloseOctets len e ()

/-- The octets behind the first tag of a component. -/
def Elmt.Octets (strict : Bool) (e : Elmt β) (tag1 : AsnTag) (w : List UInt8) (x : β × AsnTag) :
    Prop :=
  ∃ l len c, w = l ++ c ∧ LenOctets l len ∧
    InnerOctets strict e.decoder e.innerTags tag1 len c x ∧ Fits strict l c

/-- A complete element of a component. -/
def Elmt.Complete (e : Elmt β) (w : List UInt8) : Prop :=
  ∃ tag tag1 c x, w = tag ++ c ∧ TagOctets tag tag1 ∧ tag1 ∈ e.firstIds ∧ e.Octets true tag1 c x

/-- The routine behind a component's tags takes words of its own and counts them. -/
def ElmtDecoder.Whole : ElmtDecoder β → Prop
  | .content bDecContent | .choice bDecContent =>
    ∀ tag1 len, asnTape.TakesWords (bDecContent tag1 len)
  | .any bDec | .octetContaining bDec | .bitContaining bDec => asnTape.TakesWords bDec

theorem closeEoc_recognises (len : AsnLen) :
    asnTape.Recognises (closeEoc len) (CloseOctets len) := by
  have reads := Tape.Recognises.test (p := len = INDEFINITE_LEN)
    (fun _ => countedEoc_recognises) (fun _ => Tape.Recognises.pure asnTape ())
  refine reads.congr fun w x => ?_
  unfold CloseOctets EocOctets
  split <;> simp

theorem ElmtDecoder.Whole.decode_recognises {decoder : ElmtDecoder β} (whole : decoder.Whole)
    (tag1 : AsnTag) (len : AsnLen) :
    asnTape.Recognises (fun n => decoder.decode tag1 len n) (decoder.Octets false tag1 len) := by
  cases decoder with
  | content bDecContent => exact whole tag1 len
  | choice bDecContent => exact whole tag1 len
  | any bDec =>
    have reads := (show asnTape.TakesWords bDec from whole).bind fun v =>
      (closeEoc_recognises len).bind fun _ => Tape.Recognises.pure asnTape v
    refine reads.congr fun w v => ?_
    constructor
    · rintro ⟨c, e, rfl, word, closed⟩
      exact ⟨c, e, v, rfl, word, e, [], (), by simp, closed, rfl, rfl⟩
    · rintro ⟨c, d, v', rfl, word, e, d', ⟨⟩, rfl, closed, rfl, rfl⟩
      exact ⟨c, e, by simp, word, closed⟩
  | octetContaining bDec =>
    refine (show asnTape.TakesWords bDec from whole).congr fun w v => ?_
    simp [ElmtDecoder.Octets]
  | bitContaining bDec =>
    constructor
    · rintro b w rest v sound tape ⟨⟩
    · intro b b' n m v sound ran
      change (getByte >>= fun _ => throw _).run b = _ at ran
      obtain ⟨c, mid, read, threw⟩ := run_bind_eq_ok.1 ran
      cases threw

theorem bDecInner_recognises (typeName : String) {decoder : ElmtDecoder β} (whole : decoder.Whole)
    (tags : List (Option ElmtTag)) (tag1 : AsnTag) (len : AsnLen) :
    asnTape.Recognises (bDecInner typeName decoder tags tag1 len)
      (InnerOctets false decoder tags tag1 len) := by
  -- The induction is on the tags that are still to come.
  induction tags generalizing tag1 len with
  | nil =>
    have reads := (whole.decode_recognises tag1 len).bind fun v =>
      Tape.Recognises.pure asnTape (v, tag1)
    refine reads.congr fun w x => ?_
    constructor
    · rintro ⟨octets, last⟩
      exact ⟨w, [], x.1, by simp, octets, rfl, Prod.ext rfl last⟩
    · rintro ⟨c, d, v, rfl, octets, rfl, rfl⟩
      exact ⟨by simpa using octets, rfl⟩
  | cons t rest ih =>
    have reads := bDecTag_recognises.bind fun tag1 =>
      Tape.Recognises.test (p := takesTag t tag1)
        (fun _ => bDecLen_recognises.bind fun innerLen => (ih tag1 innerLen).bind fun x =>
          (closeEoc_recognises len).bind fun _ => Tape.Recognises.pure asnTape x)
        (fun _ => Tape.Recognises.throw asnTape (Thrown.invalidTagException typeName tag1))
    refine reads.congr fun w x => ?_
    constructor
    · rintro ⟨tag, tag1, l, innerLen, c, e, rfl, isTag, taken, isLen, inner, -, closed⟩
      refine ⟨tag, l ++ (c ++ e), tag1, rfl, isTag, ?_⟩
      rw [if_pos taken]
      exact ⟨l, c ++ e, innerLen, rfl, isLen, c, e, x, rfl, inner, e, [], (), by simp, closed,
        rfl, rfl⟩
    · rintro ⟨tag, w', tag1, rfl, isTag, body⟩
      by_cases taken : takesTag t tag1
      · rw [if_pos taken] at body
        obtain ⟨l, w', innerLen, rfl, isLen, c, d, x', rfl, inner, e, d', ⟨⟩, rfl, closed, rfl,
          rfl⟩ := body
        exact ⟨tag, tag1, l, innerLen, c, e, by simp, isTag, taken, isLen, inner, nofun, closed⟩
      · rw [if_neg taken] at body
        exact body.elim

theorem Elmt.decode_recognises (typeName : String) {e : Elmt β} (whole : e.decoder.Whole)
    (tag1 : AsnTag) :
    asnTape.Recognises (e.decode typeName tag1) (e.Octets false tag1) := by
  have reads := bDecLen_recognises.bind fun len =>
    bDecInner_recognises typeName whole e.innerTags tag1 len
  refine reads.congr fun w x => ?_
  constructor
  · rintro ⟨l, len, c, rfl, isLen, inner, -⟩
    exact ⟨l, c, len, rfl, isLen, inner⟩
  · rintro ⟨l, c, len, rfl, isLen, inner⟩
    exact ⟨l, len, c, rfl, isLen, inner, nofun⟩

/-! ## Octets with lengths that fit -/

theorem InnerOctets.loose {decoder : ElmtDecoder β} {tags : List (Option ElmtTag)}
    {tag1 : AsnTag} {len : AsnLen} {w : List UInt8} {x : β × AsnTag}
    (inner : InnerOctets true decoder tags tag1 len w x) :
    InnerOctets false decoder tags tag1 len w x := by
  induction tags generalizing tag1 len w with
  | nil =>
    obtain ⟨octets, last⟩ := inner
    refine ⟨?_, last⟩
    cases decoder with
    | octetContaining bDec => exact ⟨octets.1, nofun⟩
    | _ => exact octets
  | cons t rest ih =>
    obtain ⟨tag, tag1, l, innerLen, c, e, eq, isTag, taken, isLen, inner, -, closed⟩ := inner
    exact ⟨tag, tag1, l, innerLen, c, e, eq, isTag, taken, isLen, ih inner, nofun, closed⟩

theorem Elmt.Octets.loose {e : Elmt β} {strict : Bool} {tag1 : AsnTag} {w : List UInt8}
    {x : β × AsnTag} (octets : e.Octets strict tag1 w x) : e.Octets false tag1 w x := by
  cases strict with
  | false => exact octets
  | true =>
    obtain ⟨l, len, c, eq, isLen, inner, -⟩ := octets
    exact ⟨l, len, c, eq, isLen, inner.loose, nofun⟩

end Esnacc.Cxx
