import Esnacc.Cxx.PerLists
import Esnacc.Cxx.PresenceBits
import Esnacc.Lib.ExchangeSort

/-! The C++ code that is printed to put a SEQUENCE or SET into PER and to get it back. -/

namespace Esnacc.Cxx

open Lib

/-! ## Components -/

/-- A component of a SEQUENCE or SET without extension marker; one that is OPTIONAL or has a DEFAULT is a pointer, NULL where it is left out. -/
inductive PerComponent where
  | mandatory {β : Type} (element : PerElement β)
  | optionalOrDefault {β : Type} (element : PerElement β)

/-- What a field of the class holds. -/
def PerComponent.Field : PerComponent → Type
  | @mandatory β _ => β
  | @optionalOrDefault β _ => Option β

/-- The fields of an object. -/
def Fields : List PerComponent → Type
  | [] => Unit
  | c :: rest => c.Field × Fields rest

/-- A SEQUENCE, or a SET with the number of the tag that each component is sorted by. -/
inductive SetOrSeq where
  | sequence (components : List PerComponent)
  | set (numbered : List (Int × PerComponent))

/-- The components in the order in which they are put and got. -/
def SetOrSeq.elements : SetOrSeq → List PerComponent
  | sequence components => components
  | set numbered => (exchangeSort Prod.fst numbered).map Prod.snd

/-- A definition: an `int` counts its components. -/
structure SetSeqDef where
  basicType : SetOrSeq
  counted : basicType.elements.length < 2 ^ 31

/-- The number of components that may be left out. -/
def optionalDefaultElmtCount : List PerComponent → Nat
  | [] => 0
  | .mandatory _ :: rest => optionalDefaultElmtCount rest
  | .optionalOrDefault _ :: rest => optionalDefaultElmtCount rest + 1

/-! ## Encoding -/

/-- Set the bits of the components that are there. -/
def setOptionalDefaultBits :
    (components : List PerComponent) → Fields components → Nat → AsnBits → Except Thrown AsnBits
  | [], _, _, bits => return bits
  | .mandatory _ :: rest, (_, fields), index, bits => setOptionalDefaultBits rest fields index bits
  | .optionalOrDefault _ :: rest, (field, fields), index, bits => do
    let bits ← (if field.isSome then bits.setBit (.ofNat index) else return bits)
    setOptionalDefaultBits rest fields (index + 1) bits

/-- Put a bit for each component that may be left out. -/
def pEncPreamble (components : List PerComponent) (fields : Fields components) :
    BitsM UInt64 := do
  let elmtCount := optionalDefaultElmtCount components
  if elmtCount ≠ 0 then
    let snaccOptionalDefaultBits : AsnBits := .set ⟨0, []⟩ (.ofNat elmtCount)
    let bits ← ofExcept (setOptionalDefaultBits components fields 0 snaccOptionalDefaultBits)
    let _ ← putSeg bits.bits elmtCount
    return .ofNat elmtCount
  else return 0

/-- Put the components that are there. -/
def pEncElements : (components : List PerComponent) → Fields components → BitsM UInt64
  | [], _ => return 0
  | .mandatory element :: rest, (x, fields) => do
    let l ← element.pEnc x
    return l + (← pEncElements rest fields)
  | .optionalOrDefault element :: rest, (field, fields) => do
    match field with
    | some x =>
      let l ← element.pEnc x
      return l + (← pEncElements rest fields)
    | none => pEncElements rest fields

/-- Put an object; the number of bits is returned. -/
def SetSeqDef.pEnc (td : SetSeqDef) (fields : Fields td.basicType.elements) : BitsM UInt64 := do
  let l ← pEncPreamble td.basicType.elements fields
  return l + (← pEncElements td.basicType.elements fields)

/-! ## Decoding -/

/-- Get the bits of the components that may be left out. -/
def pDecPreamble (components : List PerComponent) (bitsDecoded : AsnLen) :
    BitsM (AsnBits × AsnLen) := do
  let elmtCount := optionalDefaultElmtCount components
  if elmtCount ≠ 0 then
    let (bits, count) ← getAsnBits ⟨0, []⟩ (.ofNat elmtCount)
    return (bits, bitsDecoded + count)
  else return (⟨0, []⟩, bitsDecoded)

/-- Get the components whose bits are set into an object that was cleared. -/
def pDecElements (snaccOptionalDefaultBits : AsnBits) :
    (components : List PerComponent) → Nat → AsnLen → BitsM (Fields components × AsnLen)
  | [], _, bitsDecoded => return ((), bitsDecoded)
  | .mandatory element :: rest, index, bitsDecoded => do
    let (x, bitsDecoded) ← element.pDec bitsDecoded
    let (fields, bitsDecoded) ← pDecElements snaccOptionalDefaultBits rest index bitsDecoded
    return ((x, fields), bitsDecoded)
  | .optionalOrDefault element :: rest, index, bitsDecoded => do
    if snaccOptionalDefaultBits.getBit (.ofNat index) then
      let (x, bitsDecoded) ← element.pDec bitsDecoded
      let (fields, bitsDecoded) ← pDecElements snaccOptionalDefaultBits rest (index + 1) bitsDecoded
      return ((some x, fields), bitsDecoded)
    else
      let (fields, bitsDecoded) ← pDecElements snaccOptionalDefaultBits rest (index + 1) bitsDecoded
      return ((none, fields), bitsDecoded)

/-- Get an object. -/
def SetSeqDef.pDec (td : SetSeqDef) (bitsDecoded : AsnLen) :
    BitsM (Fields td.basicType.elements × AsnLen) := do
  let (bits, bitsDecoded) ← pDecPreamble td.basicType.elements bitsDecoded
  pDecElements bits td.basicType.elements 0 bitsDecoded

/-! ## The bits of an object -/

/-- Which of the components that may be left out are there. -/
def presence : (components : List PerComponent) → Fields components → List Bool
  | [], _ => []
  | .mandatory _ :: rest, (_, fields) => presence rest fields
  | .optionalOrDefault _ :: rest, (field, fields) => Option.isSome field :: presence rest fields

/-- The bits of the components that are there, from a position on. -/
def elementBits (bAlign : Bool) :
    Nat → (components : List PerComponent) → Fields components → List Bool
  | _, [], _ => []
  | pos, .mandatory element :: rest, (x, fields) =>
    let bits := element.bits x bAlign (pos % 8)
    bits ++ elementBits bAlign (pos + bits.length) rest fields
  | pos, .optionalOrDefault element :: rest, (field, fields) =>
    match field with
    | some x =>
      let bits := element.bits x bAlign (pos % 8)
      bits ++ elementBits bAlign (pos + bits.length) rest fields
    | none => elementBits bAlign pos rest fields

theorem length_presence (components : List PerComponent) (fields : Fields components) :
    (presence components fields).length = optionalDefaultElmtCount components := by
  induction components with
  | nil => rfl
  | cons c rest ih =>
    obtain ⟨field, fields⟩ := fields
    cases c with
    | mandatory element => exact ih fields
    | optionalOrDefault element => exact congrArg (· + 1) (ih fields)

theorem optionalDefaultElmtCount_le (components : List PerComponent) :
    optionalDefaultElmtCount components ≤ components.length := by
  induction components with
  | nil => exact Nat.le_refl 0
  | cons c rest ih =>
    cases c with
    | mandatory element => exact Nat.le_succ_of_le ih
    | optionalOrDefault element => exact Nat.succ_le_succ ih

/-! ## Putting -/

/-- The bits set are those of the components that are there, behind the ones that were set. -/
theorem setOptionalDefaultBits_shows {components : List PerComponent} (fields : Fields components)
    {x : AsnBits} {done : List Bool}
    (shows : x.Shows (done ++ List.replicate (optionalDefaultElmtCount components) false))
    (small : done.length + optionalDefaultElmtCount components < 2 ^ 32) :
    ∃ y, setOptionalDefaultBits components fields done.length x = .ok y ∧
      y.Shows (done ++ presence components fields) := by
  induction components generalizing x done with
  | nil => exact ⟨x, rfl, shows⟩
  | cons c rest ih =>
    obtain ⟨field, fields⟩ := fields
    cases c with
    | mandatory element => exact ih fields shows small
    | optionalOrDefault element =>
      rw [optionalDefaultElmtCount] at shows small
      -- The bit of this component is set where it is there, and stays a zero elsewhere.
      have here : ∃ y, (if Option.isSome field then x.setBit (.ofNat done.length) else pure x) =
          .ok y ∧ y.Shows ((done ++ [Option.isSome field]) ++
            List.replicate (optionalDefaultElmtCount rest) false) := by
        cases field with
        | none =>
          refine ⟨x, rfl, ?_⟩
          rw [List.append_assoc]
          exact shows
        | some v =>
          obtain ⟨y, set, shown⟩ := shows.setBit (i := done.length)
            (by simp only [List.length_append, List.length_replicate]; omega)
            (by simp only [List.length_append, List.length_replicate]; omega)
          rw [set_replicate_false] at shown
          exact ⟨y, set, shown⟩
      obtain ⟨y, set, shown⟩ := here
      obtain ⟨z, others, all⟩ := ih fields shown
        (by simp only [List.length_append, List.length_singleton]; omega)
      rw [List.length_append, List.length_singleton] at others
      refine ⟨z, ?_, ?_⟩
      · rw [setOptionalDefaultBits, set]
        exact others
      · rwa [List.append_assoc] at all

/-- The preamble is a bit for each component that may be left out. -/
theorem pEncPreamble_puts {b : AsnBufBits} (wellFormed : b.WellFormed)
    {components : List PerComponent} (few : components.length < 2 ^ 31)
    (fields : Fields components) :
    Puts (pEncPreamble components fields) b (presence components fields) := by
  have count := length_presence components fields
  have most := optionalDefaultElmtCount_le components
  by_cases some : optionalDefaultElmtCount components ≠ 0
  · -- The bits are set one by one and are put together.
    have zeros := AsnBits.set_shows ⟨0, []⟩ (Nat.pos_of_ne_zero some) (by omega)
    obtain ⟨y, set, shows⟩ := @setOptionalDefaultBits_shows _ fields _ [] zeros
      (by rw [List.length_nil]; omega)
    rw [List.nil_append] at shows
    obtain ⟨holds, data⟩ := shows.data
    rw [count] at holds data
    obtain ⟨b', ran, wrote⟩ := putSeg_puts wellFormed y.bits holds (by omega)
    rw [data] at ran wrote
    refine ⟨b', ?_, wrote⟩
    rw [List.length_nil] at set
    simp only [pEncPreamble, if_pos some]
    rw [set, ofExcept_ok, pure_bind, run_bind_of_ok ran, count]
    rfl
  · -- There is no preamble.
    have none : presence components fields = [] := by
      apply List.eq_nil_of_length_eq_zero
      omega
    rw [none]
    refine ⟨b, ?_, .refl wellFormed⟩
    simp only [pEncPreamble, if_neg some]
    rfl

/-- The components that are there are put one behind the other. -/
theorem pEncElements_puts {b : AsnBufBits} (wellFormed : b.WellFormed) {pos : Nat}
    (position : (8 - b.writeBitPos) % 8 = pos % 8) (components : List PerComponent)
    (fields : Fields components) :
    Puts (pEncElements components fields) b (elementBits b.bAlign pos components fields) := by
  induction components generalizing b pos with
  | nil => exact ⟨b, rfl, .refl wellFormed⟩
  | cons c rest ih =>
    obtain ⟨field, fields⟩ := fields
    -- An element that is there is put in front of the others.
    have behind : ∀ {β : Type} (element : PerElement β) (x : β),
        Puts (do let l ← element.pEnc x; return l + (← pEncElements rest fields)) b
          (element.bits x b.bAlign (pos % 8) ++
            elementBits b.bAlign (pos + (element.bits x b.bAlign (pos % 8)).length) rest fields) := by
      intro β element x
      have first := element.puts x b wellFormed
      rw [position] at first
      apply first.add
      intro b' wrote
      have place := wrote.position
      have next : (8 - b'.writeBitPos) % 8 =
          (pos + (element.bits x b.bAlign (pos % 8)).length) % 8 := by omega
      have others := ih wrote.wellFormed next fields
      rwa [wrote.bAlign] at others
    cases c with
    | mandatory element => exact behind element field
    | optionalOrDefault element =>
      cases field with
      | none => exact ih wellFormed position fields
      | some x => exact behind element x

/-! ## Getting -/

/-- The preamble is got. -/
theorem pDecPreamble_gets (bAlign : Bool) (pos : Nat) {components : List PerComponent}
    (few : components.length < 2 ^ 31) (fields : Fields components) :
    Gets bAlign pos (presence components fields) (pDecPreamble components)
      (·.Shows (presence components fields)) := by
  have count := length_presence components fields
  have most := optionalDefaultElmtCount_le components
  by_cases some : optionalDefaultElmtCount components ≠ 0
  · have got := @getAsnBits_gets bAlign pos ⟨0, []⟩ (presence components fields)
      (by omega) (by omega)
    rw [count] at got
    have asked : pDecPreamble components = fun bitsDecoded => do
        let (bits, count) ← getAsnBits ⟨0, []⟩ (.ofNat (optionalDefaultElmtCount components))
        return (bits, bitsDecoded + count) := by
      funext bitsDecoded
      simp only [pDecPreamble, if_pos some]
    rwa [asked]
  · -- There is nothing to be got.
    have none : presence components fields = [] := by
      apply List.eq_nil_of_length_eq_zero
      omega
    have nothing : pDecPreamble components = fun bitsDecoded => return (⟨0, []⟩, bitsDecoded) := by
      funext bitsDecoded
      simp only [pDecPreamble, if_neg some]
    rw [none, nothing]
    apply (gets_pure bAlign pos (⟨0, []⟩ : AsnBits)).mono
    intro y empty
    rw [empty]
    exact ⟨rfl, 0, rfl⟩

/-- The components whose bits are set are got one behind the other. -/
theorem pDecElements_gets (bAlign : Bool) (pos : Nat) {components : List PerComponent}
    (fields : Fields components) {x : AsnBits} {done : List Bool}
    (shows : x.Shows (done ++ presence components fields))
    (small : done.length + optionalDefaultElmtCount components < 2 ^ 32) :
    Gets bAlign pos (elementBits bAlign pos components fields)
      (pDecElements x components done.length) (· = fields) := by
  induction components generalizing pos done with
  | nil => exact gets_pure bAlign pos ()
  | cons c rest ih =>
    obtain ⟨field, fields⟩ := fields
    -- An element that is there is got in front of the others.
    have behind : ∀ {β γ : Type} (element : PerElement β) (v : β) (index : Nat)
        (make : β → Fields rest → γ),
        (∀ pos, Gets bAlign pos (elementBits bAlign pos rest fields) (pDecElements x rest index)
          (· = fields)) →
        Gets bAlign pos
          (element.bits v bAlign (pos % 8) ++
            elementBits bAlign (pos + (element.bits v bAlign (pos % 8)).length) rest fields)
          (fun bitsDecoded => do
            let (v, bitsDecoded) ← element.pDec bitsDecoded
            let (fields, bitsDecoded) ← pDecElements x rest index bitsDecoded
            return (make v fields, bitsDecoded)) (· = make v fields) := by
      intro β γ element v index make others
      apply (element.gets v bAlign pos).bind fun y bitsDecoded => do
        let (fields, bitsDecoded) ← pDecElements x rest index bitsDecoded
        return (make y fields, bitsDecoded)
      intro y same
      rw [← List.append_nil (elementBits bAlign _ rest fields), same]
      apply (others _).bind fun got bitsDecoded => pure (make v got, bitsDecoded)
      intro got sameRest
      rw [sameRest]
      exact gets_pure bAlign _ (make v fields)
    cases c with
    | mandatory element =>
      exact behind element field done.length Prod.mk fun pos => ih pos fields shows small
    | optionalOrDefault element =>
      rw [optionalDefaultElmtCount] at small
      rw [presence] at shows
      -- The bit asked for is the one that was set for this component.
      have size := congrArg (done.length + ·) (congrArg (· + 1) (length_presence rest fields))
      have bit : x.getBit (.ofNat done.length) = Option.isSome field := by
        apply shows.getBit
        · rw [List.length_append, List.length_cons]
          omega
        · rw [List.getElem?_append_right (Nat.le_refl _), Nat.sub_self]
          rfl
      have shown : x.Shows ((done ++ [Option.isSome field]) ++ presence rest fields) := by
        rw [List.append_assoc]
        exact shows
      have others : ∀ pos, Gets bAlign pos (elementBits bAlign pos rest fields)
          (pDecElements x rest (done.length + 1)) (· = fields) := by
        intro pos
        have rest := ih pos fields shown
          (by rw [List.length_append, List.length_singleton]; omega)
        rwa [List.length_append] at rest
      cases field with
      | none =>
        simp only [pDecElements, bit]
        change Gets bAlign pos (elementBits bAlign pos rest fields) _ _
        rw [← List.append_nil (elementBits bAlign pos rest fields)]
        apply (others pos).bind fun got bitsDecoded => pure ((none, got), bitsDecoded)
        intro got same
        rw [same]
        exact gets_pure bAlign _ (none, fields)
      | some v =>
        simp only [pDecElements, bit]
        exact behind element v (done.length + 1) (fun v fields => (some v, fields)) others

/-! ## The round trip -/

end Esnacc.Cxx
