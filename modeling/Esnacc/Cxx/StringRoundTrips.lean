import Esnacc.Cxx.Alphabets
import Esnacc.Cxx.ListSizes

/-! Which C++ character strings are left as they are by PER, and got back from it. -/

namespace Esnacc.Cxx

open Lib

variable {alphabet : List UInt8}

/-! ## Characters one behind the other -/

/-- As many characters are got as are asked for. -/
theorem AsnString.length_of_deterpretAll {isAligned : Bool} {x ys : List UInt8} {k : Nat}
    {bitsDecoded len : AsnLen} {r r' : AsnBufBits}
    (ran : (PERGeneral.deterpretAll (deterpret alphabet isAligned) x k bitsDecoded).run r =
      .ok (ys, len) r') : ys.length = x.length + k := by
  induction k generalizing x bitsDecoded r with
  | zero =>
    cases ran
    rfl
  | succ k ih =>
    rw [PERGeneral.deterpretAll] at ran
    obtain ⟨⟨y, bits⟩, r₁, first, later⟩ := run_bind_eq_ok.mp ran
    -- Each turn appends one character.
    have one : y.length = x.length + 1 := by
      unfold deterpret at first
      obtain ⟨⟨width, asIs⟩, r₂, -, more⟩ := run_bind_eq_ok.mp first
      obtain ⟨seg, r₃, -, last⟩ := run_bind_eq_ok.mp more
      cases asIs with
      | true =>
        cases last
        simp
      | false =>
        simp only [Bool.false_eq_true, if_false] at last
        split at last <;> cases last
        simp
    rw [ih later, one]
    omega

/-- A string that has what is got from some characters of the alphabet. -/
def HasGot (isAligned : Bool) (x : List UInt8) (units : List {c // c ∈ alphabet}) : Prop :=
  x = (units.map Subtype.val).map (charGot alphabet isAligned)

section

variable (nonempty : alphabet ≠ []) (ascending : alphabet.Pairwise (· < ·)) (isAligned : Bool)

include nonempty ascending

/-- Characters are got one behind the other. -/
theorem AsnString.deterpretAll_gets (bAlign : Bool) (pos : Nat) (x : List UInt8) {units : List UInt8}
    (inside : ∀ c ∈ units, c ∈ alphabet) :
    Gets bAlign pos (units.flatMap (charPut alphabet isAligned))
      (PERGeneral.deterpretAll (deterpret alphabet isAligned) x units.length)
      (· = x ++ units.map (charGot alphabet isAligned)) := by
  induction units generalizing pos x with
  | nil =>
    rw [List.map_nil, List.append_nil]
    exact gets_pure bAlign pos x
  | cons c rest ih =>
    have first := deterpret_gets nonempty ascending isAligned bAlign pos x
      (inside c List.mem_cons_self)
    apply first.bind fun y bitsDecoded =>
      PERGeneral.deterpretAll (deterpret alphabet isAligned) y rest.length bitsDecoded
    rintro y rfl
    -- The others follow the first one.
    have others := ih (pos + (charPut alphabet isAligned c).length)
      (x ++ [charGot alphabet isAligned c]) fun d there => inside d (List.mem_cons_of_mem c there)
    rwa [List.append_assoc] at others

/-- A part of a string is taken character by character. -/
theorem AsnString.takesEach :
    TakesEach (PERGeneral.take (deterpret alphabet isAligned)) (@HasGot alphabet isAligned)
      (fun c => charPut alphabet isAligned c.1) (charUnit alphabet isAligned) := by
  intro x kept holds _ units r pos rest octet stands countable bitsDecoded
  -- There is nothing to skip in front of the characters.
  obtain ⟨r₁, skips, mode₁, stands₁⟩ := stands.alignNothing octet
  have plain : units.flatMap (fun c => charPut alphabet isAligned c.1) =
      (units.map Subtype.val).flatMap (charPut alphabet isAligned) := by
    rw [List.flatMap_map]
  have inside : ∀ c ∈ units.map Subtype.val, c ∈ alphabet := by
    intro c there
    obtain ⟨u, -, rfl⟩ := List.mem_map.mp there
    exact u.2
  have gets := deterpretAll_gets nonempty ascending isAligned r.bAlign pos x inside
  rw [plain] at stands₁ countable ⊢
  obtain ⟨y, r', ran, rfl, mode', behind⟩ := gets r₁ rest mode₁ stands₁ countable bitsDecoded
  have zero : UInt64.ofNat 0 = 0 := rfl
  rw [List.length_map] at ran
  refine ⟨x ++ (units.map Subtype.val).map (charGot alphabet isAligned), r', ?_, ?_, mode', behind⟩
  · rw [PERGeneral.take, run_bind_of_ok skips, zero, UInt64.add_zero]
    exact ran
  · unfold HasGot at holds ⊢
    rw [holds, List.map_append, List.map_append]

theorem AsnString.encodeGeneral_puts {x : List UInt8} (inside : ∀ c ∈ x, c ∈ alphabet)
    {b : AsnBufBits} (wellFormed : b.WellFormed) :
    Puts (PERGeneral.encodeGeneral (interpret alphabet isAligned x) x.length) b
      (b.gap ++ lengthCoded (charUnit alphabet isAligned) x.length
        (x.flatMap (charPut alphabet isAligned))) := by
  have width := length_charPut nonempty ascending isAligned
  have interprets := interpret_interprets nonempty ascending isAligned inside
  exact Cxx.encodeGeneral_puts interprets.putsUnits (length_flatMap_units width x) wellFormed

/-- A string that has no constraints is got from its parts. -/
theorem AsnString.decodeGeneral_gets {x : List UInt8} (inside : ∀ c ∈ x, c ∈ alphabet)
    {turns : Nat} (enough : x.length / 16384 < turns) (bAlign : Bool) (pos : Nat) :
    Gets bAlign pos (List.replicate (padding bAlign pos) false ++
        lengthCoded (charUnit alphabet isAligned) x.length
          (x.flatMap (charPut alphabet isAligned)))
      (PERGeneral.decodeGeneral (deterpret alphabet isAligned) turns [])
      (· = x.map (charGot alphabet isAligned)) := by
  have widths : ∀ c : {c // c ∈ alphabet},
      ((fun c : {c // c ∈ alphabet} => charPut alphabet isAligned c.1) c).length =
        charUnit alphabet isAligned :=
    fun c => length_charPut nonempty ascending isAligned c.1
  have takes := takesEach nonempty ascending isAligned
  -- The characters are known to be those of the alphabet.
  have units : (x.attachWith (· ∈ alphabet) inside).map Subtype.val = x :=
    List.attachWith_map_subtype_val ..
  generalize x.attachWith (· ∈ alphabet) inside = us at units
  subst units
  have count : us.length / 16384 < turns := by rwa [List.length_map] at enough
  have empty : @HasGot alphabet isAligned [] [] := rfl
  have gets := generalBy_gets_each widths takes takes count empty bAlign pos
  rw [List.flatMap_map, List.length_map]
  exact gets

end

/-! ## Sizes -/

/-- The zeros of an alignment at a position, where one is asked for. -/
def gapAt (asked bAlign : Bool) (pos : Nat) : List Bool :=
  if asked then List.replicate (padding bAlign pos) false else []

theorem alignWrite_puts {b : AsnBufBits} (wellFormed : b.WellFormed) (asked : Bool) {pos : Nat}
    (position : (8 - b.writeBitPos) % 8 = pos % 8) :
    Puts (alignWrite asked) b (gapAt asked b.bAlign pos) := by
  have zeros := AsnBufBits.gap_eq position
  -- No zeros are put in a buffer that is not aligned.
  have nothing : ∀ bits : List Bool, bits = [] → (alignWrite asked).run b = .ok 0 b →
      Puts (alignWrite asked) b bits := by
    rintro bits rfl ran
    exact ⟨b, ran, .refl wellFormed⟩
  cases asked with
  | false => exact nothing _ rfl rfl
  | true =>
    cases mode : b.bAlign with
    | false =>
      apply nothing
      · rw [gapAt, padding]
        rfl
      · rw [alignWrite, run_bind_of_ok (EStateM.run_get b), mode]
        rfl
    | true =>
      have gap := putGap_puts wellFormed
      rw [zeros, mode] at gap
      refine gap.of_run ?_
      rw [alignWrite, run_bind_of_ok (EStateM.run_get b), mode]
      rfl

/-- The zeros of an alignment that is asked for are skipped in front of a value. -/
theorem Gets.alignAsked {α : Type} {asked bAlign : Bool} {pos : Nat} {bits : List Bool}
    {pDec : UInt64 → BitsM (α × UInt64)} {same : α → Prop}
    (gets : Gets bAlign (pos + (gapAt asked bAlign pos).length) bits pDec same) :
    Gets bAlign pos (gapAt asked bAlign pos ++ bits)
      (fun bitsDecoded => do
        let skipped ← alignRead asked
        pDec (bitsDecoded + skipped)) same := by
  intro r rest mode stands countable bitsDecoded
  have nothing : gapAt asked bAlign pos = [] → (alignRead asked).run r = .ok 0 r →
      ∃ y r', (do
          let skipped ← alignRead asked
          pDec (bitsDecoded + skipped)).run r =
            .ok (y, bitsDecoded + .ofNat (gapAt asked bAlign pos ++ bits).length) r' ∧ same y ∧
        r'.bAlign = bAlign ∧ r'.Stands (pos + (gapAt asked bAlign pos ++ bits).length) rest := by
    intro none ran
    rw [none] at gets stands countable ⊢
    rw [run_bind_of_ok ran, UInt64.add_zero]
    exact gets r rest mode stands countable bitsDecoded
  cases asked with
  | false => exact nothing rfl rfl
  | true =>
    cases aligned : bAlign with
    | false =>
      subst aligned
      apply nothing
      · rw [gapAt, padding]
        rfl
      · rw [alignRead, run_bind_of_ok (EStateM.run_get r), mode]
        rfl
    | true =>
      subst aligned
      have gap : gapAt true true pos = List.replicate (padding true pos) false := rfl
      rw [gap, List.length_replicate] at gets
      rw [gap] at stands countable ⊢
      obtain ⟨y, r', ran, others⟩ := gets.align r rest mode stands countable bitsDecoded
      refine ⟨y, r', ?_, others⟩
      rw [← ran, alignRead]
      simp only [bind_assoc]
      rw [run_bind_of_ok (EStateM.run_get r), mode]
      simp only [and_self, if_true, bind_assoc, pure_bind]

/-- The bounds of a size, as far apart as the routines compute it. -/
def boundsRange (bounds : Int32 × Int32) : Int :=
  (bounds.2 - bounds.1 + 1).toInt

/-- The number of bits that sizes between two bounds need. -/
def boundsBits (bounds : Int32 × Int32) : Nat :=
  (boundsRange bounds - 1).toNat.size

theorem minBits_boundsRange (bounds : Int32 × Int32) :
    minBits (boundsRange bounds - 1) 0 = .ok (boundsBits bounds) := by
  have bound : boundsRange bounds < 2 ^ 31 := Int32.toInt_lt _
  by_cases positive : 0 ≤ boundsRange bounds - 1
  · have number : ((boundsRange bounds - 1).toNat : Int) = boundsRange bounds - 1 :=
      Int.toNat_of_nonneg positive
    have bits := minBits_natCast (n := (boundsRange bounds - 1).toNat) (by omega)
    rwa [number] at bits
  · -- A difference that is negative needs no bits.
    have none : (boundsRange bounds - 1).toNat = 0 := by omega
    rw [minBits_of_nonpos (by omega), boundsBits, none, Nat.size_zero]

/-- The bits of a size between two bounds, where there is more than one size. -/
def sizeBits (bounds : Int32 × Int32) (asked bAlign : Bool) (pos size : Nat) : List Bool :=
  if 1 < boundsRange bounds then
    gapAt asked bAlign pos ++ sizeField (boundsBits bounds) (size - bounds.1.toInt).toNat
  else []

/-- The size that is got from those bits. -/
def gotSize (bounds : Int32 × Int32) (size : Nat) : Int :=
  (if 1 < boundsRange bounds then
    (size - bounds.1.toInt).toNat % 2 ^ fieldWidth (boundsBits bounds) else 0 : Nat) +
    bounds.1.toInt

/-- The routine takes the size from its field. -/
theorem decodeSize_eq (asked : Bool) (bounds : Int32 × Int32) :
    decodeSize asked bounds = fun bitsDecoded => do
      let (size, bitsDecoded) ← (if 1 < boundsRange bounds then do
          let skipped ← alignRead asked
          getSizeOver (boundsBits bounds) (bitsDecoded + skipped)
        else return (0, bitsDecoded))
      if bounds.2.toInt < size + bounds.1.toInt then
        throw (.snaccException "String size not withing restricted bounds" 6006)
      else return (size + bounds.1.toInt, bitsDecoded) := by
  funext bitsDecoded
  have counted := minBits_boundsRange bounds
  obtain ⟨lower, upper⟩ := bounds
  unfold boundsRange at counted ⊢
  unfold decodeSize
  simp only [counted, ofExcept_ok, pure_bind]
  by_cases more : 1 < (upper - lower + 1).toInt
  · simp only [if_pos more, getSizeOver, bind_assoc]
  · simp only [if_neg more, pure_bind]

theorem gotSize_le {bounds : Int32 × Int32} {size : Nat} (least : bounds.1.toInt ≤ size) :
    gotSize bounds size ≤ size := by
  unfold gotSize
  have less := Nat.mod_le (size - bounds.1.toInt).toNat (2 ^ fieldWidth (boundsBits bounds))
  split <;> omega

theorem le_gotSize (bounds : Int32 × Int32) (size : Nat) :
    bounds.1.toInt ≤ gotSize bounds size := by
  unfold gotSize
  omega

theorem decodeSize_gets {asked bAlign : Bool} {bounds : Int32 × Int32} {size : Nat}
    (least : bounds.1.toInt ≤ size) (most : (size : Int) ≤ bounds.2.toInt) (pos : Nat) :
    Gets bAlign pos (sizeBits bounds asked bAlign pos size) (decodeSize asked bounds)
      (· = gotSize bounds size) := by
  have small := gotSize_le least
  rw [decodeSize_eq]
  -- The size is not above the upper bound.
  have checked : ∀ n : Nat, n + bounds.1.toInt = gotSize bounds size → ∀ here,
      Gets bAlign here [] (fun bitsDecoded => (if bounds.2.toInt < n + bounds.1.toInt then
        throw (.snaccException "String size not withing restricted bounds" 6006)
      else return (n + bounds.1.toInt, bitsDecoded) : BitsM (Int × UInt64)))
        (· = gotSize bounds size) := by
    intro n same here
    have inside : ¬bounds.2.toInt < gotSize bounds size := by omega
    simp only [same, if_neg inside]
    exact gets_pure bAlign here _
  by_cases more : 1 < boundsRange bounds
  · have bits : sizeBits bounds asked bAlign pos size = gapAt asked bAlign pos ++
        sizeField (boundsBits bounds) (size - bounds.1.toInt).toNat := by
      rw [sizeBits, if_pos more]
    have field := (getSizeOver_gets bAlign (pos + (gapAt asked bAlign pos).length)
      (boundsBits bounds) (size - bounds.1.toInt).toNat).alignAsked
    simp only [if_pos more]
    rw [bits, ← List.append_nil (gapAt _ _ _ ++ _)]
    apply field.bind fun (n : Nat) bitsDecoded => if bounds.2.toInt < n + bounds.1.toInt then
      throw (.snaccException "String size not withing restricted bounds" 6006)
    else return (n + bounds.1.toInt, bitsDecoded)
    rintro n rfl
    apply checked
    rw [gotSize, if_pos more]
  · have bits : sizeBits bounds asked bAlign pos size = [] := by
      rw [sizeBits, if_neg more]
    simp only [if_neg more, pure_bind]
    rw [bits]
    apply checked
    rw [gotSize, if_neg more]

/-- The bits in front of the contents of a string of constrained size. -/
@[grind =] def frontBits (asked : Bool) (bounds : Int32 × Int32) (bAlign : Bool) (pos size : Nat) :
    List Bool :=
  let field := sizeBits bounds asked bAlign pos size
  field ++ gapAt asked bAlign (pos + field.length)

/-- The field of a size is put behind its gap, where there is more than one size. -/
theorem sizeBits_puts {b : AsnBufBits} (wellFormed : b.WellFormed) (asked : Bool)
    {bounds : Int32 × Int32} {size : Nat} (least : bounds.1.toInt ≤ size) {pos : Nat}
    (position : (8 - b.writeBitPos) % 8 = pos % 8) :
    Puts (if 1 < boundsRange bounds then do
        let len ← alignWrite asked
        return len + (← putSizeOver (boundsBits bounds) (size - bounds.1.toInt))
      else return 0) b (sizeBits bounds asked b.bAlign pos size) := by
  have number : (size : Int) - bounds.1.toInt = (size - bounds.1.toInt).toNat :=
    (Int.toNat_of_nonneg (by omega)).symm
  rw [sizeBits]
  by_cases more : 1 < boundsRange bounds
  · rw [if_pos more, if_pos more, number]
    exact (alignWrite_puts wellFormed _ position).add fun b' wrote =>
      putSizeOver_puts wrote.wellFormed _ _
  · rw [if_neg more, if_neg more]
    exact ⟨b, rfl, .refl wellFormed⟩

/-- A gap follows the field of a size. -/
theorem frontBits_puts {b : AsnBufBits} {asked : Bool} {bounds : Int32 × Int32} {size pos : Nat}
    {field : BitsM UInt64} (puts : Puts field b (sizeBits bounds asked b.bAlign pos size))
    (position : (8 - b.writeBitPos) % 8 = pos % 8) :
    Puts (do let len ← field; return len + (← alignWrite asked)) b
      (frontBits asked bounds b.bAlign pos size) := by
  -- The position behind the field tells how many zeros follow.
  refine puts.add fun b' wrote => ?_
  have place := wrote.position
  have next : (8 - b'.writeBitPos) % 8 =
      (pos + (sizeBits bounds asked b.bAlign pos size).length) % 8 := by omega
  have zeros := alignWrite_puts wrote.wellFormed asked next
  rwa [wrote.bAlign] at zeros

/-- Whether the upper bound asks for an alignment of the characters. -/
def asksFor (alphabet : List UInt8) (bounds : Int32 × Int32) : Bool :=
  16 < bounds.2 * .ofNat (charBits alphabet true)

/-- The bits in front of the characters of a string of constrained size. -/
def sizeFront (alphabet : List UInt8) (bounds : Int32 × Int32) (bAlign : Bool) (pos size : Nat) :
    List Bool :=
  let asked := asksFor alphabet bounds
  let field := sizeBits bounds asked bAlign pos size
  field ++ gapAt asked bAlign (pos + field.length)

section

variable (nonempty : alphabet ≠ []) (ascending : alphabet.Pairwise (· < ·)) (isAligned : Bool)

include nonempty ascending

theorem AsnString.asked_eq (bounds : Int32 × Int32) :
    asked alphabet bounds = .ok (asksFor alphabet bounds) := by
  obtain ⟨bits, power, -⟩ := numBits_eq nonempty ascending
  unfold asked
  rw [bits]
  change (do let B2 ← findB2 (alphabet.length - 1).size; _) = _
  rw [power]
  rfl

/-- A string whose size is between the bounds is put behind its size. -/
theorem AsnString.encodeWithSizeConstraint_puts {x : List UInt8} (inside : ∀ c ∈ x, c ∈ alphabet)
    {bounds : Int32 × Int32} (least : bounds.1.toInt ≤ x.length)
    (most : (x.length : Int) ≤ bounds.2.toInt) {b : AsnBufBits} (wellFormed : b.WellFormed)
    {pos : Nat} (position : (8 - b.writeBitPos) % 8 = pos % 8) :
    Puts (encodeWithSizeConstraint alphabet isAligned bounds x) b
      (sizeFront alphabet bounds b.bAlign pos x.length ++
        x.flatMap (charPut alphabet isAligned)) := by
  have counted := minBits_boundsRange bounds
  have asked := asked_eq nonempty ascending bounds
  have width := length_charPut nonempty ascending isAligned
  -- The size comes first, behind its gap.
  have size := sizeBits_puts wellFormed (asksFor alphabet bounds) least position
  have gap := frontBits_puts size position
  have all := gap.add fun b' wrote => by
    have interprets := interpret_interprets nonempty ascending isAligned inside
    have chars : Puts (PERGeneral.interpretAll (interpret alphabet isAligned x) 0 x.length) b' _ :=
      interprets.interpretAll_puts wrote.wellFormed (by omega)
    have total := length_flatMap_units width x
    rwa [Nat.zero_mul, List.drop_zero, List.take_of_length_le (by omega)] at chars
  refine all.of_run ?_
  obtain ⟨lower, upper⟩ := bounds
  unfold boundsRange at counted ⊢
  dsimp only at least most
  have within : ¬((x.length : Int) < lower.toInt ∨ upper.toInt < (x.length : Int)) := by omega
  unfold encodeWithSizeConstraint
  simp only [asked, counted, ofExcept_ok, pure_bind, if_neg within, bind_assoc]

/-- What is got of a string whose size is between the bounds: the first characters that are put. -/
theorem AsnString.decodeWithSizeConstraint_gets {x : List UInt8} (inside : ∀ c ∈ x, c ∈ alphabet)
    {bounds : Int32 × Int32} (least : bounds.1.toInt ≤ x.length)
    (most : (x.length : Int) ≤ bounds.2.toInt)
    (read : (gotSize bounds x.length).toNat = x.length) (bAlign : Bool) (pos : Nat) :
    Gets bAlign pos (sizeFront alphabet bounds bAlign pos x.length ++
        x.flatMap (charPut alphabet isAligned))
      (decodeWithSizeConstraint alphabet isAligned bounds)
      (· = x.map (charGot alphabet isAligned)) := by
  have asked := asked_eq nonempty ascending bounds
  unfold decodeWithSizeConstraint
  simp only [asked, ofExcept_ok, pure_bind]
  rw [sizeFront, List.append_assoc]
  have size : Gets bAlign pos _ (decodeSize (asksFor alphabet bounds) bounds) _ :=
    decodeSize_gets least most pos
  apply size.bind fun n bitsDecoded => do
    let skipped ← alignRead (asksFor alphabet bounds)
    PERGeneral.deterpretAll (deterpret alphabet isAligned) [] n.toNat (bitsDecoded + skipped)
  rintro n rfl
  rw [read]
  exact (deterpretAll_gets nonempty ascending isAligned bAlign _ [] inside).alignAsked

/-- As many characters are got as the size says that is read. -/
theorem AsnString.size_of_decoded {x ys : List UInt8} {bounds : Int32 × Int32}
    (least : bounds.1.toInt ≤ x.length) (most : (x.length : Int) ≤ bounds.2.toInt) {bAlign : Bool}
    {pos : Nat} {rest : List Bool} {r r' : AsnBufBits} {bitsDecoded len : AsnLen}
    (mode : r.bAlign = bAlign)
    (stands : r.Stands pos (sizeFront alphabet bounds bAlign pos x.length ++ rest))
    (countable : (sizeFront alphabet bounds bAlign pos x.length ++ rest).length < 2 ^ 64)
    (ran : (decodeWithSizeConstraint alphabet isAligned bounds bitsDecoded).run r =
      .ok (ys, len) r') : ys.length = (gotSize bounds x.length).toNat := by
  have asked := asked_eq nonempty ascending bounds
  have size : Gets bAlign pos _ (decodeSize (asksFor alphabet bounds) bounds) _ :=
    decodeSize_gets least most pos
  unfold decodeWithSizeConstraint at ran
  simp only [asked, ofExcept_ok, pure_bind] at ran
  rw [sizeFront, List.append_assoc] at stands countable
  obtain ⟨n, r₁, rfl, -, -, later⟩ := size.behind mode stands countable bitsDecoded
  rw [later fun n bitsDecoded => do
    let skipped ← alignRead (asksFor alphabet bounds)
    PERGeneral.deterpretAll (deterpret alphabet isAligned) [] n.toNat (bitsDecoded + skipped)] at ran
  obtain ⟨skipped, r₂, -, last⟩ := run_bind_eq_ok.mp ran
  rw [length_of_deterpretAll last, List.length_nil, Nat.zero_add]

end

/-! ## Constraints -/

/-- The sizes that a constraint allows. -/
def SizeConstraint.Allows (constraint : SizeConstraint) (size : Nat) : Prop :=
  if constraint.upperBoundExists then
    constraint.lowerBound.toNat ≤ size ∧ size ≤ constraint.upperBound.toNat
  else constraint.lowerBound.toNat = size

theorem SizeConstraint.failure_isSome (constraint : SizeConstraint) (size : Nat) :
    (constraint.failure size).isSome = false ↔ constraint.Allows size := by
  unfold failure Allows
  by_cases ranged : constraint.upperBoundExists
  · simp only [if_pos ranged]
    split <;> simp <;> omega
  · simp only [if_neg ranged]
    split <;> simp_all

theorem checkStringTypPermittedAlpha_eq_none {x : List UInt8} (inside : ∀ c ∈ x, c ∈ alphabet) :
    checkStringTypPermittedAlpha alphabet x = none := by
  unfold checkStringTypPermittedAlpha
  apply if_pos
  rw [List.all_eq_true]
  intro c there
  exact List.contains_iff_mem.mpr (inside c (List.mem_of_mem_take there))

/-- The constraints of a type accept the strings whose size one of them allows. -/
theorem AsnString.checkConstraints_eq_false {type : AsnStringType}
    (nonempty : type.permittedAlphabet ≠ []) {x : List UInt8}
    (inside : ∀ c ∈ x, c ∈ type.permittedAlphabet) :
    (checkConstraints type x).1 = false ↔ type.sizeConstraints = [] ∨
      ∃ constraint ∈ type.sizeConstraints, constraint.Allows x.length := by
  have alpha := checkStringTypPermittedAlpha_eq_none inside
  have some : type.permittedAlphabet.isEmpty = false := by
    cases empty : type.permittedAlphabet with
    | nil => exact absurd empty nonempty
    | cons c rest => rfl
  unfold checkConstraints
  simp only [alpha, some, Option.isSome_none, Bool.or_false, Bool.or_self, Bool.and_eq_false_iff,
    Bool.not_eq_false', List.isEmpty_iff, List.map_eq_nil_iff]
  -- Not all the constraints fail where one of them allows the size.
  have failing : ((type.sizeConstraints.map fun constraint => constraint.failure x.length).all
      Option.isSome = false) ↔ ∃ constraint ∈ type.sizeConstraints, constraint.Allows x.length := by
    rw [List.all_eq_false]
    constructor
    · rintro ⟨text, there, passes⟩
      obtain ⟨constraint, member, rfl⟩ := List.mem_map.mp there
      exact ⟨constraint, member,
        (constraint.failure_isSome _).mp (Bool.eq_false_of_not_eq_true passes)⟩
    · rintro ⟨constraint, member, allows⟩
      refine ⟨_, List.mem_map_of_mem member, ?_⟩
      rw [(constraint.failure_isSome _).mpr allows]
      exact Bool.false_ne_true
  rw [failing]

/-- The sizes that the encoder of a type accepts. -/
def AsnStringType.AcceptsSize (type : AsnStringType) (size : Nat) : Prop :=
  match type.sizeConstraints with
  | [] => True
  | first :: rest =>
    (∃ constraint ∈ first :: rest, constraint.Allows size) ∧
      (sizeBounds first rest).1.toInt ≤ size ∧ (size : Int) ≤ (sizeBounds first rest).2.toInt

/-- The sizes between the bounds of a type that are read as they were put. -/
def AsnStringType.KeepsSize (type : AsnStringType) (size : Nat) : Prop :=
  match type.sizeConstraints with
  | [] => True
  | first :: rest =>
    let bounds := sizeBounds first rest
    if 1 < boundsRange bounds then
      size = 0 ∨ size - bounds.1.toInt < 2 ^ fieldWidth (boundsBits bounds)
    else bounds.1.toInt.toNat = size

theorem toNat_gotSize {bounds : Int32 × Int32} {size : Nat} (least : bounds.1.toInt ≤ size) :
    (gotSize bounds size).toNat = size ↔
      if 1 < boundsRange bounds then
        size = 0 ∨ size - bounds.1.toInt < 2 ^ fieldWidth (boundsBits bounds)
      else bounds.1.toInt.toNat = size := by
  unfold gotSize
  by_cases more : 1 < boundsRange bounds
  · rw [if_pos more, if_pos more]
    have cast : ((2 ^ fieldWidth (boundsBits bounds) : Nat) : Int) =
        2 ^ fieldWidth (boundsBits bounds) := by
      push_cast
      rfl
    have some := Nat.two_pow_pos (fieldWidth (boundsBits bounds))
    generalize 2 ^ fieldWidth (boundsBits bounds) = all at cast some ⊢
    rw [← cast]
    -- What is left of a number is the number where it is small enough.
    rcases Nat.lt_or_ge (size - bounds.1.toInt).toNat all with small | large
    · rw [Nat.mod_eq_of_lt small]
      omega
    · have less := Nat.mod_lt (size - bounds.1.toInt).toNat some
      omega
  · rw [if_neg more, if_neg more]
    omega

end Esnacc.Cxx
