import Esnacc.Cxx.PerLengths
import Esnacc.Cxx.RoundTrips
import Esnacc.Lib.LengthCoded

/-! Both sides of C++ PER divide a value that has no constraints into the same parts. -/

namespace Esnacc.Cxx

open Lib

/-! ## Putting -/

/-- The zeros that an alignment would put next. -/
@[grind =] def AsnBufBits.gap (b : AsnBufBits) : List Bool :=
  List.replicate (padding b.bAlign (8 - b.writeBitPos)) false

/-- Behind a gap and whole octets there is no gap. -/
theorem AsnBufBits.Wrote.gap_eq_nil {b b' : AsnBufBits} {bits : List Bool}
    (wrote : b.Wrote (b.gap ++ bits) b') (whole : bits.length % 8 = 0) : b'.gap = [] := by
  -- In an aligned buffer the gap ends at an octet.
  have position := wrote.position
  have none : padding b'.bAlign (8 - b'.writeBitPos) = 0 := by
    rw [gap, List.length_append, List.length_replicate] at position
    rw [wrote.bAlign, padding]
    by_cases aligned : b.bAlign
    · rw [padding, if_pos aligned] at position
      rw [if_pos aligned]
      omega
    · rw [if_neg aligned]
  rw [gap, none]
  rfl

theorem putGap_puts {b : AsnBufBits} (wellFormed : b.WellFormed) : Puts putAlignment b b.gap :=
  putAlignment_puts wellFormed

theorem Puts.addAligned {x y : BitsM UInt64} {b : AsnBufBits} {bits more : List Bool}
    (first : Puts x b (b.gap ++ bits)) (whole : bits.length % 8 = 0)
    (second : ∀ b' : AsnBufBits, b'.WellFormed → Puts y b' (b'.gap ++ more)) :
    Puts (do let len ← x; return len + (← y)) b (b.gap ++ (bits ++ more)) := by
  rw [← List.append_assoc]
  apply first.add
  intro b' wrote
  -- The gap of the second routine is empty.
  have behind := second b' wrote.wellFormed
  rwa [wrote.gap_eq_nil whole, List.nil_append] at behind

theorem putOctet_puts {b : AsnBufBits} (wellFormed : b.WellFormed) (c : UInt8) :
    Puts (putSeg [c] 8) b (bitsOf c) := by
  -- All the bits of the octet are put.
  have put := putSeg_puts wellFormed [c] (n := 8) (by simp) (by decide)
  rwa [List.flatMap_singleton, List.take_of_length_le (by simp)] at put

/-- A length and some units, each behind an alignment: only the first alignment leaves a gap. -/
theorem part_puts {b : AsnBufBits} (wellFormed : b.WellFormed) {length units : BitsM UInt64}
    {lengthBits bits : List Bool} (octets : lengthBits.length % 8 = 0)
    (putsLength : ∀ b' : AsnBufBits, b'.WellFormed → Puts length b' lengthBits)
    (putsUnits : ∀ b' : AsnBufBits, b'.WellFormed → Puts units b' bits) :
    Puts (do
      let len ← putAlignment
      let len := len + (← length)
      let len := len + (← putAlignment)
      return len + (← units)) b (b.gap ++ (lengthBits ++ bits)) := by
  -- The length ends at an octet, so that the second alignment puts nothing.
  have first := (putGap_puts wellFormed).add fun b' wrote => putsLength b' wrote.wellFormed
  have gap : ∀ b' : AsnBufBits, b'.WellFormed → Puts putAlignment b' (b'.gap ++ []) := by
    intro b' here
    rw [List.append_nil]
    exact putGap_puts here
  have second := first.addAligned octets gap
  have third := second.add fun b' wrote => putsUnits b' wrote.wellFormed
  simpa only [bind_assoc, pure_bind, List.append_nil, List.append_assoc] using third

/-- A routine that puts some of the units that are given as bits, from whole octets on. -/
def PutsUnits (put : Nat → Nat → BitsM UInt64) (unit total : Nat) (contents : List Bool) : Prop :=
  ∀ b offset count, b.WellFormed → offset % 8 = 0 → offset + count ≤ total → count ≤ 65536 →
    Puts (put offset count) b ((contents.drop (offset * unit)).take (count * unit))

variable {put : Nat → Nat → BitsM UInt64} {unit total : Nat} {contents : List Bool}

theorem length_units (size : contents.length = total * unit) (offset count : Nat)
    (within : offset + count ≤ total) :
    ((contents.drop (offset * unit)).take (count * unit)).length = count * unit := by
  have bound : (offset + count) * unit ≤ total * unit := Nat.mul_le_mul_right unit within
  rw [Nat.add_mul] at bound
  rw [List.length_take, List.length_drop, size]
  omega

theorem encodeFragment_puts (puts : PutsUnits put unit total contents) {b : AsnBufBits}
    (wellFormed : b.WellFormed) (offset count : Nat) (octets : offset % 8 = 0)
    (within : offset + count * 16384 ≤ total) (most : count ≤ 4) :
    Puts (encodeFragment put offset count) b (b.gap ++ (bitsOf (fragmentOctet count) ++
      (contents.drop (offset * unit)).take (count * 16384 * unit))) := by
  -- The length is one octet.
  refine part_puts wellFormed (by rw [length_bitsOf]) (fun b' here => ?_) fun b' here =>
    puts b' offset _ here octets within (by omega)
  obtain ⟨b'', ran, wrote⟩ := putOctet_puts here (fragmentOctet count)
  refine ⟨b'', ?_, wrote⟩
  rw [pEncLen16kFragment, ← fragmentOctet, run_bind_of_ok ran]
  rfl

/-- The last part is put as such. -/
theorem encodePart_puts (puts : PutsUnits put unit total contents)
    (size : contents.length = total * unit) {b : AsnBufBits} (wellFormed : b.WellFormed)
    (offset tempLen : Nat) (octets : offset % 8 = 0) (all : offset + tempLen = total)
    (few : tempLen < 16384) :
    Puts (encodePart put offset tempLen) b
      (b.gap ++ lengthCoded unit tempLen (contents.drop (offset * unit))) := by
  -- All the units behind the offset are put.
  have units : ∀ b' : AsnBufBits, b'.WellFormed →
      Puts (put offset tempLen) b' (contents.drop (offset * unit)) := by
    intro b' here
    have put := puts b' offset tempLen here octets (by omega) (by omega)
    have enough : (contents.drop (offset * unit)).length ≤ tempLen * unit := by
      rw [List.length_drop, size, ← all, Nat.add_mul]
      omega
    rwa [List.take_of_length_le enough] at put
  rw [encodePart]
  by_cases short : tempLen < 128
  · -- The length is one octet.
    rw [if_pos short, lengthCoded_of_lt_128 short]
    refine part_puts wellFormed (by rw [length_bitsOf]) (fun b' here => ?_) units
    obtain ⟨b'', ran, wrote⟩ := putOctet_puts here (.ofNat tempLen)
    refine ⟨b'', ?_, wrote⟩
    rw [pEncDefLenTo127, run_bind_of_ok ran]
    rfl
  · -- The length is two octets.
    rw [if_neg short, if_pos few, lengthCoded_of_lt_16k (by omega) few,
      ← List.append_assoc (bitsOf _)]
    refine part_puts wellFormed (by simp) (fun b' here => ?_) units
    obtain ⟨mid, ran, wrote⟩ := putOctet_puts here (.ofNat (tempLen >>> 8) ||| 0x80)
    obtain ⟨b'', later, wroteMore⟩ := putOctet_puts wrote.wellFormed (.ofNat tempLen)
    refine ⟨b'', ?_, wrote.trans wroteMore⟩
    rw [pEncLen1to16k, run_bind_of_ok ran, run_bind_of_ok later]
    rfl

/-- What comes behind all the fragments: the last part, or a length of zero. -/
def encodeEnd (put : Nat → Nat → BitsM UInt64) (offset tempLen : Nat) : BitsM UInt64 :=
  if tempLen = 0 then do
    let len ← putAlignment
    return len + (← putSeg [0] 8)
  else encodePart put offset tempLen

theorem encodeRest_eq (put : Nat → Nat → BitsM UInt64) (offset tempLen : Nat) :
    encodeRest put offset tempLen = do
      let len ← (if tempLen / 16384 ≠ 0 then encodeFragment put offset (tempLen / 16384)
        else return 0)
      return len + (← encodeEnd put (offset + tempLen / 16384 * 16384)
        (tempLen - 16384 * (tempLen / 16384))) := by
  -- The sums are taken in another order.
  unfold encodeRest encodeEnd
  by_cases none : tempLen - 16384 * (tempLen / 16384) = 0
  · simp only [if_pos none, bind_assoc, pure_bind, UInt64.add_assoc]
  · simp only [if_neg none]

theorem encodeEnd_puts (puts : PutsUnits put unit total contents)
    (size : contents.length = total * unit) {b : AsnBufBits} (wellFormed : b.WellFormed)
    {offset tempLen : Nat} (octets : offset % 8 = 0) (all : offset + tempLen = total)
    (few : tempLen < 16384) :
    Puts (encodeEnd put offset tempLen) b
      (b.gap ++ lengthCoded unit tempLen (contents.drop (offset * unit))) := by
  rw [encodeEnd]
  by_cases none : tempLen = 0
  · -- Nothing is left, and the octet of the length is zero.
    subst none
    have nothing : contents.drop (offset * unit) = [] := by
      rw [List.drop_eq_nil_iff, size, ← all, Nat.add_zero]
    rw [if_pos rfl, lengthCoded_of_lt_128 (by decide), nothing, List.append_nil]
    exact (putAlignment_puts wellFormed).add fun b' wrote => putOctet_puts wrote.wellFormed 0
  · rw [if_neg none]
    exact encodePart_puts puts size wellFormed offset tempLen octets all few

theorem Puts.zero_add {x : BitsM UInt64} {b : AsnBufBits} {bits : List Bool}
    (puts : Puts x b bits) :
    Puts (do let len ← pure 0; return len + (← x)) b bits := by
  obtain ⟨b', ran, wrote⟩ := puts
  refine ⟨b', ?_, wrote⟩
  rw [pure_bind, run_bind_of_ok ran, UInt64.zero_add]
  rfl

/-- What is left behind the longest fragments is put as such. -/
theorem encodeRest_puts (puts : PutsUnits put unit total contents)
    (size : contents.length = total * unit) {b : AsnBufBits} (wellFormed : b.WellFormed)
    {offset tempLen : Nat} (octets : offset % 8 = 0) (all : offset + tempLen = total)
    (few : tempLen < 65536) :
    Puts (encodeRest put offset tempLen) b
      (b.gap ++ lengthCoded unit tempLen (contents.drop (offset * unit))) := by
  rw [encodeRest_eq]
  by_cases none : tempLen / 16384 = 0
  · -- There is no other fragment.
    have last := encodeEnd_puts puts size wellFormed octets all (by omega)
    simp only [none, ne_eq, not_true_eq_false, if_false, Nat.zero_mul, Nat.add_zero, Nat.mul_zero,
      Nat.sub_zero]
    exact last.zero_add
  · -- A fragment of up to three times 16384 units comes first.
    have fragment := encodeFragment_puts puts wellFormed offset (tempLen / 16384) octets
      (by omega) (by omega)
    have rest : ∀ b' : AsnBufBits, b'.WellFormed → Puts (encodeEnd put
        (offset + tempLen / 16384 * 16384) (tempLen - 16384 * (tempLen / 16384))) b' (b'.gap ++
          lengthCoded unit (tempLen - 16384 * (tempLen / 16384))
            (contents.drop ((offset + tempLen / 16384 * 16384) * unit))) :=
      fun b' here => encodeEnd_puts puts size here (by omega) (by omega) (by omega)
    have whole : (bitsOf (fragmentOctet (tempLen / 16384)) ++
        (contents.drop (offset * unit)).take (tempLen / 16384 * 16384 * unit)).length % 8 = 0 := by
      rw [List.length_append, length_bitsOf, length_units size _ _ (by omega), Nat.mul_right_comm]
      omega
    have sum := fragment.addAligned whole rest
    have left : tempLen - tempLen / 16384 * 16384 = tempLen - 16384 * (tempLen / 16384) := by omega
    rw [if_pos none, lengthCoded_of_fragment (by omega) (k := tempLen / 16384) (by omega),
      List.drop_drop, ← Nat.add_mul, left]
    rwa [List.append_assoc] at sum

/-- The longest fragments are put in front of what comes behind them. -/
theorem encodeFragments_puts (puts : PutsUnits put unit total contents)
    (size : contents.length = total * unit) {y : BitsM UInt64} {more : List Bool}
    (rest : ∀ b' : AsnBufBits, b'.WellFormed → Puts y b' (b'.gap ++ more)) {b : AsnBufBits}
    (wellFormed : b.WellFormed) (offset count : Nat) (octets : offset % 8 = 0)
    (within : offset + count * 65536 ≤ total) :
    Puts (do let len ← encodeFragments put offset count; return len + (← y)) b
      (b.gap ++ (fragments unit count (contents.drop (offset * unit)) ++ more)) := by
  induction count generalizing offset b with
  | zero => exact (rest b wellFormed).zero_add
  | succ count ih =>
    -- One fragment, and the others behind it.
    have room : offset + 65536 ≤ total := by omega
    have fragment := encodeFragment_puts puts wellFormed offset 4 octets room (Nat.le_refl 4)
    have whole : (bitsOf (fragmentOctet 4) ++
        (contents.drop (offset * unit)).take (4 * 16384 * unit)).length % 8 = 0 := by
      rw [List.length_append, length_bitsOf, length_units size _ _ room]
      omega
    have sum := fragment.addAligned whole fun b' here =>
      ih here (offset + 65536) (by omega) (by omega)
    have behind : (contents.drop (offset * unit)).drop (65536 * unit) =
        contents.drop ((offset + 65536) * unit) := by
      rw [List.drop_drop, ← Nat.add_mul]
    rw [fragments, behind]
    simpa only [encodeFragments, bind_assoc, pure_bind, UInt64.add_assoc, List.append_assoc,
      Nat.reduceMul] using sum

/-- A value that has no constraints is put in its parts, behind a gap. -/
theorem encodeGeneral_puts (puts : PutsUnits put unit total contents)
    (size : contents.length = total * unit) {b : AsnBufBits} (wellFormed : b.WellFormed) :
    Puts (encodeGeneral put total) b (b.gap ++ lengthCoded unit total contents) := by
  rw [encodeGeneral]
  by_cases more : 16384 ≤ total
  · -- Fragments of 64k units come first, as many as there are.
    have rest : ∀ b' : AsnBufBits, b'.WellFormed →
        Puts (encodeRest put (total / 65536 * 65536) (total - total / 65536 * 65536)) b' (b'.gap ++
          lengthCoded unit (total - total / 65536 * 65536)
            (contents.drop (total / 65536 * 65536 * unit))) :=
      fun b' here => encodeRest_puts puts size here (by omega) (by omega) (by omega)
    have all := encodeFragments_puts puts size rest wellFormed 0 (total / 65536) rfl (by omega)
    have parts := lengthCoded_fragments unit (total / 65536) (total - total / 65536 * 65536) contents
    rw [show total / 65536 * 65536 + (total - total / 65536 * 65536) = total by omega] at parts
    rw [if_pos more, parts]
    rwa [Nat.zero_mul, List.drop_zero] at all
  · have last := encodePart_puts puts size wellFormed 0 total rfl (Nat.zero_add total)
      (by omega)
    rw [if_neg more]
    rwa [Nat.zero_mul, List.drop_zero] at last

/-! ## Getting -/

theorem AsnBufBits.Stands.getOctet {b : AsnBufBits} {pos : Nat} {c : UInt8} {more : List Bool}
    (stands : b.Stands pos (bitsOf c ++ more)) (countable : (bitsOf c ++ more).length < 2 ^ 64) :
    ∃ octets b', (Cxx.getBits 8).run b = .ok octets b' ∧ octets.headD 0 = c ∧
      b'.bAlign = b.bAlign ∧ b'.Stands (pos + 8) more := by
  -- The first octet that was read has the bits of the octet.
  obtain ⟨octets, b', ran, front, mode, behind⟩ := stands.getBits countable (length_bitsOf c)
  have number := toNat_shr_headD (by decide) (by decide) (length_bitsOf c) front
  rw [Nat.sub_self, shr_zero, ofBits_bitsOf] at number
  exact ⟨octets, b', ran, UInt8.toNat_inj.mp number, mode, behind⟩

/-- At an octet, an alignment skips nothing. -/
theorem AsnBufBits.Stands.alignNothing {b : AsnBufBits} {pos : Nat} {more : List Bool}
    (stands : b.Stands pos more) (octet : b.bAlign → pos % 8 = 0) :
    ∃ b', Cxx.octetAlignRead.run b = .ok 0 b' ∧ b'.bAlign = b.bAlign ∧ b'.Stands pos more := by
  have none : padding b.bAlign pos = 0 := by
    -- The position counts in an aligned buffer only.
    rw [padding]
    by_cases aligned : b.bAlign
    · rw [if_pos aligned, octet aligned]
    · rw [if_neg aligned]
  have gap : b.Stands pos (List.replicate (padding b.bAlign pos) false ++ more) := by
    rwa [none]
  obtain ⟨b', ran, mode, behind⟩ := gap.octetAlignRead
  rw [none] at ran behind
  exact ⟨b', ran, mode, behind⟩

variable {α : Type}

/-- A routine that takes some units of a value, at an octet, behind those that the value has. -/
def TakesEach {υ : Type} (take : α → Nat → AsnLen → BitsM (α × AsnLen)) (has : α → List υ → Prop)
    (unitBits : υ → List Bool) (unit : Nat) : Prop :=
  ∀ x kept, has x kept → kept.length * unit % 8 = 0 → ∀ units r pos rest, (r.bAlign → pos % 8 = 0) →
    AsnBufBits.Stands r pos (units.flatMap unitBits ++ rest) →
    (units.flatMap unitBits ++ rest).length < 2 ^ 64 → ∀ bitsDecoded,
      ∃ x' r', (take x units.length bitsDecoded).run r =
          .ok (x', bitsDecoded + .ofNat (units.flatMap unitBits).length) r' ∧
        has x' (kept ++ units) ∧ r'.bAlign = r.bAlign ∧
        r'.Stands (pos + (units.flatMap unitBits).length) rest

/--
A routine that takes some units of a value, at an octet, behind those that the value has.

What a value has is told by its bits.
-/
def TakesUnits (take : α → Nat → AsnLen → BitsM (α × AsnLen)) (has : α → List Bool → Prop)
    (unit : Nat) : Prop :=
  ∀ x kept, has x kept → kept.length % 8 = 0 → ∀ k bits, bits.length = k * unit →
    ∀ r pos rest, (r.bAlign → pos % 8 = 0) → r.Stands pos (bits ++ rest) →
      (bits ++ rest).length < 2 ^ 64 → ∀ bitsDecoded,
        ∃ x' r', (take x k bitsDecoded).run r = .ok (x', bitsDecoded + .ofNat bits.length) r' ∧
          has x' (kept ++ bits) ∧ r'.bAlign = r.bAlign ∧ r'.Stands (pos + bits.length) rest

/-- The parts of a value, from the octet of a length on. -/
def partsBy (takeFragment takePart : α → Nat → AsnLen → BitsM (α × AsnLen)) (turns : Nat) (x : α)
    (bitsDecoded : AsnLen) : BitsM (α × AsnLen) := do
  let seg ← getBits 8
  let (x, seg, bitsDecoded) ← fragmentsBy takeFragment turns x (seg.headD 0) (bitsDecoded + 8)
  partBy takePart x seg bitsDecoded

variable {takeFragment takePart : α → Nat → AsnLen → BitsM (α × AsnLen)}

theorem partsBy_fragment {turns : Nat} {x : α} {bitsDecoded : AsnLen} {r r₁ : AsnBufBits}
    {octets : List UInt8} (ran : (getBits 8).run r = .ok octets r₁) {k : Nat} (some : 1 ≤ k)
    (most : k ≤ 4) (first : octets.headD 0 = fragmentOctet k) :
    (partsBy takeFragment takePart (turns + 1) x bitsDecoded).run r =
      (do
        let (x, bitsDecoded) ← takeFragment x (k * 16384) (bitsDecoded + 8)
        let skipped ← octetAlignRead
        partsBy takeFragment takePart turns x (bitsDecoded + UInt64.ofNat skipped)).run r₁ := by
  obtain ⟨high, low⟩ := fragmentOctet_spec some most
  rw [partsBy, run_bind_of_ok ran, first, fragmentsBy]
  simp only [if_pos high, low, bind_assoc, partsBy]

theorem partsBy_part {turns : Nat} {x : α} {bitsDecoded : AsnLen} {r r₁ : AsnBufBits}
    {octets : List UInt8} (ran : (getBits 8).run r = .ok octets r₁) {c : UInt8}
    (last : ¬c &&& 0xC0 = 0xC0) (first : octets.headD 0 = c) :
    (partsBy takeFragment takePart (turns + 1) x bitsDecoded).run r =
      (partBy takePart x c (bitsDecoded + 8)).run r₁ := by
  rw [partsBy, run_bind_of_ok ran, first, fragmentsBy]
  simp only [if_neg last, pure_bind]

/-- The first units have the first bits, where all units have as many. -/
theorem flatMap_take_drop {υ : Type} {unitBits : υ → List Bool} {unit : Nat}
    (width : ∀ u, (unitBits u).length = unit) (units : List υ) (k : Nat) :
    (units.flatMap unitBits).take (k * unit) = (units.take k).flatMap unitBits ∧
      (units.flatMap unitBits).drop (k * unit) = (units.drop k).flatMap unitBits := by
  induction k generalizing units with
  | zero => simp
  | succ k ih =>
    cases units with
    | nil => simp
    | cons u units =>
      obtain ⟨taken, dropped⟩ := ih units
      have all : (k + 1) * unit = (unitBits u).length + k * unit := by
        rw [width, Nat.succ_mul, Nat.add_comm]
      rw [List.flatMap_cons, all, List.take_length_add_append, List.drop_length_add_append, taken,
        dropped]
      simp

theorem length_flatMap_units {υ : Type} {unitBits : υ → List Bool} {unit : Nat}
    (width : ∀ u, (unitBits u).length = unit) (units : List υ) :
    (units.flatMap unitBits).length = units.length * unit := by
  induction units with
  | nil => simp
  | cons u units ih =>
    rw [List.flatMap_cons, List.length_append, width, ih, List.length_cons, Nat.succ_mul,
      Nat.add_comm]

section

variable {υ : Type} {has : α → List υ → Prop} {unitBits : υ → List Bool} {unit : Nat}
  (width : ∀ u, (unitBits u).length = unit)

include width

/-- The parts of a value are taken one behind the other. -/
theorem partsBy_gets (takesFragment : TakesEach takeFragment has unitBits unit)
    (takesPart : TakesEach takePart has unitBits unit) {turns n : Nat} (enough : n / 16384 < turns)
    {units : List υ} (count : units.length = n) {x : α} {kept : List υ}
    (holds : has x kept) (whole : kept.length * unit % 8 = 0) {r : AsnBufBits} {pos : Nat}
    {rest : List Bool} (octet : r.bAlign → pos % 8 = 0)
    (stands : r.Stands pos (lengthCoded unit n (units.flatMap unitBits) ++ rest))
    (countable : (lengthCoded unit n (units.flatMap unitBits) ++ rest).length < 2 ^ 64)
    (bitsDecoded : AsnLen) :
    ∃ x' r', (partsBy takeFragment takePart turns x bitsDecoded).run r =
        .ok (x', bitsDecoded + .ofNat (lengthCoded unit n (units.flatMap unitBits)).length) r' ∧
      has x' (kept ++ units) ∧ r'.bAlign = r.bAlign ∧
      r'.Stands (pos + (lengthCoded unit n (units.flatMap unitBits)).length) rest := by
  -- The induction is on the turns: each of them takes a fragment, or the last part.
  induction turns generalizing n units x kept r pos bitsDecoded with
  | zero => exact absurd enough (Nat.not_lt_zero _)
  | succ turns ih =>
    by_cases more : 16384 ≤ n
    · -- A fragment is taken, and the others with fewer turns.
      obtain ⟨k, times⟩ : ∃ k, k = min (n / 16384) 4 := ⟨_, rfl⟩
      obtain ⟨front, back⟩ := flatMap_take_drop width units (k * 16384)
      rw [lengthCoded_of_fragment (by omega) times, front, back] at stands countable ⊢
      have taken : (units.take (k * 16384)).length = k * 16384 := by
        rw [List.length_take]
        omega
      have left : (units.drop (k * 16384)).length = n - k * 16384 := by
        rw [List.length_drop, count]
      have all := List.take_append_drop (k * 16384) units
      generalize units.take (k * 16384) = part at taken all stands countable ⊢
      generalize units.drop (k * 16384) = others at left all stands countable ⊢
      have bits := length_flatMap_units width part
      have octets : (part.flatMap unitBits).length % 8 = 0 := by
        rw [bits, taken, Nat.mul_right_comm]
        omega
      simp only [List.append_assoc] at stands countable
      have behindLength : (part.flatMap unitBits ++
          (lengthCoded unit (n - k * 16384) (others.flatMap unitBits) ++ rest)).length < 2 ^ 64 := by
        rw [List.length_append] at countable
        omega
      have behindPart : (lengthCoded unit (n - k * 16384) (others.flatMap unitBits) ++ rest).length <
          2 ^ 64 := by
        rw [List.length_append] at behindLength
        omega
      obtain ⟨seg, r₁, ran, first, mode₁, stands₁⟩ := stands.getOctet countable
      obtain ⟨x₁, r₂, took, holds₁, mode₂, stands₂⟩ := takesFragment x kept holds whole part r₁
        (pos + 8) _ (fun aligned => by
          have start := octet (mode₁ ▸ aligned)
          omega) stands₁ behindLength (bitsDecoded + 8)
      have next : r₂.bAlign → (pos + 8 + (part.flatMap unitBits).length) % 8 = 0 := by
        intro aligned
        have start := octet (mode₁ ▸ mode₂ ▸ aligned)
        omega
      obtain ⟨r₃, skips, mode₃, stands₃⟩ := stands₂.alignNothing next
      obtain ⟨x', r', later, holds', mode', behind⟩ := ih (n := n - k * 16384) (by omega) left holds₁
        (by rw [List.length_append, Nat.add_mul, taken, Nat.mul_right_comm]; omega)
        (fun aligned => next (mode₃ ▸ aligned)) stands₃ behindPart
        (bitsDecoded + 8 + .ofNat (part.flatMap unitBits).length + .ofNat 0)
      refine ⟨x', r', ?_, ?_, ?_, ?_⟩
      · rw [taken] at took
        rw [partsBy_fragment ran (by omega) (by omega) first, run_bind_of_ok took,
          run_bind_of_ok skips, later]
        have zero : UInt64.ofNat 0 = 0 := rfl
        have eight : UInt64.ofNat 8 = 8 := rfl
        simp only [List.length_append, length_bitsOf, UInt64.ofNat_add, UInt64.add_assoc, zero, eight,
          UInt64.zero_add]
      · rwa [List.append_assoc, all] at holds'
      · exact mode'.trans (mode₃.trans (mode₂.trans mode₁))
      · simpa only [List.length_append, length_bitsOf, Nat.add_assoc] using behind
    · by_cases short : n < 128
      · -- The octet is the length.
        obtain ⟨noFragment, noSecond, low, length⟩ := shortLength_spec short
        rw [lengthCoded_of_lt_128 short] at stands countable ⊢
        rw [List.append_assoc] at stands countable
        obtain ⟨octets, r₁, ran, first, mode₁, stands₁⟩ := stands.getOctet countable
        have behindLength : (units.flatMap unitBits ++ rest).length < 2 ^ 64 := by
          rw [List.length_append] at countable
          omega
        obtain ⟨x', r', took, holds', mode', behind⟩ := takesPart x kept holds whole units r₁
          (pos + 8) rest (fun aligned => by
            have start := octet (mode₁ ▸ aligned)
            omega) stands₁ behindLength (bitsDecoded + 8)
        refine ⟨x', r', ?_, holds', mode'.trans mode₁, ?_⟩
        · rw [count] at took
          rw [partsBy_part ran noFragment first, partBy, if_neg noSecond, if_pos low, length, took,
            List.length_append, length_bitsOf, UInt64.ofNat_add, ← UInt64.add_assoc]
          rfl
        · rwa [List.length_append, length_bitsOf, ← Nat.add_assoc]
      · -- A second octet has the rest of the length.
        have few : n >>> 8 < 64 := by
          rw [Nat.shiftRight_eq_div_pow]
          omega
        obtain ⟨second, high⟩ := longLength_spec few
        rw [lengthCoded_of_lt_16k (by omega) (by omega)] at stands countable ⊢
        simp only [List.append_assoc] at stands countable
        obtain ⟨octets, r₁, ran, first, mode₁, stands₁⟩ := stands.getOctet countable
        have behindFirst : (bitsOf (.ofNat n) ++ (units.flatMap unitBits ++ rest)).length < 2 ^ 64 := by
          rw [List.length_append] at countable
          omega
        obtain ⟨octets₂, r₂, ran₂, next, mode₂, stands₂⟩ := stands₁.getOctet behindFirst
        have behindLength : (units.flatMap unitBits ++ rest).length < 2 ^ 64 := by
          rw [List.length_append] at behindFirst
          omega
        obtain ⟨x', r', took, holds', mode', behind⟩ := takesPart x kept holds whole units r₂
          (pos + 8 + 8) rest (fun aligned => by
            have start := octet (mode₁ ▸ mode₂ ▸ aligned)
            omega) stands₂ behindLength (bitsDecoded + 8 + 8)
        have noFragment : ¬(UInt8.ofNat (n >>> 8) ||| 0x80) &&& 0xC0 = 0xC0 := by
          rw [second]
          decide
        refine ⟨x', r', ?_, holds', mode'.trans (mode₂.trans mode₁), ?_⟩
        · rw [count] at took
          rw [partsBy_part ran noFragment first, partBy, if_pos second, run_bind_of_ok ran₂, high, next,
            joinLength, took]
          have eight : UInt64.ofNat 8 = 8 := rfl
          simp only [List.length_append, length_bitsOf, UInt64.ofNat_add, UInt64.add_assoc, eight]
        · simpa only [List.length_append, length_bitsOf, Nat.add_assoc] using behind

/-- A value that has no constraints is got from its parts, behind a gap. -/
theorem generalBy_gets_each (takesFragment : TakesEach takeFragment has unitBits unit)
    (takesPart : TakesEach takePart has unitBits unit) {turns : Nat} {units : List υ}
    (enough : units.length / 16384 < turns) {x : α} (holds : has x []) (bAlign : Bool) (pos : Nat) :
    Gets bAlign pos (List.replicate (padding bAlign pos) false ++
        lengthCoded unit units.length (units.flatMap unitBits))
      (generalBy takeFragment takePart turns x) (fun y => has y units) := by
  intro r rest mode stands countable bitsDecoded
  subst mode
  rw [List.append_assoc] at stands countable
  obtain ⟨r₁, skips, mode₁, stands₁⟩ := stands.octetAlignRead
  have behindGap :
      (lengthCoded unit units.length (units.flatMap unitBits) ++ rest).length < 2 ^ 64 := by
    rw [List.length_append] at countable
    omega
  -- Behind the gap, an aligned reader is at an octet.
  have octet : r₁.bAlign → (pos + padding r.bAlign pos) % 8 = 0 := by
    intro aligned
    rw [padding, if_pos (mode₁ ▸ aligned)]
    omega
  obtain ⟨y, r', ran, holds', mode', behind⟩ := partsBy_gets width takesFragment takesPart enough
    rfl holds (by rw [List.length_nil, Nat.zero_mul]) octet stands₁ behindGap
    (bitsDecoded + .ofNat (padding r.bAlign pos))
  refine ⟨y, r', ?_, holds', mode'.trans mode₁, ?_⟩
  · rw [List.length_append, List.length_replicate, UInt64.ofNat_add, ← UInt64.add_assoc, ← ran]
    exact run_bind_of_ok skips
  · rwa [List.length_append, List.length_replicate, ← Nat.add_assoc]

end

/-- Bits are units of the same width, one behind the other. -/
theorem units_of_bits {unit n : Nat} {contents : List Bool} (size : contents.length = n * unit) :
    ∃ units : List {bits : List Bool // bits.length = unit}, units.length = n ∧
      units.flatMap Subtype.val = contents := by
  induction n generalizing contents with
  | zero =>
    obtain rfl : contents = [] := List.eq_nil_of_length_eq_zero (by omega)
    exact ⟨[], rfl, rfl⟩
  | succ n ih =>
    rw [Nat.succ_mul] at size
    have first : (contents.take unit).length = unit := by
      rw [List.length_take]
      omega
    have left : (contents.drop unit).length = n * unit := by
      rw [List.length_drop]
      omega
    obtain ⟨units, count, rest⟩ := ih left
    refine ⟨⟨contents.take unit, first⟩ :: units, by rw [List.length_cons, count], ?_⟩
    rw [List.flatMap_cons, rest, List.take_append_drop]

/-- Units that are told by their bits. -/
theorem TakesUnits.takesEach {take : α → Nat → AsnLen → BitsM (α × AsnLen)}
    {has : α → List Bool → Prop} {unit : Nat} (takes : TakesUnits take has unit) :
    TakesEach take (fun x (units : List {bits : List Bool // bits.length = unit}) =>
      has x (units.flatMap Subtype.val)) Subtype.val unit := by
  intro x kept holds whole units r pos rest octet stands countable bitsDecoded
  have widths := length_flatMap_units (fun u : {bits : List Bool // bits.length = unit} => u.2)
  obtain ⟨x', r', ran, got, others⟩ := takes x _ holds (by rw [widths, whole]) units.length _
    (widths units) r pos rest octet stands countable bitsDecoded
  refine ⟨x', r', ran, ?_, others⟩
  -- The bits of all the units are those that were kept and those behind them.
  change has x' ((kept ++ units).flatMap Subtype.val)
  rwa [List.flatMap_append]

theorem generalBy_gets {has : α → List Bool → Prop} {unit : Nat}
    (takesFragment : TakesUnits takeFragment has unit) (takesPart : TakesUnits takePart has unit)
    {turns n : Nat} (enough : n / 16384 < turns) {contents : List Bool}
    (size : contents.length = n * unit) {x : α} (holds : has x []) (bAlign : Bool) (pos : Nat) :
    Gets bAlign pos (List.replicate (padding bAlign pos) false ++ lengthCoded unit n contents)
      (generalBy takeFragment takePart turns x) (fun y => has y contents) := by
  obtain ⟨units, rfl, rfl⟩ := units_of_bits size
  exact generalBy_gets_each (fun u => u.2) takesFragment.takesEach takesPart.takesEach enough holds
    bAlign pos

/-- A value that has no constraints makes the round trip, where its units are put and taken. -/
theorem general_round_trip {has : α → List Bool → Prop} {put : Nat → Nat → BitsM UInt64}
    {unit n : Nat} {contents : List Bool} (puts : PutsUnits put unit n contents)
    (takesFragment : TakesUnits takeFragment has unit) (takesPart : TakesUnits takePart has unit)
    {turns : Nat} (enough : n / 16384 < turns) (size : contents.length = n * unit) {x : α}
    (holds : has x []) (bAlign : Bool) (pos : Nat) :
    RoundTrips bAlign pos (encodeGeneral put n) (generalBy takeFragment takePart turns x)
      (fun y => has y contents) := by
  apply roundTrips_of_puts
  intro b wellFormed mode position
  refine ⟨_, encodeGeneral_puts puts size wellFormed, ?_⟩
  -- The gap is the one at the position.
  rw [AsnBufBits.gap, mode, padding_congr fun _ => position]
  exact generalBy_gets takesFragment takesPart enough size holds bAlign pos

end Esnacc.Cxx
