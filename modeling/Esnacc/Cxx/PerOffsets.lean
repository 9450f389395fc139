import Esnacc.Cxx.PerInteger
import Esnacc.Cxx.PerUnits

/-! Which C++ INTEGERs without a proper range are got back from their PER. -/

namespace Esnacc.Cxx

open Lib

/-! ## Numbers without a sign -/

theorem le_ofOctets {data : List UInt8} (high : 0x80 ≤ data.headD 0) :
    128 * 256 ^ (data.length - 1) ≤ ofOctets data := by
  cases data with
  | nil => exact absurd high (by decide)
  | cons c rest =>
    rw [List.headD_cons, UInt8.le_iff_toNat_le] at high
    have first : 128 * 256 ^ rest.length ≤ c.toNat * 256 ^ rest.length :=
      Nat.mul_le_mul_right _ high
    rw [ofOctets_cons, List.length_cons, Nat.add_sub_cancel]
    omega

/-- Octets kept without a sign stand for the number they write, with no more octets than it needs. -/
theorem storeUnsigned_spec {data : List UInt8} (some : data ≠ []) :
    ∃ x, storeDERInteger data true = .ok x ∧ x.mBytes ≠ [] ∧ signedOf x.mBytes = ofOctets data ∧
      (data.length ≤ 4 → ofOctets data < 2 ^ 31 → x.mBytes.length ≤ 4) := by
  obtain ⟨kept, short, -⟩ := dropZeros_shortened some
  have number := ofOctets_dropZeros data
  have stored : storeDERInteger data true =
      .ok ⟨if 0x80 ≤ (dropZeros data).headD 0 then 0 :: dropZeros data else dropZeros data⟩ := by
    obtain ⟨first, rest, rfl⟩ := List.exists_cons_of_ne_nil some
    rfl
  refine ⟨_, stored, ?_⟩
  dsimp only
  by_cases high : 0x80 ≤ (dropZeros data).headD 0
  · -- A zero octet comes in front, so that the number does not read as negative.
    rw [if_pos high]
    refine ⟨List.cons_ne_nil _ _, ?_, ?_⟩
    · rw [signedOf, if_pos (by decide), ofOctets_cons, number]
      simp
    · intro few small
      have large := le_ofOctets high
      have narrow : (dropZeros data).length ≤ 3 := by
        by_contra wide
        rw [show (dropZeros data).length = 4 by omega, number] at large
        omega
      rw [List.length_cons]
      omega
  · rw [if_neg high]
    refine ⟨kept, ?_, fun few _ => Nat.le_trans short few⟩
    obtain ⟨first, rest, same⟩ := List.exists_cons_of_ne_nil kept
    rw [same] at high number ⊢
    rw [List.headD_cons] at high
    rw [signedOf, if_pos (UInt8.not_le.mp high), number]

/-- At most four octets stand for a number below 2³¹. -/
theorem signedOf_lt {octets : List UInt8} (short : octets.length ≤ 4) :
    signedOf octets < 2 ^ 31 := by
  cases octets with
  | nil => decide
  | cons c rest =>
    have below := ofOctets_lt (c :: rest)
    have power : 256 ^ rest.length ≤ 256 ^ 3 :=
      Nat.pow_le_pow_right (by decide) (by rw [List.length_cons] at short; omega)
    rw [signedOf]
    by_cases positive : c < 0x80
    · -- The first octet is below 128.
      rw [if_pos positive, ofOctets_cons]
      have first : c.toNat + 1 ≤ 128 := UInt8.lt_iff_toNat_lt.mp positive
      have lower := ofOctets_lt rest
      have upper : (c.toNat + 1) * 256 ^ rest.length ≤ 128 * 256 ^ rest.length :=
        Nat.mul_le_mul_right _ first
      rw [Nat.succ_mul] at upper
      omega
    · rw [if_neg positive]
      have cast : ((256 ^ (c :: rest).length : Nat) : Int) = 256 ^ (c :: rest).length := by
        push_cast
        rfl
      omega

theorem setOctets_of_ne_zero {pData : List UInt8} {len : Nat} (some : len ≠ 0) :
    AsnInt.setOctets pData len = storeDERInteger (pData.take len) true := by
  unfold AsnInt.setOctets
  rw [if_neg some]

/-- A number that octets without a sign were kept as does not read as negative. -/
theorem setOctets_nonneg {pData : List UInt8} {len : Nat} {x : AsnInt} {value : Int32}
    (stored : AsnInt.setOctets pData len = .ok x) (read : x.toInteger = .ok value) :
    0 ≤ value.toInt := by
  have short := length_le_of_toInteger read
  have signed : 0 ≤ signedOf x.mBytes := by
    by_cases none : len = 0
    · unfold AsnInt.setOctets at stored
      rw [if_pos none] at stored
      cases pData with
      | nil => cases stored
      | cons first rest =>
        cases stored
        dsimp only
        split <;> decide
    · rw [setOctets_of_ne_zero none] at stored
      have some : pData.take len ≠ [] := by
        intro nothing
        rw [nothing] at stored
        cases stored
      obtain ⟨y, kept, -, number, -⟩ := storeUnsigned_spec some
      rw [stored] at kept
      cases kept
      rw [number]
      exact Int.natCast_nonneg _
  by_cases some : x.mBytes = []
  · -- No octets read as zero.
    obtain ⟨octets⟩ := x
    subst some
    cases read
    decide
  · rw [toInteger_eq some short] at read
    cases read
    have below := signedOf_lt short
    rw [Int32.toInt_ofInt_of_le (by omega) (by omega)]
    exact signed

/-! ## Offsets from a lower bound alone -/

/-- The octets of an offset are put as a value that has no constraints. -/
theorem pEncSemiConstrained_puts {b : AsnBufBits} (wellFormed : b.WellFormed) {x : AsnInt}
    {value : Int32} (kept : x.toInteger = .ok value) {lowerBound : Int32} {octets : List UInt8}
    {tempInt : AsnInt}
    (stored : AsnInt.set (.ofInt (value.toInt - lowerBound.toInt)) = .ok tempInt)
    (dropped : tempInt.dropZero.mBytes = octets) (short : octets.length ≤ 4) :
    Puts (x.pEncSemiConstrained lowerBound) b
      (b.gap ++ lengthCoded 8 octets.length (octets.flatMap bitsOf)) := by
  have size : (octets.flatMap bitsOf).length = octets.length * 8 := by
    rw [length_flatMap_bitsOf, Nat.mul_comm]
  have units := tempInt.dropZero.interpret_interprets.putsUnits
  rw [dropped] at units
  refine (encodeGeneral_puts units size wellFormed).of_run ?_
  rw [AsnInt.pEncSemiConstrained]
  dsimp only
  rw [if_neg (Nat.not_lt.mpr (length_le_of_toInteger kept)), kept, ofExcept_ok, pure_bind, stored,
    ofExcept_ok, pure_bind, dropped, if_neg (Nat.not_lt.mpr short)]
  rfl

/-- A number is got from the octets of an offset that is not negative. -/
theorem pDecSemiConstrained_gets {octets : List UInt8} (some : octets ≠ [])
    (short : octets.length ≤ 4) (small : ofOctets octets < 2 ^ 31) (lowerBound : Int32)
    (bAlign : Bool) (pos : Nat) :
    Gets bAlign pos (lengthCoded 8 octets.length (octets.flatMap bitsOf))
      (AsnInt.pDecSemiConstrained lowerBound) fun y =>
        signedOf y.mBytes = (Int32.ofInt (ofOctets octets + lowerBound.toInt)).toInt := by
  intro r rest mode stands countable bitsDecoded
  have one : 0 < octets.length := List.length_pos_iff.mpr some
  have size : (octets.flatMap bitsOf).length = octets.length * 8 := by
    rw [length_flatMap_bitsOf, Nat.mul_comm]
  rw [lengthCoded_of_lt_128 (by omega)] at stands countable ⊢
  rw [List.append_assoc] at stands countable
  obtain ⟨seg, r₁, ran, first, mode₁, stands₁⟩ := stands.getOctet countable
  have behindLength : (octets.flatMap bitsOf ++ rest).length < 2 ^ 64 := by
    rw [List.length_append] at countable
    omega
  obtain ⟨seg', r', ranOctets, front, mode', behind⟩ := stands₁.getBits behindLength size
  -- The octets that were read are those that were put.
  have same : seg'.take octets.length = octets := by
    rw [take_flatMap_bitsOf, Nat.mul_div_cancel _ (by decide), Nat.mul_mod_left, List.take_zero,
      List.append_nil] at front
    exact flatMap_bitsOf_injective front
  have count : (UInt8.ofNat octets.length).toNat = octets.length := by
    rw [UInt8.toNat_ofNat']
    omega
  obtain ⟨x, kept, someKept, number, fits⟩ := storeUnsigned_spec some
  have read := toInteger_eq someKept (fits short small)
  obtain ⟨y, last, -, -, signed, -⟩ := set_spec (.ofInt (ofOctets octets + lowerBound.toInt))
  have value : (Int32.ofInt (ofOctets octets)).toInt = ofOctets octets :=
    Int32.toInt_ofInt_of_le (by omega) (by omega)
  refine ⟨y, r', ?_, signed, mode'.trans (mode₁.trans mode), ?_⟩
  · rw [AsnInt.pDecSemiConstrained, run_bind_of_ok ran]
    dsimp only
    rw [first, count, if_neg (Nat.not_lt.mpr short), run_bind_of_ok ranOctets,
      setOctets_of_ne_zero (by omega), same, kept, ofExcept_ok, pure_bind, read, ofExcept_ok, pure_bind, number,
      value, last, ofExcept_ok, pure_bind, List.length_append, length_bitsOf, size, UInt64.ofNat_add,
      ← UInt64.add_assoc]
    rfl
  · rwa [List.length_append, length_bitsOf, size, ← Nat.add_assoc]

/-- What is got as an offset is an octet, and whole octets behind it, that add to the lower bound. -/
theorem pDecSemiConstrained_ok {lowerBound : Int32} {bitsDecoded count : AsnLen}
    {r r' : AsnBufBits} {y : AsnInt}
    (ran : (AsnInt.pDecSemiConstrained lowerBound bitsDecoded).run r = .ok (y, count) r') :
    ∃ (m : Nat) (offset : Int32), m ≤ 4 ∧ count = bitsDecoded + 8 + .ofNat (m * 8) ∧
      0 ≤ offset.toInt ∧
      signedOf y.mBytes = (Int32.ofInt (offset.toInt + lowerBound.toInt)).toInt := by
  rw [AsnInt.pDecSemiConstrained] at ran
  obtain ⟨seg, r₁, -, ran⟩ := run_bind_eq_ok.mp ran
  dsimp only at ran
  by_cases long : 4 < (seg.headD 0).toNat
  · rw [if_pos long] at ran
    cases ran
  · rw [if_neg long] at ran
    obtain ⟨seg', r₂, -, ran⟩ := run_bind_eq_ok.mp ran
    cases stored : AsnInt.setOctets seg' (seg.headD 0).toNat with
    | error e =>
      rw [stored] at ran
      cases ran
    | ok x =>
      rw [stored, ofExcept_ok, pure_bind] at ran
      cases read : x.toInteger with
      | error e =>
        rw [read] at ran
        cases ran
      | ok offset =>
        rw [read, ofExcept_ok, pure_bind] at ran
        obtain ⟨last, set, -, -, signed, -⟩ := set_spec (.ofInt (offset.toInt + lowerBound.toInt))
        rw [set, ofExcept_ok, pure_bind] at ran
        obtain ⟨rfl, same⟩ := run_pure_eq_ok.mp ran
        cases same
        exact ⟨(seg.headD 0).toNat, offset, by omega, rfl, setOctets_nonneg stored read, signed⟩

theorem offset_of_add {value lowerBound offset : Int32}
    (sum : (Int32.ofInt (offset.toInt + lowerBound.toInt)).toInt = value.toInt) :
    Int32.ofInt (value.toInt - lowerBound.toInt) = offset := by
  apply Int32.toInt_inj.mp
  rw [Int32.toInt_ofInt] at sum ⊢
  have back : (offset.toInt + lowerBound.toInt).bmod Int32.size - lowerBound.toInt =
      value.toInt - lowerBound.toInt := by rw [sum]
  rw [← back, Int.bmod_sub_bmod, Int.add_sub_cancel, ← Int32.toInt_ofInt, Int32.ofInt_toInt]

/--
An offset from a lower bound alone is got back exactly where no gap is put in front of it and it does not read as negative.

The reader does not skip the gap that the writer put, and takes the octets for a number without a sign.
-/
theorem semiConstrained_round_trip_iff {x : AsnInt} {value : Int32}
    (kept : x.toInteger = .ok value) (lowerBound : Int32) (bAlign : Bool) (pos : Nat) :
    RoundTrips bAlign pos (x.pEncSemiConstrained lowerBound)
        (AsnInt.pDecSemiConstrained lowerBound) (fun y => signedOf y.mBytes = value.toInt) ↔
      (bAlign → pos % 8 = 0) ∧ 0 ≤ (Int32.ofInt (value.toInt - lowerBound.toInt)).toInt := by
  constructor
  · intro trips
    obtain ⟨tempInt, stored, some, short, -, -⟩ :=
      set_spec (.ofInt (value.toInt - lowerBound.toInt))
    obtain ⟨-, someLeft, shorter⟩ := dropZero_ofOctets some
    have few : tempInt.dropZero.mBytes.length ≤ 4 := Nat.le_trans shorter short
    obtain ⟨b, wellFormed, mode, position, len, b₁, ran, reads⟩ := trips.got
    obtain ⟨b', ran', wrote⟩ := pEncSemiConstrained_puts wellFormed kept stored rfl few
    rw [ran] at ran'
    cases ran'
    have size : (lengthCoded 8 tempInt.dropZero.mBytes.length
        (tempInt.dropZero.mBytes.flatMap bitsOf)).length =
          8 + 8 * tempInt.dropZero.mBytes.length := by
      rw [lengthCoded_of_lt_128 (by omega), List.length_append, length_bitsOf, length_flatMap_bitsOf]
    have gap : b.gap.length = padding bAlign pos := by
      rw [AsnBufBits.gap, List.length_replicate, mode, padding_congr fun _ => position]
    have narrow : padding bAlign pos ≤ 7 := by
      rw [padding]
      split <;> omega
    obtain ⟨r, y, r', -, -, got, same, -⟩ := reads _ wrote (by
      unfold Countable
      rw [List.length_append, size]
      omega)
    -- Whole octets were counted, and so the gap is one of no bits.
    obtain ⟨m, offset, fewRead, counted, nonneg, number⟩ := pDecSemiConstrained_ok got
    rw [List.length_append, size, gap] at counted
    have counts := congrArg UInt64.toNat counted
    simp only [UInt64.toNat_add, UInt64.toNat_ofNat', UInt64.zero_add] at counts
    have eight : (8 : UInt64).toNat = 8 := rfl
    rw [eight] at counts
    refine ⟨?_, ?_⟩
    · intro aligned
      rw [padding, if_pos aligned] at counts narrow
      omega
    · rw [offset_of_add (number.symm.trans same)]
      exact nonneg
  · rintro ⟨whole, nonneg⟩
    generalize off : Int32.ofInt (value.toInt - lowerBound.toInt) = offset at nonneg
    have small := Int32.toInt_lt offset
    obtain ⟨tempInt, stored, -, some, short, number⟩ :=
      offset_octets (t := offset.toInt.toNat) (by omega)
    have back : ((offset.toInt.toNat : Nat) : Int) = offset.toInt := Int.toNat_of_nonneg nonneg
    rw [back, Int32.ofInt_toInt, ← off] at stored
    apply roundTrips_of_puts
    intro b wellFormed mode position
    have put := pEncSemiConstrained_puts wellFormed kept stored rfl short
    have none : b.gap = [] := by
      rw [AsnBufBits.gap, mode, padding_congr fun _ => position, padding]
      by_cases aligned : bAlign
      · rw [if_pos aligned, whole aligned]
        rfl
      · rw [if_neg aligned]
        rfl
    rw [none, List.nil_append] at put
    have gets := pDecSemiConstrained_gets some short (by omega) lowerBound bAlign pos
    -- The offset and the bound add to the number again.
    have sum : (Int32.ofInt (ofOctets tempInt.dropZero.mBytes + lowerBound.toInt)).toInt =
        value.toInt := by
      rw [number, back, ← off, Int32.toInt_ofInt, Int32.toInt_ofInt, Int.bmod_add_bmod,
        Int.sub_add_cancel, ← Int32.toInt_ofInt, Int32.ofInt_toInt]
    rw [sum] at gets
    exact ⟨_, put, gets⟩

/-! ## The ranges of a type -/

/-- At most four octets stand for a number from -2³¹ on. -/
theorem le_signedOf {octets : List UInt8} (short : octets.length ≤ 4) :
    -2 ^ 31 ≤ signedOf octets := by
  cases octets with
  | nil => decide
  | cons c rest =>
    rw [signedOf]
    by_cases positive : c < 0x80
    · rw [if_pos positive]
      omega
    · -- The octets write at least half of what is taken away.
      have large := le_ofOctets (show 0x80 ≤ (c :: rest).headD 0 from UInt8.not_lt.mp positive)
      rw [List.length_cons, Nat.add_sub_cancel] at large
      rw [List.length_cons] at short
      have power : 256 ^ rest.length ≤ 256 ^ 3 := Nat.pow_le_pow_right (by decide) (by omega)
      have cast : ((256 ^ rest.length : Nat) : Int) = 256 ^ rest.length := by
        push_cast
        rfl
      rw [if_neg positive, List.length_cons, Int.pow_succ]
      omega

/-- A number that can be read is the one that its octets stand for. -/
theorem signedOf_of_toInteger {x : AsnInt} {value : Int32} (read : x.toInteger = .ok value) :
    signedOf x.mBytes = value.toInt := by
  have short := length_le_of_toInteger read
  by_cases some : x.mBytes = []
  · -- No octets read as zero.
    obtain ⟨octets⟩ := x
    subst some
    cases read
    rfl
  · rw [toInteger_eq some short] at read
    cases read
    have below := signedOf_lt short
    have above := le_signedOf short
    rw [Int32.toInt_ofInt_of_le above below]

/-- A number that the constraints of its type accept. -/
def AsnInt.Accepted (valueRanges : List ValueRange) (x : AsnInt) : Prop :=
  ∃ text, x.checkConstraints valueRanges = .ok (false, text)

/-- A number that some ranges accept can be read. -/
theorem AsnInt.Accepted.read {first : ValueRange} {rest : List ValueRange} {x : AsnInt}
    (accepted : x.Accepted (first :: rest)) :
    ∃ value, x.toInteger = .ok value ∧ (rest = [] → first.failure value = none) := by
  obtain ⟨text, checked⟩ := accepted
  rw [AsnInt.checkConstraints] at checked
  by_cases long : 4 < x.mBytes.length ∧ first :: rest ≠ []
  · rw [if_pos long] at checked
    cases checked
  · rw [if_neg long] at checked
    cases read : x.toInteger with
    | error e =>
      rw [read] at checked
      cases checked
    | ok value =>
      rw [read] at checked
      refine ⟨value, rfl, ?_⟩
      rintro rfl
      -- The only range does not fail.
      have failed := congrArg (fun r : Except Thrown (Bool × String) => r.toOption.map Prod.fst) checked
      change some ([first.failure value].all Option.isSome) = some false at failed
      cases failure : first.failure value with
      | none => rfl
      | some text =>
        rw [failure] at failed
        cases failed

/-- Ranges without a proper range between the bounds that the routines fold them into. -/
def Unranged (valueRanges : List ValueRange) : Prop :=
  match valueRanges with
  | [] => True
  | first :: rest => (foldedBounds first rest).lowerBound = (foldedBounds first rest).upperBound

theorem lowerBound_of_found (bounds : FoldedBounds) :
    (if bounds.lowerBound < bounds.upperBound then { bounds with upperBoundFound := 1 }
      else bounds).lowerBound = bounds.lowerBound := by
  by_cases proper : bounds.lowerBound < bounds.upperBound
  · rw [if_pos proper]
  · rw [if_neg proper]

theorem lowerBound_foldedBounds_singleton (range : ValueRange) :
    (foldedBounds range []).lowerBound = range.lowerBound.toInt32 := by
  have added : (FoldedBounds.add
      ⟨range.lowerBound.toInt32, range.lowerBound.toInt32, range.upperBoundExists⟩ range).lowerBound =
      range.lowerBound.toInt32 := by
    -- Both ways the lower bound is the narrowed one.
    simp only [FoldedBounds.add, ite_self]
    by_cases both : range.upperBoundExists = 1
    · simp only [if_pos both]
    · simp only [if_neg both]
  exact (lowerBound_of_found _).trans added

/-- A lower bound alone, a single value and a range whose bounds coincide make no proper range. -/
theorem unranged_singleton {range : ValueRange}
    (shape : range.upperBoundExists = 1 → range.upperBound = range.lowerBound) :
    Unranged [range] := by
  have folded : (FoldedBounds.add
      ⟨range.lowerBound.toInt32, range.lowerBound.toInt32, range.upperBoundExists⟩ range).lowerBound =
      (FoldedBounds.add
        ⟨range.lowerBound.toInt32, range.lowerBound.toInt32, range.upperBoundExists⟩ range).upperBound := by
    -- Both bounds are the narrowed lower bound.
    simp only [FoldedBounds.add, ite_self]
    by_cases both : range.upperBoundExists = 1
    · simp only [if_pos both, shape both, ite_self]
    · simp only [if_neg both]
  unfold Unranged foldedBounds
  simp only [List.foldl_cons, List.foldl_nil, folded, Int32.lt_irrefl, if_false]

/-- The number of an object that was got back. -/
def AsnInt.SameNumber (x y : AsnInt) : Prop :=
  signedOf y.mBytes = signedOf x.mBytes

/--
Where a number without a proper range is got back.

Bounds that coincide store nothing, so that the number is zero; a lower bound alone asks for an octet boundary in an aligned buffer and an offset that does not read as negative.
-/
def AsnInt.GotBack (valueRanges : List ValueRange) (bAlign : Bool) (pos : Nat) (x : AsnInt) : Prop :=
  match valueRanges with
  | [] => True
  | first :: rest =>
    let bounds := foldedBounds first rest
    if bounds.upperBoundFound = 1 then signedOf x.mBytes = 0
    else if rest = [] ∧ first.upperBoundExists = 2 then True
    else (bAlign → pos % 8 = 0) ∧
      0 ≤ (Int32.ofInt (signedOf x.mBytes - bounds.lowerBound.toInt)).toInt

/-- A value of no bits is got back exactly where nothing read gives it. -/
theorem noBits_round_trip_iff {α : Type} {y : α} {same : α → Prop} (bAlign : Bool) (pos : Nat) :
    RoundTrips bAlign pos (pure 0) (fun bitsDecoded => pure (y, bitsDecoded)) same ↔ same y := by
  constructor
  · intro trips
    obtain ⟨b, wellFormed, -, -, len, b₁, ran, reads⟩ := trips.got
    obtain ⟨rfl, rfl⟩ := run_pure_eq_ok.mp ran
    have room : Countable pos [] := by
      unfold Countable
      rw [List.length_nil]
      omega
    obtain ⟨r, z, r', -, -, got, right, -⟩ := reads [] (.refl wellFormed) room
    cases got
    exact right
  · intro right
    apply roundTrips_of_puts
    intro b wellFormed mode position
    exact ⟨[], ⟨b, rfl, .refl wellFormed⟩, (gets_pure bAlign pos y).mono fun z same => same ▸ right⟩

/--
Which numbers without a proper range are got back.

The loop over the fragments is granted a turn for each 16384 octets, and one more.
-/
theorem unranged_round_trip_iff {valueRanges : List ValueRange} (unranged : Unranged valueRanges)
    {x : AsnInt} (accepted : x.Accepted valueRanges) {turns : Nat}
    (enough : x.mBytes.length / 16384 < turns) (bAlign : Bool) (pos : Nat) :
    RoundTrips bAlign pos (x.pEnc valueRanges) (AsnInt.pDec turns valueRanges) x.SameNumber ↔
      x.GotBack valueRanges bAlign pos := by
  obtain ⟨text, checked⟩ := accepted
  cases valueRanges with
  | nil =>
    -- All the octets are put.
    have enc : x.pEnc [] = PERGeneral.encodeGeneral x.interpret x.mBytes.length := by
      rw [AsnInt.pEnc, checked, ofExcept_ok, pure_bind]
      rfl
    rw [enc]
    refine iff_of_true ?_ trivial
    exact (x.general_round_trip enough bAlign pos).mono fun y same => by
      rw [AsnInt.SameNumber, same]
  | cons first rest =>
    obtain ⟨value, read, fits⟩ := AsnInt.Accepted.read ⟨text, checked⟩
    have number := signedOf_of_toInteger read
    change (foldedBounds first rest).lowerBound = (foldedBounds first rest).upperBound at unranged
    rw [AsnInt.GotBack]
    by_cases found : (foldedBounds first rest).upperBoundFound = 1
    · -- Nothing is put, and nothing is stored.
      have enc : x.pEnc (first :: rest) = pure 0 := by
        rw [AsnInt.pEnc, checked, ofExcept_ok, pure_bind]
        simp only [Bool.false_eq_true, if_false, if_pos found, unranged, ne_eq, not_true_eq_false]
      have dec : AsnInt.pDec turns (first :: rest) = fun bitsDecoded => pure (⟨[]⟩, bitsDecoded) := by
        funext bitsDecoded
        simp only [AsnInt.pDec, if_pos found, unranged, ne_eq, not_true_eq_false, if_false]
      rw [enc, dec, noBits_round_trip_iff, if_pos found]
      exact eq_comm
    · rw [if_neg found]
      by_cases single : rest = [] ∧ first.upperBoundExists = 2
      · -- The value is the bound, which is stored again.
        obtain ⟨rfl, two⟩ := single
        have only : value.toInt = first.lowerBound.toInt := by
          have fit := fits rfl
          rw [ValueRange.failure] at fit
          rw [two, if_neg (by decide), if_pos rfl] at fit
          by_contra other
          rw [if_pos other] at fit
          cases fit
        have bound : (foldedBounds first []).lowerBound = value := by
          rw [lowerBound_foldedBounds_singleton, ← Int32.ofInt_int64ToInt, ← only, Int32.ofInt_toInt]
        obtain ⟨y, stored, -, -, signed, -⟩ := set_spec value
        have enc : x.pEnc [first] = pure 0 := by
          rw [AsnInt.pEnc, checked, ofExcept_ok, pure_bind]
          simp only [Bool.false_eq_true, if_false, if_neg found, two, and_self, if_true, read,
            ofExcept_ok, pure_bind, bound, ne_eq, not_true_eq_false]
        have dec : AsnInt.pDec turns [first] = fun bitsDecoded => pure (y, bitsDecoded) := by
          funext bitsDecoded
          simp only [AsnInt.pDec, if_neg found, two, and_self, if_true, bound, stored, ofExcept_ok,
            pure_bind]
        rw [enc, dec, noBits_round_trip_iff, if_pos ⟨rfl, two⟩]
        exact iff_of_true (signed.trans number.symm) trivial
      · -- The offset from the bound is put.
        have enc : x.pEnc (first :: rest) =
            x.pEncSemiConstrained (foldedBounds first rest).lowerBound := by
          rw [AsnInt.pEnc, checked, ofExcept_ok, pure_bind]
          simp only [Bool.false_eq_true, if_false, if_neg found, if_neg single]
        have dec : AsnInt.pDec turns (first :: rest) =
            AsnInt.pDecSemiConstrained (foldedBounds first rest).lowerBound := by
          funext bitsDecoded
          simp only [AsnInt.pDec, if_neg found, if_neg single]
        rw [enc, dec, if_neg single, number, ← semiConstrained_round_trip_iff read]
        unfold AsnInt.SameNumber
        rw [number]

/-- Seven as an offset from five, behind three bits of an unaligned buffer. -/
theorem unranged_round_trip_iff_seven :
    RoundTrips false 3 (AsnInt.pEnc [⟨5, 0, 0⟩] ⟨[7]⟩) (AsnInt.pDec 1 [⟨5, 0, 0⟩])
      (AsnInt.SameNumber ⟨[7]⟩) ↔ AsnInt.GotBack [⟨5, 0, 0⟩] false 3 ⟨[7]⟩ :=
  unranged_round_trip_iff (unranged_singleton fun both => absurd both (by decide)) ⟨"", rfl⟩
    (by decide) false 3

/-- Five between five and five is put as no bits and got back as zero. -/
theorem coinciding_bounds_lose_number :
    ¬∀ valueRanges, Unranged valueRanges → ∀ x : AsnInt, x.Accepted valueRanges →
      ∀ turns, x.mBytes.length / 16384 < turns → ∀ bAlign pos,
        RoundTrips bAlign pos (x.pEnc valueRanges) (AsnInt.pDec turns valueRanges) x.SameNumber := by
  intro always
  have trips := always [⟨5, 5, 1⟩] (unranged_singleton fun _ => rfl) ⟨[5]⟩ ⟨"", rfl⟩ 1 (by decide)
    false 0
  have enc : AsnInt.pEnc [⟨5, 5, 1⟩] ⟨[5]⟩ = pure 0 := rfl
  have dec : AsnInt.pDec 1 [⟨5, 5, 1⟩] = fun bitsDecoded => pure (⟨[]⟩, bitsDecoded) := rfl
  rw [enc, dec, noBits_round_trip_iff] at trips
  exact absurd trips (by unfold AsnInt.SameNumber; decide)

end Esnacc.Cxx
