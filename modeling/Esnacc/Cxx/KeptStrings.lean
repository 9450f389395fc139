import Esnacc.Cxx.StringRoundTrips

/-! Which C++ character strings PER leaves as they are, and gets back. -/

namespace Esnacc.Cxx

open Lib

/-- The bits that a string is put as in its type. -/
def AsnStringType.bits (type : AsnStringType) (bAlign : Bool) (pos : Nat) (x : List UInt8) :
    List Bool :=
  let chars := x.flatMap (charPut type.permittedAlphabet bAlign)
  match type.sizeConstraints with
  | [] =>
    List.replicate (padding bAlign pos) false ++
      lengthCoded (charUnit type.permittedAlphabet bAlign) x.length chars
  | first :: rest =>
    sizeFront type.permittedAlphabet (sizeBounds first rest) bAlign pos x.length ++ chars

/--
Where a string is left as it is and got back.

The characters that are put as they are come back as zeros; the others are written over with their places in the alphabet; and the field of a size may be too short for it.
-/
def AsnStringType.Keeps (type : AsnStringType) (bAlign : Bool) (pos : Nat) (x : List UInt8) :
    Prop :=
  type.AcceptsSize x.length ∧
    (∀ c ∈ x, charLeft type.permittedAlphabet bAlign c = c) ∧
    (Countable pos (type.bits bAlign pos x) →
      type.KeepsSize x.length ∧ ∀ c ∈ x, charGot type.permittedAlphabet bAlign c = c)

/-- Putting a string leaves it as it is, and what was put is got back as it. -/
def AsnString.RoundTrips (turns : Nat) (type : AsnStringType) (bAlign : Bool) (pos : Nat)
    (x : List UInt8) : Prop :=
  (∀ b len left b', b.bAlign = bAlign → (pEnc type x).run b = .ok (len, left) b' → left = x) ∧
    Cxx.RoundTrips bAlign pos (Prod.fst <$> pEnc type x) (pDec turns type) (· = x)

theorem map_eq_self_iff {f : UInt8 → UInt8} {x : List UInt8} : x.map f = x ↔ ∀ c ∈ x, f c = c := by
  induction x with
  | nil => simp
  | cons c rest ih => simp [ih]

section

variable {type : AsnStringType} (nonempty : type.permittedAlphabet ≠ [])
  (ascending : type.permittedAlphabet.Pairwise (· < ·)) {x : List UInt8}
  (inside : ∀ c ∈ x, c ∈ type.permittedAlphabet)

include nonempty ascending inside

theorem AsnString.written_eq (isAligned : Bool) : written type.permittedAlphabet isAligned x =
    .ok (x.map (charLeft type.permittedAlphabet isAligned)) := by
  unfold written
  induction x with
  | nil => rfl
  | cons c rest ih =>
    have first := charSeg_eq nonempty ascending isAligned (inside c List.mem_cons_self)
    have others := ih fun d there => inside d (List.mem_cons_of_mem c there)
    rw [List.mapM_cons, others, first]
    rfl

/-- A string of an accepted size is put as its bits. -/
theorem AsnString.encodeAccepted_puts (accepted : type.AcceptsSize x.length) {b : AsnBufBits}
    (wellFormed : b.WellFormed) {pos : Nat} (position : (8 - b.writeBitPos) % 8 = pos % 8) :
    Puts (encodeAccepted type b.bAlign x) b (type.bits b.bAlign pos x) := by
  obtain ⟨alphabet, sizeConstraints⟩ := type
  unfold encodeAccepted AsnStringType.bits
  cases sizeConstraints with
  | nil =>
    have puts := encodeGeneral_puts nonempty ascending b.bAlign inside wellFormed
    rwa [AsnBufBits.gap_eq position] at puts
  | cons first rest =>
    obtain ⟨-, least, most⟩ := accepted
    exact encodeWithSizeConstraint_puts nonempty ascending b.bAlign inside least most wellFormed
      position

/-- What the encoder of a type does with a string: it refuses its size, or puts its bits. -/
theorem AsnString.pEnc_spec {b : AsnBufBits} (wellFormed : b.WellFormed) {pos : Nat}
    (position : (8 - b.writeBitPos) % 8 = pos % 8) :
    type.AcceptsSize x.length ∧ (∃ b', b.Wrote (type.bits b.bAlign pos x) b' ∧
        (pEnc type x).run b = .ok (.ofNat (type.bits b.bAlign pos x).length,
          x.map (charLeft type.permittedAlphabet b.bAlign)) b') ∨
      ¬type.AcceptsSize x.length ∧ ∃ e, (pEnc type x).run b = .error e b := by
  have checked := checkConstraints_eq_false nonempty inside
  by_cases accepted : type.AcceptsSize x.length
  · -- The constraints accept the string, and its bits are put.
    have passes : (checkConstraints type x).1 = false := by
      rw [checked]
      unfold AsnStringType.AcceptsSize at accepted
      cases constraints : type.sizeConstraints with
      | nil => exact .inl rfl
      | cons first rest =>
        rw [constraints] at accepted
        exact .inr accepted.1
    obtain ⟨b', ran, wrote⟩ :=
      encodeAccepted_puts nonempty ascending inside accepted wellFormed position
    refine .inl ⟨accepted, b', wrote, ?_⟩
    unfold pEnc
    simp only [passes, Bool.false_eq_true, if_false]
    rw [run_bind_of_ok (EStateM.run_get b), run_bind_of_ok ran,
      written_eq nonempty ascending inside]
    rfl
  · refine .inr ⟨accepted, ?_⟩
    unfold pEnc
    cases failed : (checkConstraints type x).1 with
    | true => exact ⟨_, rfl⟩
    | false =>
      -- A size that the constraints allow is refused outside their bounds.
      simp only [Bool.false_eq_true, if_false]
      rw [run_bind_of_ok (EStateM.run_get b)]
      rw [checked] at failed
      unfold AsnStringType.AcceptsSize at accepted
      unfold encodeAccepted
      cases constraints : type.sizeConstraints with
      | nil =>
        rw [constraints] at accepted
        exact absurd trivial accepted
      | cons first rest =>
        rw [constraints] at accepted failed
        have allowed := failed.resolve_left (List.cons_ne_nil first rest)
        have outside : (x.length : Int) < (sizeBounds first rest).1.toInt ∨
            (sizeBounds first rest).2.toInt < (x.length : Int) := by
          by_contra between
          exact accepted ⟨allowed, by omega, by omega⟩
        have counted := minBits_boundsRange (sizeBounds first rest)
        unfold boundsRange at counted
        unfold encodeWithSizeConstraint
        simp only [asked_eq nonempty ascending, counted, ofExcept_ok, pure_bind, if_pos outside]
        exact ⟨_, rfl⟩

/-- A string that was put has each of its characters written over. -/
theorem AsnString.left_of_pEnc {b b' : AsnBufBits} {len : UInt64} {left : List UInt8}
    (ran : (pEnc type x).run b = .ok (len, left) b') :
    left = x.map (charLeft type.permittedAlphabet b.bAlign) := by
  unfold pEnc at ran
  cases failed : (checkConstraints type x).1 with
  | true =>
    simp only [failed, if_true] at ran
    cases ran
  | false =>
    simp only [failed, Bool.false_eq_true, if_false] at ran
    rw [run_bind_of_ok (EStateM.run_get b)] at ran
    obtain ⟨n, b₁, -, later⟩ := run_bind_eq_ok.mp ran
    rw [written_eq nonempty ascending inside] at later
    cases later
    rfl

/-- A size that is kept brings as many characters, each as it is got. -/
theorem AsnString.decode_gets (accepted : type.AcceptsSize x.length)
    (kept : type.KeepsSize x.length) {turns : Nat} (enough : x.length / 16384 < turns)
    (bAlign : Bool) (pos : Nat) :
    Gets bAlign pos (type.bits bAlign pos x) (decode turns type bAlign)
      (· = x.map (charGot type.permittedAlphabet bAlign)) := by
  obtain ⟨alphabet, sizeConstraints⟩ := type
  unfold decode AsnStringType.bits
  cases sizeConstraints with
  | nil => exact decodeGeneral_gets nonempty ascending bAlign inside enough bAlign pos
  | cons first rest =>
    obtain ⟨-, least, most⟩ := accepted
    exact decodeWithSizeConstraint_gets nonempty ascending bAlign inside least most
      ((toNat_gotSize least).mpr kept) bAlign pos

omit nonempty ascending inside in
theorem AsnString.pDec_gets {turns : Nat} {bAlign : Bool} {pos : Nat} {bits : List Bool}
    {same : List UInt8 → Prop} (gets : Gets bAlign pos bits (decode turns type bAlign) same) :
    Gets bAlign pos bits (pDec turns type) same := by
  intro r rest mode stands countable bitsDecoded
  have whole : (pDec turns type bitsDecoded).run r =
      (decode turns type bAlign bitsDecoded).run r := by
    rw [pDec, run_bind_of_ok (EStateM.run_get r), mode]
  rw [whole]
  exact gets r rest mode stands countable bitsDecoded

/-- A string that is got back has a size that is kept, and characters that are got as they are. -/
theorem AsnString.kept_of_decoded (accepted : type.AcceptsSize x.length) {turns : Nat}
    (enough : x.length / 16384 < turns) {bAlign : Bool} {pos : Nat} {r r' : AsnBufBits}
    (mode : r.bAlign = bAlign) (stands : r.Stands pos (type.bits bAlign pos x))
    (countable : (type.bits bAlign pos x).length < 2 ^ 64) {bitsDecoded len : AsnLen}
    (ran : (decode turns type bAlign bitsDecoded).run r = .ok (x, len) r') :
    type.KeepsSize x.length ∧ ∀ c ∈ x, charGot type.permittedAlphabet bAlign c = c := by
  have kept : type.KeepsSize x.length := by
    obtain ⟨alphabet, sizeConstraints⟩ := type
    unfold decode at ran
    unfold AsnStringType.bits at stands countable
    cases sizeConstraints with
    | nil => trivial
    | cons first rest =>
      obtain ⟨-, least, most⟩ := accepted
      have size := size_of_decoded nonempty ascending bAlign least most mode stands countable ran
      exact (toNat_gotSize least).mp size.symm
  refine ⟨kept, ?_⟩
  have gets := decode_gets nonempty ascending inside accepted kept enough bAlign pos
  rw [← List.append_nil (type.bits bAlign pos x)] at stands countable
  obtain ⟨y, r₁, got, same, -, -⟩ := gets r [] mode stands countable bitsDecoded
  rw [ran] at got
  cases got
  exact map_eq_self_iff.mp same.symm

/-- A string that makes the round trip is one of those that its type keeps. -/
theorem AsnString.RoundTrips.keeps {turns : Nat} (enough : x.length / 16384 < turns)
    {bAlign : Bool} {pos : Nat} (kept : RoundTrips turns type bAlign pos x) :
    type.Keeps bAlign pos x := by
  obtain ⟨unchanged, trips⟩ := kept
  obtain ⟨b, wellFormed, rfl, position, len, b₁, ran, reads⟩ := trips.got
  -- The string was put, so that its size is accepted.
  rcases pEnc_spec nonempty ascending inside wellFormed position with
    ⟨accepted, b', wrote, put⟩ | ⟨-, e, refused⟩
  · refine ⟨accepted, map_eq_self_iff.mp (unchanged b _ _ b' rfl put), ?_⟩
    intro room
    rw [run_map_of_ok put] at ran
    cases ran
    obtain ⟨r, y, r', mode, stands, got, rfl, -⟩ := reads _ wrote room
    rw [pDec, run_bind_of_ok (EStateM.run_get r), mode] at got
    refine kept_of_decoded nonempty ascending inside accepted enough mode stands ?_ got
    unfold Countable at room
    omega
  · rw [run_map_of_error refused] at ran
    cases ran

/-- A string that its type keeps makes the round trip. -/
theorem AsnString.roundTrips_of_keeps {turns : Nat} (enough : x.length / 16384 < turns)
    {bAlign : Bool} {pos : Nat} (keeps : type.Keeps bAlign pos x) :
    RoundTrips turns type bAlign pos x := by
  obtain ⟨accepted, left, kept⟩ := keeps
  constructor
  · -- Whatever is put, the characters that are written over are the same.
    rintro b len x' b' rfl ran
    rw [left_of_pEnc nonempty ascending inside ran]
    exact map_eq_self_iff.mpr left
  · apply roundTrips_of_countable
    rintro b wellFormed rfl position
    rcases pEnc_spec nonempty ascending inside wellFormed position with
      ⟨-, b', wrote, put⟩ | ⟨refused, -⟩
    · refine ⟨_, b', _, run_map_of_ok put, wrote, fun room => ⟨rfl, ?_⟩⟩
      obtain ⟨size, got⟩ := kept room
      have gets := decode_gets nonempty ascending inside accepted size enough b.bAlign pos
      rw [map_eq_self_iff.mpr got] at gets
      exact pDec_gets gets
    · exact absurd accepted refused

/--
Which strings of an ascending alphabet are left as they are and got back.

The loop over the fragments of a string is granted as many turns as the string has.
-/
theorem AsnString.round_trip_iff {turns : Nat} (enough : x.length / 16384 < turns) (bAlign : Bool)
    (pos : Nat) : RoundTrips turns type bAlign pos x ↔ type.Keeps bAlign pos x :=
  ⟨fun kept => kept.keeps nonempty ascending inside enough,
    roundTrips_of_keeps nonempty ascending inside enough⟩

end

theorem pairwise_octetRange (first : Nat) {last : Nat} (octets : last < 256) :
    (octetRange first last).Pairwise (· < ·) := by
  refine List.pairwise_map.mpr ((List.pairwise_lt_range' 1 Nat.one_pos).imp_of_mem ?_)
  intro c d insideC insideD less
  have below : ∀ n ∈ List.range' first (last + 1 - first), n < 256 := by
    intro n inside
    have bounds := List.mem_range'_1.mp inside
    omega
  rw [UInt8.lt_iff_toNat_lt, UInt8.toNat_ofNat_of_lt' (below c insideC),
    UInt8.toNat_ofNat_of_lt' (below d insideD)]
  exact less

/-- The alphabets that the types give are ascending. -/
theorem ascending_permittedAlphabets :
    ∀ alphabet ∈ [AsnString.permittedAlphabet, NumericString.permittedAlphabet,
        PrintableString.permittedAlphabet, IA5String.permittedAlphabet,
        VisibleString.permittedAlphabet],
      alphabet ≠ [] ∧ alphabet.Pairwise (· < ·) := by
  -- Two alphabets are put together from several runs.
  have mixed : NumericString.permittedAlphabet.Pairwise (· < ·) ∧
      PrintableString.permittedAlphabet.Pairwise (· < ·) := by
    decide +kernel
  simp only [List.forall_mem_cons]
  exact ⟨⟨by decide, pairwise_octetRange 0x00 (by decide)⟩, ⟨by decide, mixed.1⟩,
    ⟨by decide, mixed.2⟩, ⟨by decide, pairwise_octetRange 0x00 (by decide)⟩,
    ⟨by decide, pairwise_octetRange 0x20 (by decide)⟩, nofun⟩

theorem NumericString.one_mem : ∀ c ∈ [(0x31 : UInt8)], c ∈ NumericString.permittedAlphabet := by
  decide +kernel

/-- The string "1" in a buffer that is not aligned, where no size is constrained. -/
theorem AsnString.round_trip_iff_one :
    RoundTrips 1 ⟨NumericString.permittedAlphabet, []⟩ false 0 [0x31] ↔
      AsnStringType.Keeps ⟨NumericString.permittedAlphabet, []⟩ false 0 [0x31] := by
  obtain ⟨nonempty, ascending⟩ :=
    ascending_permittedAlphabets NumericString.permittedAlphabet (by simp)
  exact @AsnString.round_trip_iff ⟨NumericString.permittedAlphabet, []⟩ nonempty ascending [0x31]
    NumericString.one_mem 1 (by decide) false 0

/-- The only character of the string "1" is written over with its place in the alphabet. -/
theorem numeric_one_is_written_over :
    ¬∀ type : AsnStringType, type.permittedAlphabet ≠ [] →
      type.permittedAlphabet.Pairwise (· < ·) → ∀ x : List UInt8,
      (∀ c ∈ x, c ∈ type.permittedAlphabet) → (AsnString.checkConstraints type x).1 = false →
      ∀ turns, x.length / 16384 < turns → ∀ bAlign pos,
        AsnString.RoundTrips turns type bAlign pos x := by
  intro always
  obtain ⟨nonempty, ascending⟩ :=
    ascending_permittedAlphabets NumericString.permittedAlphabet (by simp)
  have enough : [(0x31 : UInt8)].length / 16384 < 1 := by decide
  have checked : (AsnString.checkConstraints ⟨NumericString.permittedAlphabet, []⟩ [0x31]).1 =
      false := by
    decide
  have kept := always _ nonempty ascending [0x31] NumericString.one_mem checked 1 enough false 0
  obtain ⟨-, left, -⟩ := kept.keeps nonempty ascending NumericString.one_mem enough
  -- The place of the character in the alphabet, moved to the front, is a space.
  have written : charLeft NumericString.permittedAlphabet false 0x31 = 0x20 := by
    decide
  have same := left 0x31 List.mem_cons_self
  rw [written] at same
  cases same

end Esnacc.Cxx
