import Esnacc.Compiler.ValueRanges
import Esnacc.Cxx.StoredInts
import Esnacc.Cxx.StringRoundTrips

/-! What the constraint checks of C++ integers and character strings tell, and when BER asks them. -/

namespace Esnacc.Cxx

open Lib

/-! ## Integers -/

/-- Encode an integer that its constraints accept. -/
def AsnInt.bEnc (valueRanges : List ValueRange) (x : AsnInt) : BufM AsnLen := do
  let (failed, _) ← ofExcept (x.checkConstraints valueRanges)
  if failed then throw (constraintError "Integer not within constraints")
  let l ← x.bEncContent
  let l := l + (← bEncDefLen l)
  return l + (← bEncTag ⟨UNIV, some PRIM, INTEGER_TAG_CODE⟩)

/-- An integer is checked as its table says: the check returns, and 0 exactly where the table is empty
or an entry contains the integer; the encoder throws exactly where it returns another number. -/
structure AsnInt.ExactlyChecked (valueRanges : List ValueRange) (x : AsnInt) : Prop where
  check : ∃ failed text, x.checkConstraints valueRanges = .ok (failed, text) ∧
    (failed = false ↔ valueRanges = [] ∨ ∃ range ∈ valueRanges, Compiler.Admits range x.value)
  bEnc : ∀ (b : AsnBuf) (data : List UInt8), b.Written data →
    ((∃ e b', (x.bEnc valueRanges).run b = .error e b') ↔
      ∃ text, x.checkConstraints valueRanges = .ok (true, text))

theorem AsnInt.checkConstraints_nil (x : AsnInt) : x.checkConstraints [] = .ok (false, "") := by
  rw [checkConstraints, if_neg (fun ranged => ranged.2 rfl), if_pos rfl]
  rfl

theorem AsnInt.checkConstraints_long {x : AsnInt} (long : 4 < x.mBytes.length)
    {valueRanges : List ValueRange} (ranged : valueRanges ≠ []) :
    x.checkConstraints valueRanges =
      .error (constraintError "Integer is out of constraint range") := by
  rw [checkConstraints, if_pos ⟨long, ranged⟩]
  rfl

theorem AsnInt.toInteger_of_short {x : AsnInt} (short : x.mBytes.length ≤ 4) :
    ∃ ltemp, x.toInteger = .ok ltemp ∧ ltemp.toInt = x.value := by
  by_cases none : x.mBytes = []
  · refine ⟨0, ?_, ?_⟩
    · rw [toInteger, none]
      rfl
    · rw [value, none]
      rfl
  · refine ⟨_, toInteger_eq none short, ?_⟩
    exact Int32.toInt_ofInt_of_le (le_signedOf short) (signedOf_lt short)

/-- The check of an integer that an `int` holds looks at its number. -/
theorem AsnInt.checkConstraints_short {x : AsnInt} (short : x.mBytes.length ≤ 4)
    (valueRanges : List ValueRange) :
    ∃ failed text, x.checkConstraints valueRanges = .ok (failed, text) ∧
      (failed = false ↔
        valueRanges = [] ∨ ∃ range ∈ valueRanges, Compiler.Admits range x.value) := by
  by_cases none : valueRanges = []
  · subst none
    exact ⟨false, "", x.checkConstraints_nil, iff_of_true rfl (.inl rfl)⟩
  · obtain ⟨ltemp, read, number⟩ := toInteger_of_short short
    have quiet := Compiler.all_isSome_eq_false_iff valueRanges ltemp
    rw [number] at quiet
    have checked : x.checkConstraints valueRanges =
        .ok ((valueRanges.map fun range => range.failure ltemp).all Option.isSome,
          String.join (valueRanges.map fun range => range.failure ltemp).reduceOption) := by
      rw [checkConstraints, if_neg (fun both => absurd short (Nat.not_le.mpr both.1)), read]
      simp only [if_neg none]
      rfl
    exact ⟨_, _, checked, quiet.trans (or_iff_right none).symm⟩

/-- What the check accepts is encoded. -/
theorem AsnInt.bEnc_of_accepted {x : AsnInt} {valueRanges : List ValueRange} {text : String}
    (accepted : x.checkConstraints valueRanges = .ok (false, text)) {b : AsnBuf}
    {data : List UInt8} (written : b.Written data) :
    ∃ l b', (x.bEnc valueRanges).run b = .ok l b' := by
  obtain ⟨first, put, wrote⟩ := x.writesFront_bEncContent b data written
  obtain ⟨second, counted, start, -⟩ := bEncDefLen_prepends (.ofNat x.mBytes.length) first
    wrote.passed
  obtain ⟨last, tagged, -⟩ := bEncTag_prepends ⟨UNIV, some PRIM, INTEGER_TAG_CODE⟩ second start
  have ran : (x.bEnc valueRanges).run b = .ok
      (.ofNat x.mBytes.length + .ofNat (defLenOctets (.ofNat x.mBytes.length)).length +
        .ofNat (ElmtTag.octets ⟨UNIV, some PRIM, INTEGER_TAG_CODE⟩).length) last := by
    rw [bEnc, accepted, ofExcept_ok, pure_bind]
    simp only [Bool.false_eq_true, if_false]
    rw [run_bind_of_ok put, run_bind_of_ok counted, run_bind_of_ok tagged]
    rfl
  exact ⟨_, last, ran⟩

theorem AsnInt.bEnc_of_failed {x : AsnInt} {valueRanges : List ValueRange} {text : String}
    (failed : x.checkConstraints valueRanges = .ok (true, text)) (b : AsnBuf) :
    (x.bEnc valueRanges).run b = .error (constraintError "Integer not within constraints") b := by
  rw [bEnc, failed]
  rfl

/-- Integers are checked as their tables say if these are empty or an `int` holds the number. -/
theorem AsnInt.exactlyChecked_iff (valueRanges : List ValueRange) (x : AsnInt) :
    x.ExactlyChecked valueRanges ↔ valueRanges = [] ∨ x.mBytes.length ≤ 4 := by
  constructor
  · rintro ⟨⟨failed, text, checked, -⟩, -⟩
    by_contra neither
    obtain ⟨ranged, long⟩ := not_or.mp neither
    rw [checkConstraints_long (Nat.not_le.mp long) ranged] at checked
    cases checked
  · intro either
    have check : ∃ failed text, x.checkConstraints valueRanges = .ok (failed, text) ∧
        (failed = false ↔
          valueRanges = [] ∨ ∃ range ∈ valueRanges, Compiler.Admits range x.value) := by
      rcases either with rfl | short
      · exact ⟨false, "", x.checkConstraints_nil, iff_of_true rfl (.inl rfl)⟩
      · exact checkConstraints_short short valueRanges
    refine ⟨check, fun b data written => ?_⟩
    obtain ⟨failed, text, checked, -⟩ := check
    cases failed with
    | true => exact iff_of_true ⟨_, _, bEnc_of_failed checked b⟩ ⟨text, checked⟩
    | false =>
      refine iff_of_false ?_ ?_
      · rintro ⟨e, b', threw⟩
        obtain ⟨l, b'', ran⟩ := bEnc_of_accepted checked written
        rw [ran] at threw
        cases threw
      · rintro ⟨text', other⟩
        rw [checked] at other
        cases other

/-! ## Strings -/

/-- A string is checked as its type says: 0 is returned exactly where a constraint allows its size, or
there is none, and all characters are of the alphabet. -/
def AsnString.ExactlyChecked (type : AsnStringType) (x : List UInt8) : Prop :=
  (checkConstraints type x).1 = false ↔
    (type.sizeConstraints = [] ∨
      ∃ constraint ∈ type.sizeConstraints, constraint.Allows x.length) ∧
    ∀ c ∈ x, c ∈ type.permittedAlphabet

/-- The number of the characters that are looked at, which an `int` counts. -/
def countedSize (size : Nat) : Nat :=
  if size % 2 ^ 32 < 2 ^ 31 then size % 2 ^ 32 else 0

theorem toNat_intOf_size (size : Nat) :
    (intOf (.ofNat size)).toInt.toNat = countedSize size := by
  have low : (UInt64.ofNat size).toUInt32.toNat = size % 2 ^ 32 := by
    rw [UInt64.toNat_toUInt32, UInt64.toNat_ofNat']
    exact Nat.mod_mod_of_dvd size (by decide)
  have signed : (intOf (.ofNat size)).toInt = ((size % 2 ^ 32 : Nat) : Int).bmod (2 ^ 32) := by
    rw [← low]
    exact BitVec.toInt_eq_toNat_bmod _
  have less := Nat.mod_lt size (Nat.two_pow_pos 32)
  rw [signed, countedSize, Int.bmod]
  split_ifs <;> omega

theorem checkStringTypPermittedAlpha_isSome (permittedAlphabet x : List UInt8) :
    (checkStringTypPermittedAlpha permittedAlphabet x).isSome = false ↔
      ∀ c ∈ x.take (countedSize x.length), c ∈ permittedAlphabet := by
  rw [checkStringTypPermittedAlpha, toNat_intOf_size]
  by_cases inside : (x.take (countedSize x.length)).all (permittedAlphabet.contains ·) = true
  · rw [if_pos inside]
    refine iff_of_true rfl fun c there => ?_
    exact List.contains_iff_mem.mp (List.all_eq_true.mp inside c there)
  · rw [if_neg inside]
    refine iff_of_false Bool.true_eq_false.mp fun each => inside ?_
    exact List.all_eq_true.mpr fun c there => List.contains_iff_mem.mpr (each c there)

theorem all_failure_eq_false_iff (constraints : List SizeConstraint) (size : Nat) :
    (constraints.map fun constraint => constraint.failure size).all Option.isSome = false ↔
      ∃ constraint ∈ constraints, constraint.Allows size := by
  rw [List.all_eq_false]
  simp only [List.mem_map, exists_exists_and_eq_and, Bool.not_eq_true,
    SizeConstraint.failure_isSome]

theorem AsnString.checkConstraints_iff (type : AsnStringType) (x : List UInt8) :
    (checkConstraints type x).1 = false ↔
      (type.sizeConstraints = [] ∨
        ∃ constraint ∈ type.sizeConstraints, constraint.Allows x.length) ∧
      type.permittedAlphabet ≠ [] ∧
        ∀ c ∈ x.take (countedSize x.length), c ∈ type.permittedAlphabet := by
  unfold checkConstraints
  simp only [Bool.or_eq_false_iff, Bool.and_eq_false_iff, Bool.not_eq_false', List.isEmpty_iff,
    List.map_eq_nil_iff, all_failure_eq_false_iff, checkStringTypPermittedAlpha_isSome,
    List.isEmpty_eq_false_iff]

/-- Strings are checked as their types say if some character is permitted and no other one is beyond
those that are counted; it makes no difference where the size is not allowed. -/
theorem AsnString.exactlyChecked_iff (type : AsnStringType) (x : List UInt8) :
    ExactlyChecked type x ↔
      ((type.sizeConstraints = [] ∨
          ∃ constraint ∈ type.sizeConstraints, constraint.Allows x.length) →
        (type.permittedAlphabet = [] → x ≠ []) ∧
        (type.permittedAlphabet ≠ [] →
          (∀ c ∈ x.take (countedSize x.length), c ∈ type.permittedAlphabet) →
            ∀ c ∈ x.drop (countedSize x.length), c ∈ type.permittedAlphabet)) := by
  rw [ExactlyChecked, checkConstraints_iff, and_congr_right_iff]
  refine forall_congr' fun _ => ?_
  have parts : (∀ c ∈ x, c ∈ type.permittedAlphabet) ↔
      (∀ c ∈ x.take (countedSize x.length), c ∈ type.permittedAlphabet) ∧
        ∀ c ∈ x.drop (countedSize x.length), c ∈ type.permittedAlphabet := by
    rw [← List.forall_mem_append, List.take_append_drop]
  by_cases none : type.permittedAlphabet = []
  · -- No character is of the empty alphabet.
    have each : (∀ c ∈ x, c ∈ type.permittedAlphabet) ↔ x = [] := by
      simp only [none, List.not_mem_nil, List.eq_nil_iff_forall_not_mem]
    rw [each]
    simp only [none, ne_eq, not_true_eq_false, false_and, false_iff, forall_const,
      false_imp_iff, and_true]
  · rw [parts]
    simp only [none, ne_eq, not_false_eq_true, true_and, false_imp_iff, forall_const]
    tauto

/-! ## Leaves -/

/-- The checks of integers and strings tell what their tables say: where an integer has at most four
octets or no table, and where a string of an allowed size is not the empty one of the empty alphabet,
and has no other character beyond those that are counted only. -/
theorem leaf_checks_exact_iff (valueRanges : List ValueRange) (n : AsnInt) (type : AsnStringType)
    (x : List UInt8) :
    (n.ExactlyChecked valueRanges ↔ valueRanges = [] ∨ n.mBytes.length ≤ 4) ∧
    (AsnString.ExactlyChecked type x ↔
      ((type.sizeConstraints = [] ∨
          ∃ constraint ∈ type.sizeConstraints, constraint.Allows x.length) →
        (type.permittedAlphabet = [] → x ≠ []) ∧
        (type.permittedAlphabet ≠ [] →
          (∀ c ∈ x.take (countedSize x.length), c ∈ type.permittedAlphabet) →
            ∀ c ∈ x.drop (countedSize x.length), c ∈ type.permittedAlphabet))) :=
  ⟨n.exactlyChecked_iff valueRanges, AsnString.exactlyChecked_iff type x⟩

/-- Three thousand million is refused by the range of all unsigned numbers of 32 bits. -/
theorem not_leaf_checks_exact :
    ¬ ∀ (valueRanges : List ValueRange) (n : AsnInt),
      (∀ range ∈ valueRanges, range.upperBoundExists ∈ ([0, 1, 2] : List Int32)) →
        n.ExactlyChecked valueRanges := by
  intro exact
  have inside := exact [⟨0, 4294967295, 1⟩] ⟨[0x00, 0xB2, 0xD0, 0x5E, 0x00]⟩ (by decide)
  rcases (AsnInt.exactlyChecked_iff _ _).mp inside with none | short
  · cases none
  · exact absurd short (by decide)

end Esnacc.Cxx
