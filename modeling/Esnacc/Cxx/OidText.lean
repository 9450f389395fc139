import Esnacc.Cxx.OidWalks

/-! The dotted text of C++ object identifiers: it is read into octets and written from them. -/

namespace Esnacc.Cxx

open Lib

/-! ## Text -/

/-- An object identifier with the text that is kept for it, if there is one. -/
structure OidObject extends AsnRelativeOid where
  mLpszOidString : Option (List Char)

/-- Read digits as a `long`; a greater number is the greatest `long`. -/
def atol (digits : List Char) : UInt64 :=
  .ofNat (min (Nat.ofDigitChars 10 digits 0) (2 ^ 63 - 1))

/-- A text behind the period that it may start with. -/
def behindPeriod (str : List Char) : List Char :=
  if str.head? = some '.' then str.tail else str

theorem length_behindPeriod (str : List Char) : (behindPeriod str).length ≤ str.length := by
  rw [behindPeriod]
  split
  · rw [List.length_tail]
    exact Nat.sub_le _ _
  · exact Nat.le_refl _

/-- Read the arcs of a text, each behind its period. -/
def parseArcs (str : List Char) : Except Thrown (List UInt64) :=
  match str with
  | [] => return []
  | c :: rest =>
    let pIntStr := behindPeriod (c :: rest)
    let digits := pIntStr.takeWhile fun c => c ≠ '.'
    if digits.any fun c => c < '0' ∨ '9' < c then
      throw (oidException "Invalid character in OID string.")
    else if digits = [] then throw (oidException "Invalid OID string format")
    else return atol digits :: (← parseArcs (pIntStr.drop digits.length))
termination_by str.length
decreasing_by
  rename_i some
  have positive := List.length_pos_iff.mpr some
  have size := length_behindPeriod (c :: rest)
  change 0 < (List.takeWhile _ (behindPeriod (c :: rest))).length at positive
  change (List.drop _ (behindPeriod (c :: rest))).length < _
  rw [List.length_drop]
  simp only [List.length_cons] at size ⊢
  omega

/-- Set an object identifier from a text, which is kept. -/
def OidObject.setText (x : OidObject) (szOidCopy : List Char) : Except Thrown OidObject := do
  if szOidCopy.head? = some '.' then throw (oidException "Invalid OID string format")
  else
    let intArray ← parseArcs szOidCopy
    -- The counter of the loop that copies the arcs is an `unsigned int`.
    if 2 ^ 32 ≤ intArray.length then throw .outOfTurns
    else
      let y ← x.setArcs intArray
      return ⟨y, some szOidCopy⟩

/-- A number as `%ld` prints it. -/
def printLong (n : UInt64) : List Char :=
  if n.toInt64 < 0 then '-' :: Nat.toDigits 10 (2 ^ 64 - n.toNat) else Nat.toDigits 10 n.toNat

/-- Join the bits of an arc number up to its last octet, or to the end. -/
def joinArc (arcNum : UInt64) : List UInt8 → UInt64 × List UInt8
  | [] => (arcNum, [])
  | c :: rest =>
    let arcNum := arcNum <<< 7 + (c &&& 0x7F).toUInt64
    if hasMore c then joinArc arcNum rest else (arcNum, rest)

theorem length_joinArc (arcNum : UInt64) (octets : List UInt8) :
    (joinArc arcNum octets).2.length ≤ octets.length - 1 := by
  induction octets generalizing arcNum with
  | nil => exact Nat.zero_le _
  | cons c rest ih =>
    rw [joinArc]
    split
    · have less := ih (arcNum <<< 7 + (c &&& 0x7F).toUInt64)
      rw [List.length_cons]
      omega
    · exact Nat.le_refl _

/-- The text of the arcs behind the first number. -/
def dottedRest (octets : List UInt8) : List Char :=
  match octets with
  | [] => []
  | c :: rest =>
    '.' :: printLong (joinArc 0 (c :: rest)).1 ++ dottedRest (joinArc 0 (c :: rest)).2
termination_by octets.length
decreasing_by
  have less := length_joinArc 0 (c :: rest)
  rw [List.length_cons] at less ⊢
  omega

/-- The dotted text of octets. -/
def createDottedOidStr (x : AsnRelativeOid) : List Char :=
  match x.oid with
  | [] => []
  | c :: rest =>
    let (arcNum, behind) := joinArc 0 (c :: rest)
    if x.mIsRelative then printLong arcNum ++ dottedRest behind
    else
      let firstNum := if 2 < arcNum / 40 then 2 else arcNum / 40
      printLong firstNum ++ '.' :: printLong (arcNum - firstNum * 40) ++ dottedRest behind

/-- Compare the octets of two object identifiers. -/
def AsnRelativeOid.oidEquiv (x o : AsnRelativeOid) : Bool :=
  x.oid = o.oid

/-- Compare an object identifier with a text. -/
def OidObject.equalsText (x : OidObject) (o : List Char) : Bool :=
  (x.mLpszOidString.getD (createDottedOidStr x.toAsnRelativeOid)) = o

/-! ## The arcs of a text -/

/-- The numbers between the periods of a text, behind digits that were read already. -/
def arcsFrom : Nat → List Char → List Nat
  | n, [] => [n]
  | n, c :: rest =>
    if c = '.' then n :: arcsFrom 0 rest else arcsFrom (10 * n + (c.toNat - 48)) rest

/-- The numbers between the periods of a text. -/
def arcsOf (str : List Char) : List Nat :=
  arcsFrom 0 str

/-- The text of arcs. -/
def dottedText : List Nat → List Char
  | [] => []
  | arc :: arcs => Nat.toDigits 10 arc ++ arcs.flatMap fun arc => '.' :: Nat.toDigits 10 arc

/-! ## Reading a text -/

theorem arcsFrom_digits {digits : List Char} (inside : ∀ c ∈ digits, c ≠ '.') (n : Nat)
    (rest : List Char) :
    arcsFrom n (digits ++ rest) = arcsFrom (Nat.ofDigitChars 10 digits n) rest := by
  induction digits generalizing n with
  | nil => rfl
  | cons c digits ih =>
    rw [List.cons_append, arcsFrom, if_neg (inside c List.mem_cons_self),
      ih fun d behind => inside d (List.mem_cons_of_mem _ behind)]
    rfl

/-- An arc number that is read for the number of a text. -/
def clampArc (arc : Nat) : UInt64 :=
  .ofNat (min arc (2 ^ 63 - 1))

theorem toNat_clampArc (arc : Nat) : (clampArc arc).toNat = min arc (2 ^ 63 - 1) := by
  rw [clampArc, UInt64.toNat_ofNat_of_lt']
  rw [UInt64.size]
  omega

/-- What is read are the numbers between the periods, cut off at the greatest `long`. -/
theorem parseArcs_spec {str : List Char} {arcs : List UInt64} (ran : parseArcs str = .ok arcs) :
    str = [] ∧ arcs = [] ∨ arcs = (arcsOf (behindPeriod str)).map clampArc := by
  induction size : str.length using Nat.strong_induction_on generalizing str arcs with
  | h n ih =>
    cases str with
    | nil =>
      rw [parseArcs] at ran
      cases ran
      exact .inl ⟨rfl, rfl⟩
    | cons c rest =>
      have less := length_behindPeriod (c :: rest)
      rw [parseArcs] at ran
      generalize behindPeriod (c :: rest) = pIntStr at ran less
      have parts : pIntStr.takeWhile (fun c => c ≠ '.') ++ pIntStr.dropWhile (fun c => c ≠ '.') =
          pIntStr := List.takeWhile_append_dropWhile
      have inside : ∀ c ∈ pIntStr.takeWhile (fun c => c ≠ '.'), c ≠ '.' := fun c member => by
        simpa using List.mem_takeWhile_imp member
      have stops := List.head?_dropWhile_not (fun c => decide (c ≠ '.')) pIntStr
      generalize pIntStr.takeWhile (fun c => c ≠ '.') = digits at ran parts inside
      generalize pIntStr.dropWhile (fun c => c ≠ '.') = behind at parts stops
      subst parts
      rw [List.drop_left] at ran
      split at ran
      · cases ran
      · by_cases none : digits = []
        · rw [if_pos none] at ran
          cases ran
        · rw [if_neg none] at ran
          have positive := List.length_pos_iff.mpr none
          cases parsed : parseArcs behind with
          | error e =>
            rw [parsed] at ran
            cases ran
          | ok further =>
            rw [parsed] at ran
            cases ran
            refine .inr ?_
            rw [arcsOf, arcsFrom_digits inside]
            rw [List.length_append] at less
            rcases ih behind.length (by omega) parsed rfl with ⟨rfl, rfl⟩ | rfl
            · rfl
            · cases behind with
              | nil =>
                rw [parseArcs] at parsed
                cases parsed
              | cons d more =>
                have period : d = '.' := by simpa using stops
                subst period
                rfl

theorem parseArcs_ne_nil {str : List Char} {arcs : List UInt64} (ran : parseArcs str = .ok arcs)
    (present : arcs ≠ []) (start : str.head? ≠ some '.') :
    arcs = (arcsOf str).map clampArc := by
  rcases parseArcs_spec ran with ⟨-, none⟩ | read
  · exact absurd none present
  · rwa [behindPeriod, if_neg start] at read

/-! ## Reading octets -/

theorem toNat_shiftIn (arc : UInt64) (c : UInt8) :
    (shiftIn arc c).toNat = addGroup arc.toNat c % 2 ^ 64 := by
  have seven : (7 : UInt64).toNat % 64 = 7 := rfl
  have low : (c &&& 0x7F).toUInt64.toNat = c.toNat % 128 := Nat.and_two_pow_sub_one_eq_mod c.toNat 7
  have split : arc.toNat <<< 7 % 2 ^ 64 = 2 ^ 7 * (arc.toNat % 2 ^ 57) := by
    rw [Nat.shiftLeft_eq]
    omega
  have bits : c.toNat % 128 < 2 ^ 7 := Nat.mod_lt _ (by decide)
  rw [shiftIn, UInt64.toNat_or, UInt64.toNat_shiftLeft, low, seven, split,
    ← Nat.two_pow_add_eq_or_of_lt bits, addGroup]
  omega

theorem shiftIn_eq_add (arc : UInt64) (c : UInt8) :
    arc <<< 7 + (c &&& 0x7F).toUInt64 = shiftIn arc c := by
  have low : (c &&& 0x7F).toUInt64.toNat = c.toNat % 128 := Nat.and_two_pow_sub_one_eq_mod c.toNat 7
  have shifted : (arc <<< 7).toNat = arc.toNat * 128 % 2 ^ 64 := by
    rw [UInt64.toNat_shiftLeft, Nat.shiftLeft_eq]
    rfl
  apply UInt64.toNat_inj.mp
  rw [toNat_shiftIn, UInt64.toNat_add, low, shifted, addGroup]
  omega

theorem toNat_foldl_shiftIn (octets : List UInt8) (arc : UInt64) :
    (octets.foldl shiftIn arc).toNat = octets.foldl addGroup arc.toNat % 2 ^ 64 := by
  -- Joining modulo the word may be done at the end.
  have late : ∀ (octets : List UInt8) (n : Nat),
      octets.foldl addGroup (n % 2 ^ 64) % 2 ^ 64 = octets.foldl addGroup n % 2 ^ 64 := by
    intro octets
    induction octets with
    | nil => exact fun n => Nat.mod_mod ..
    | cons c rest ih =>
      intro n
      have step : addGroup (n % 2 ^ 64) c % 2 ^ 64 = addGroup n c % 2 ^ 64 := by
        rw [addGroup, addGroup]
        omega
      rw [List.foldl_cons, List.foldl_cons, ← ih, step, ih]
  induction octets generalizing arc with
  | nil => exact (Nat.mod_eq_of_lt arc.toNat_lt).symm
  | cons c rest ih => rw [List.foldl_cons, List.foldl_cons, ih, toNat_shiftIn, late]

theorem foldl_shiftIn_groupOctets (arc : UInt64) :
    (groupOctets arc.toNat).foldl shiftIn 0 = arc := by
  apply UInt64.toNat_inj.mp
  have zero : (0 : UInt64).toNat = 0 := rfl
  rw [toNat_foldl_shiftIn, zero, foldl_groupOctets, Nat.zero_mul, Nat.zero_add]
  exact Nat.mod_eq_of_lt arc.toNat_lt

theorem hasMore_iff (c : UInt8) : hasMore c = true ↔ 128 ≤ c.toNat := by
  rw [hasMore, decide_eq_true_iff]
  exact and_top_ne_zero

theorem groupOctets_parts (n : Nat) : ∃ more last, groupOctets n = more ++ [last] ∧
    (∀ c ∈ more, hasMore c) ∧ hasMore last = false := by
  refine ⟨leadOctets n, _, rfl, fun c inside => ?_, ?_⟩
  · exact (hasMore_iff c).mpr (le_of_mem_leadOctets inside)
  rw [← Bool.not_eq_true, hasMore_iff, toNat_lastGroup]
  omega

theorem countArcs_arcOctets (arcs : List UInt64) (rest : List UInt8) :
    countArcs (arcOctets arcs ++ rest) = arcs.length + countArcs rest := by
  induction arcs with
  | nil => simp
  | cons arc arcs ih =>
    obtain ⟨more, last, parts, lead, clear⟩ := groupOctets_parts arc.toNat
    rw [arcOctets_cons, parts, List.append_assoc, List.append_assoc, List.singleton_append,
      countArcs_arc lead clear, ih, List.length_cons]
    omega

/-- One arc number is got. -/
theorem getArcs_number {mIsRelative : Bool} {done rest : List UInt8} (arc : UInt64) {iArc : Nat}
    {oidArray : List UInt64} (zero : oidArray[iArc]? = some 0) :
    getArcs mIsRelative (done ++ (groupOctets arc.toNat ++ rest)) done.length iArc oidArray =
      if !mIsRelative ∧ iArc = 0 then do
        let oidArray ← unmunge (oidArray.set iArc arc)
        getArcs mIsRelative (done ++ groupOctets arc.toNat ++ rest)
          (done ++ groupOctets arc.toNat).length (iArc + 2) oidArray
      else getArcs mIsRelative (done ++ groupOctets arc.toNat ++ rest)
          (done ++ groupOctets arc.toNat).length (iArc + 1) (oidArray.set iArc arc) := by
  obtain ⟨more, last, parts, lead, clear⟩ := groupOctets_parts arc.toNat
  have got := @getArcs_arc mIsRelative done more rest last lead clear iArc oidArray 0 zero
  have size : done.length + more.length + 1 = (done ++ groupOctets arc.toNat).length := by
    rw [parts]
    simp [Nat.add_assoc]
  have place : more ++ last :: rest = groupOctets arc.toNat ++ rest := by
    rw [parts, List.append_assoc]
    rfl
  rw [← parts, foldl_shiftIn_groupOctets, size, place] at got
  rw [got, List.append_assoc]

/-- Arc numbers are got into the entries behind the first ones. -/
theorem getArcs_numbers {mIsRelative : Bool} {done : List UInt8} (arcs : List UInt64)
    {front back : List UInt64} (later : front ≠ [] ∨ mIsRelative = true) (rest : List UInt8) :
    getArcs mIsRelative (done ++ (arcOctets arcs ++ rest)) done.length front.length
        (front ++ (List.replicate arcs.length 0 ++ back)) =
      getArcs mIsRelative (done ++ arcOctets arcs ++ rest) (done ++ arcOctets arcs).length
        (front ++ arcs).length (front ++ arcs ++ back) := by
  induction arcs generalizing done front with
  | nil => simp
  | cons arc arcs ih =>
    have zero : (front ++ (List.replicate (arc :: arcs).length 0 ++ back))[front.length]? =
        some 0 := by
      rw [List.getElem?_append_right (Nat.le_refl _), Nat.sub_self]
      rfl
    have filled : (front ++ (List.replicate (arc :: arcs).length 0 ++ back)).set front.length arc =
        front ++ [arc] ++ (List.replicate arcs.length 0 ++ back) := by
      rw [List.set_append_right _ _ (Nat.le_refl _), Nat.sub_self, List.append_assoc]
      rfl
    have size : (front ++ [arc]).length = front.length + 1 := by simp
    have again := @ih (done ++ groupOctets arc.toNat) (front ++ [arc]) (.inl (by simp))
    rw [size] at again
    rw [arcOctets_cons, List.append_assoc, getArcs_number arc zero, if_neg, filled, again]
    · simp [List.append_assoc]
    · rintro ⟨absolute, start⟩
      rcases later with some | relative
      · exact some (List.eq_nil_of_length_eq_zero start)
      · rw [relative] at absolute
        cases absolute

/-! ## Octets of arcs -/

theorem arcNumbers_false (first second : UInt64) (rest : List UInt64) :
    arcNumbers false (first :: second :: rest) = (first * 40 + second) :: rest :=
  rfl

/-- The arcs that are read back from an arc number of two arcs. -/
def apart (arcNum : UInt64) : UInt64 × UInt64 :=
  let first := if 2 < arcNum / 40 then 2 else arcNum / 40
  (first, arcNum - first * 40)

/-- The arcs that are got from the octets of arc numbers. -/
def gotArcs (mIsRelative : Bool) (arcNums : List UInt64) : List UInt64 :=
  match mIsRelative, arcNums with
  | false, arcNum :: rest => (apart arcNum).1 :: (apart arcNum).2 :: rest
  | _, arcNums => arcNums

theorem AsnRelativeOid.getOidArray_arcOctets (mIsRelative : Bool) (arcNums : List UInt64) :
    let x : AsnRelativeOid := ⟨mIsRelative, arcOctets arcNums⟩
    x.getOidArray (List.replicate x.numArcs 0) = .ok (gotArcs mIsRelative arcNums) := by
  intro x
  have count : countArcs x.oid = arcNums.length := by
    have all := countArcs_arcOctets arcNums []
    rwa [List.append_nil, countArcs, Nat.add_zero] at all
  have ends : ∀ (done : List UInt8) (arcs : List UInt64),
      getArcs mIsRelative (done ++ []) done.length arcs.length arcs = .ok arcs := by
    intro done arcs
    rw [List.append_nil, getArcs, dif_neg (Nat.lt_irrefl _)]
    rfl
  rw [getOidArray, numArcs, count]
  cases relative : mIsRelative with
  | true =>
    have got := @getArcs_numbers true [] arcNums [] [] (.inr rfl) []
    subst relative
    simp only [List.nil_append, List.append_nil] at got ends
    rw [if_neg (by simp [x])]
    exact got.trans (ends _ _)
  | false =>
    subst relative
    cases arcNums with
    | nil =>
      rw [if_neg (by simp)]
      exact ends [] []
    | cons arcNum rest =>
      have got := @getArcs_numbers false (groupOctets arcNum.toNat) rest
        [(apart arcNum).1, (apart arcNum).2] [] (.inl (List.cons_ne_nil _ _)) []
      simp only [List.append_nil] at got ends
      rw [if_pos ⟨rfl, Nat.succ_pos _⟩]
      have first := @getArcs_number false [] (arcOctets rest) arcNum 0
        (List.replicate (rest.length + 1 + 1) 0) rfl
      refine first.trans ?_
      rw [if_pos ⟨rfl, rfl⟩]
      exact got.trans (ends _ _)

/-- Octets that break off before the end are those of the first arc numbers, or are refused. -/
theorem getArcs_take {mIsRelative : Bool} (arcNums : List UInt64) {m : Nat}
    (less : m < (arcOctets arcNums).length) {octets : List UInt8}
    (front : (arcOctets arcNums).take m = octets) {done : List UInt8} {iArc : Nat}
    {oidArray : List UInt64} (enough : iArc + countArcs octets +
      (if mIsRelative = false ∧ iArc = 0 ∧ octets ≠ [] then 1 else 0) ≤ oidArray.length) :
    (∃ k < arcNums.length, octets = arcOctets (arcNums.take k)) ∨
      getArcs mIsRelative (done ++ octets) done.length iArc oidArray =
        .error (oidException "Invalid encoded OID") := by
  induction arcNums generalizing m octets done iArc oidArray with
  | nil => exact absurd less (Nat.not_lt_zero _)
  | cons arcNum rest ih =>
    obtain ⟨more, last, parts, lead, clear⟩ := groupOctets_parts arcNum.toNat
    rw [arcOctets_cons] at front
    rw [arcOctets_cons, List.length_append] at less
    have size : (groupOctets arcNum.toNat).length = more.length + 1 := by
      rw [parts, List.length_append, List.length_singleton]
    by_cases none : octets = []
    · exact .inl ⟨0, Nat.succ_pos _, none⟩
    have some : 0 < countArcs octets := by
      rw [countArcs_of_ne_nil none]
      exact Nat.succ_pos _
    have inside : iArc < oidArray.length := by omega
    by_cases within : m < (groupOctets arcNum.toNat).length
    · have cut : more.take m = octets := by
        rw [← front, List.take_append_of_le_length (Nat.le_of_lt within), parts,
          List.take_append_of_le_length (by omega)]
      refine .inr (getArcs_cut none (fun c member => ?_) inside)
      rw [← cut] at member
      exact lead c (List.mem_of_mem_take member)
    · -- The first arc number is whole.
      obtain ⟨k, rfl⟩ := Nat.exists_eq_add_of_le (Nat.le_of_not_lt within)
      have whole : octets = more ++ last :: (arcOctets rest).take k := by
        rw [← front, List.take_length_add_append, parts, List.append_assoc]
        rfl
      have place : done.length + more.length + 1 = (done ++ (more ++ [last])).length := by
        simp [Nat.add_assoc]
      have split : done ++ (more ++ last :: (arcOctets rest).take k) =
          done ++ (more ++ [last]) ++ (arcOctets rest).take k := by
        simp
      have again : ∀ (iArc : Nat) (oidArray : List UInt64), iArc ≠ 0 →
          iArc + countArcs ((arcOctets rest).take k) ≤ oidArray.length →
          (∃ n < rest.length + 1, octets = arcOctets ((arcNum :: rest).take n)) ∨
            getArcs mIsRelative (done ++ (more ++ [last]) ++ (arcOctets rest).take k)
              (done ++ (more ++ [last])).length iArc oidArray =
              .error (oidException "Invalid encoded OID") := by
        intro iArc oidArray later room
        have kept := @ih k (by omega) _ rfl (done ++ (more ++ [last])) iArc oidArray (by
          rw [if_neg fun all => later all.2.1]
          exact room)
        refine kept.imp_left ?_
        rintro ⟨n, fewer, same⟩
        refine ⟨n + 1, Nat.succ_lt_succ fewer, ?_⟩
        rw [whole, same, List.take_succ_cons, arcOctets_cons, parts, List.append_assoc]
        rfl
      rw [whole, countArcs_arc lead clear] at enough
      rw [List.length_cons]
      conv => rhs; rw [whole]
      rw [getArcs_arc lead clear (List.getElem?_eq_getElem inside), place, split]
      by_cases first : mIsRelative = false ∧ iArc = 0
      · obtain ⟨rfl, rfl⟩ := first
        rw [if_pos ⟨rfl, rfl, by simp⟩] at enough
        rw [if_pos ⟨rfl, rfl⟩]
        obtain ⟨one, two, entries, rfl⟩ : ∃ one two entries, oidArray = one :: two :: entries := by
          rcases oidArray with _ | ⟨one, _ | ⟨two, entries⟩⟩
          · simp at inside
          · simp at enough
          · exact ⟨one, two, entries, rfl⟩
        refine again 2 _ (by decide) ?_
        simp only [List.length_cons] at enough ⊢
        omega
      · rw [if_neg fun all => first ⟨all.1, all.2.1⟩] at enough
        rw [if_neg (by simpa using first)]
        refine again (iArc + 1) _ (Nat.succ_ne_zero _) ?_
        rw [List.length_set]
        omega

/-- Octets that break off before the end do not give the arcs. -/
theorem AsnRelativeOid.getOidArray_take {mIsRelative : Bool} {arcNums : List UInt64} {m : Nat}
    (less : m < (arcOctets arcNums).length) {arcs : List UInt64}
    (all : arcs.length = (gotArcs mIsRelative arcNums).length) :
    let y : AsnRelativeOid := ⟨mIsRelative, (arcOctets arcNums).take m⟩
    y.getOidArray (List.replicate y.numArcs 0) ≠ .ok arcs := by
  intro y got
  rcases @getArcs_take mIsRelative arcNums m less _ rfl [] 0 (List.replicate y.numArcs 0) (by
    rw [List.length_replicate, y.numArcs_eq, Nat.zero_add]) with ⟨k, fewer, front⟩ | refused
  · -- Fewer arc numbers give fewer arcs.
    have given := getOidArray_arcOctets mIsRelative (arcNums.take k)
    rw [← front] at given
    have same := Except.ok.inj (given.symm.trans got)
    rw [← same] at all
    have count : (arcNums.take k).length = k := List.length_take_of_le (Nat.le_of_lt fewer)
    cases mIsRelative with
    | true =>
      have sizes : (arcNums.take k).length = arcNums.length := all
      omega
    | false =>
      cases arcNums with
      | nil => exact absurd fewer (Nat.not_lt_zero _)
      | cons arcNum rest =>
        cases k with
        | zero => cases all
        | succ k =>
          have sizes : (rest.take k).length + 2 = rest.length + 2 := all
          rw [List.length_take] at sizes
          rw [List.length_cons] at fewer
          omega
  · rw [getOidArray] at got
    cases refused.symm.trans got

/-! ## Printing -/

theorem joinArc_lead {more : List UInt8} (lead : ∀ c ∈ more, hasMore c) {last : UInt8}
    (clear : hasMore last = false) (rest : List UInt8) (arc : UInt64) :
    joinArc arc (more ++ last :: rest) = ((more ++ [last]).foldl shiftIn arc, rest) := by
  induction more generalizing arc with
  | nil =>
    rw [List.nil_append, joinArc, clear, if_neg Bool.false_ne_true, shiftIn_eq_add]
    rfl
  | cons c more ih =>
    rw [List.cons_append, joinArc, if_pos (lead c List.mem_cons_self), shiftIn_eq_add,
      ih fun d behind => lead d (List.mem_cons_of_mem _ behind)]
    rfl

theorem joinArc_groupOctets (arc : UInt64) (rest : List UInt8) :
    joinArc 0 (groupOctets arc.toNat ++ rest) = (arc, rest) := by
  obtain ⟨more, last, parts, lead, clear⟩ := groupOctets_parts arc.toNat
  rw [parts, List.append_assoc, List.singleton_append, joinArc_lead lead clear, ← parts,
    foldl_shiftIn_groupOctets]

theorem dottedRest_arcOctets (arcs : List UInt64) :
    dottedRest (arcOctets arcs) = arcs.flatMap fun arc => '.' :: printLong arc := by
  induction arcs with
  | nil => rw [arcOctets_nil, dottedRest, List.flatMap_nil]
  | cons arc arcs ih =>
    have joined := joinArc_groupOctets arc (arcOctets arcs)
    rw [arcOctets_cons] at *
    cases octets : groupOctets arc.toNat ++ arcOctets arcs with
    | nil => simp [groupOctets] at octets
    | cons c rest =>
      rw [octets] at joined
      rw [dottedRest, joined, ih]
      rfl

/-- The text that is made of the octets of arc numbers. -/
theorem createDottedOidStr_arcOctets (mIsRelative : Bool) (first : UInt64) (rest : List UInt64) :
    createDottedOidStr ⟨mIsRelative, arcOctets (first :: rest)⟩ =
      (if mIsRelative then printLong first
        else printLong (apart first).1 ++ '.' :: printLong (apart first).2) ++
        rest.flatMap fun arc => '.' :: printLong arc := by
  have joined := joinArc_groupOctets first (arcOctets rest)
  rw [arcOctets_cons]
  cases octets : groupOctets first.toNat ++ arcOctets rest with
  | nil => simp [groupOctets] at octets
  | cons c more =>
    rw [octets] at joined
    rw [createDottedOidStr]
    dsimp only
    rw [joined]
    dsimp only
    rw [dottedRest_arcOctets]
    split <;> rfl

theorem printLong_eq {n : UInt64} (long : n.toNat < 2 ^ 63) :
    printLong n = Nat.toDigits 10 n.toNat := by
  have nonneg : ¬n.toInt64 < 0 := by
    have value : n.toInt64.toInt = n.toNat := by
      have word : n.toInt64.toInt = (n.toNat : Int).bmod (2 ^ 64) :=
        BitVec.toInt_eq_toNat_bmod _
      rw [word, Int.bmod_def]
      split <;> omega
    rw [Int64.lt_iff_toInt_lt, value]
    exact Int.not_lt.mpr (Int.natCast_nonneg _)
  rw [printLong, if_neg nonneg]

end Esnacc.Cxx
