import Esnacc.Ber.Oids
import Esnacc.Cxx.Contents
import Mathlib.Data.List.TakeWhile

/-! The arcs that C++ object identifiers are set from, and that are got from their octets. -/

namespace Esnacc.Cxx

open Lib

/-- An argument that a routine does not take. -/
def parameterException (whatStr : String) : Thrown :=
  .snaccException whatStr 6008

/-- An object identifier that is none. -/
def oidException (whatStr : String) : Thrown :=
  .snaccException whatStr 6009

/-- The number that ends an array of arcs. -/
def NO_ARC : UInt64 := 0xFFFFFFFFFFFFFFFF

theorem toNat_shiftRight_seven (n : UInt64) : (n >>> 7).toNat = n.toNat / 128 := by
  rw [UInt64.toNat_shiftRight, Nat.shiftRight_eq_div_pow]
  rfl

/-! ## Setting -/

/-- Count the octets of an arc number. -/
def arcLen (tmpNum : UInt64) : Nat :=
  if tmpNum >>> 7 = 0 then 1 else arcLen (tmpNum >>> 7) + 1
termination_by tmpNum.toNat
decreasing_by
  rename_i more
  have shifted := toNat_shiftRight_seven tmpNum
  have positive : (tmpNum >>> 7).toNat ≠ 0 := fun zero => more (UInt64.toNat_inj.mp zero)
  omega

/-- Write so many octets of an arc number at a place of the buffer, the last one first. -/
def putArc (offset : Nat) : Nat → UInt64 → Bool → List UInt8 → Except Thrown (List UInt8)
  | 0, _, _, buf => return buf
  | j + 1, tmpArcNum, isLast, buf =>
    if offset + j < buf.length then
      let octet := (tmpArcNum &&& 0x7F).toUInt8
      let octet := if isLast then octet else octet ||| 0x80
      putArc offset j (tmpArcNum >>> 7) false (buf.set (offset + j) octet)
    else throw .fault

theorem length_of_putArc {offset j : Nat} {tmpArcNum : UInt64} {isLast : Bool}
    {buf buf' : List UInt8} (ran : putArc offset j tmpArcNum isLast buf = .ok buf') :
    buf'.length = buf.length ∧ (0 < j → offset + j ≤ buf.length) := by
  induction j generalizing tmpArcNum isLast buf with
  | zero =>
    cases ran
    exact ⟨rfl, nofun⟩
  | succ j ih =>
    rw [putArc] at ran
    by_cases room : offset + j < buf.length
    · rw [if_pos room] at ran
      obtain ⟨size, -⟩ := ih ran
      rw [List.length_set] at size
      exact ⟨size, fun _ => room⟩
    · rw [if_neg room] at ran
      cases ran

theorem arcLen_pos (tmpNum : UInt64) : 0 < arcLen tmpNum := by
  rw [arcLen]
  split <;> omega

/-- The number that is written at a place, and the place of its last arc: the first two arcs of an object identifier go together. -/
@[grind =] def munged (mIsRelative : Bool) (arcNumArr : List UInt64) (i : UInt32) (arcNum : UInt64) :
    Except Thrown (UInt64 × UInt32) :=
  if i = 0 ∧ !mIsRelative then
    match arcNumArr[1]? with
    | none => throw (parameterException "Invalid parameter to AsnRelativeOid::Set()")
    | some second =>
      if second = NO_ARC then
        throw (parameterException "Invalid parameter to AsnRelativeOid::Set()")
      else if 2 < arcNum then throw (oidException "First arc number must be 0, 1, or 2")
      else return (arcNum * 40 + second, i + 1)
  else return (arcNum, i)

/-- Write the arcs from a place of the array on; the place is an `unsigned int`. -/
def putArcs (mIsRelative : Bool) (arcNumArr : List UInt64) (i : UInt32) (buf : List UInt8)
    (offset : Nat) (totalLen : UInt32) : Except Thrown (List UInt8 × UInt32) :=
  match arcNumArr[i.toNat]? with
  | none => return (buf, totalLen)
  | some arcNum =>
    if arcNum = NO_ARC then return (buf, totalLen)
    else
      match munged mIsRelative arcNumArr i arcNum with
      | .error e => throw e
      | .ok (tmpArcNum, i) =>
        match _ran : putArc offset (arcLen tmpArcNum) tmpArcNum true buf with
        | .error e => throw e
        | .ok buf =>
          putArcs mIsRelative arcNumArr (i + 1) buf (offset + arcLen tmpArcNum)
            (totalLen + .ofNat (arcLen tmpArcNum))
termination_by buf.length - offset
decreasing_by
  have some := arcLen_pos tmpArcNum
  obtain ⟨size, room⟩ := length_of_putArc _ran
  have inside := room some
  omega

/-- Set an object identifier from its arcs. -/
def AsnRelativeOid.setArcs (x : AsnRelativeOid) (arcNumArr : List UInt64) :
    Except Thrown AsnRelativeOid := do
  if arcNumArr.length < 1 then
    throw (parameterException "Invalid arguments in AsnRelativeOid::Set()")
  else
    let (buf, totalLen) ←
      putArcs x.mIsRelative arcNumArr 0 (List.replicate (arcNumArr.length * 5) 0) 0 0
    return ⟨x.mIsRelative, buf.take totalLen.toNat⟩

/-! ## Getting -/

/-- More octets of the arc follow. -/
def hasMore (c : UInt8) : Bool :=
  c &&& 0x80 ≠ 0

/-- Count the arcs of octets; one that is broken off counts too. -/
def countArcs (octets : List UInt8) : Nat :=
  match octets with
  | [] => 0
  | c :: rest => countArcs (((c :: rest).dropWhile hasMore).drop 1) + 1
termination_by octets.length
decreasing_by
  have size := ((c :: rest).dropWhile_sublist hasMore).length_le
  rw [List.length_cons] at size
  rw [List.length_drop, List.length_cons]
  omega

/-- The number of arcs, where the first two go together in an object identifier. -/
def AsnRelativeOid.numArcs (x : AsnRelativeOid) : Nat :=
  let numArcs := countArcs x.oid
  if !x.mIsRelative ∧ 0 < numArcs then numArcs + 1 else numArcs

/-- Shift the bits of an octet into an arc. -/
def shiftIn (arc : UInt64) (c : UInt8) : UInt64 :=
  arc <<< 7 ||| (c &&& 0x7F).toUInt64

/-- Shift the bits of an octet into an arc of the array. -/
def shiftArc (iArc : Nat) (c : UInt8) (oidArray : List UInt64) : Except Thrown (List UInt64) :=
  match oidArray[iArc]? with
  | none => throw .fault
  | some arc => return oidArray.set iArc (shiftIn arc c)

/-- Shift the octets from a place on into an arc, up to its last one. -/
def shiftMore (oid : List UInt8) (iArc i : Nat) (oidArray : List UInt64) :
    Except Thrown (Nat × List UInt64) :=
  if i < oid.length then
    match oid[i]? with
    | none => throw .fault
    | some c =>
      if hasMore c then do
        let oidArray ← shiftArc iArc c oidArray
        shiftMore oid iArc (i + 1) oidArray
      else return (i, oidArray)
  else return (i, oidArray)
termination_by oid.length - i

theorem le_of_shiftMore {oid : List UInt8} {iArc i i' : Nat} {oidArray oidArray' : List UInt64}
    (ran : shiftMore oid iArc i oidArray = .ok (i', oidArray')) : i ≤ i' := by
  fun_induction shiftMore oid iArc i oidArray with
  | case1 => cases ran
  | case2 i oidArray inside c here more ih =>
    cases shifted : shiftArc iArc c oidArray with
    | error e =>
      rw [shifted] at ran
      cases ran
    | ok arcs =>
      rw [shifted] at ran
      exact Nat.le_of_succ_le (ih arcs ran)
  | case3 =>
    cases ran
    exact Nat.le_refl _
  | case4 =>
    cases ran
    exact Nat.le_refl _

/-- Take the first two arcs apart. -/
def unmunge (oidArray : List UInt64) : Except Thrown (List UInt64) :=
  match oidArray with
  | first :: _ :: rest =>
    let arc := if 2 < first / 40 then 2 else first / 40
    return arc :: (first - arc * 40) :: rest
  | _ => throw .fault

/-- Get the arcs from a place of the octets on into an array. -/
def getArcs (mIsRelative : Bool) (oid : List UInt8) (i iArc : Nat) (oidArray : List UInt64) :
    Except Thrown (List UInt64) :=
  if _inside : i < oid.length then
    match _ran : shiftMore oid iArc i oidArray with
    | .error e => throw e
    | .ok (i, oidArray) =>
      if i = oid.length then throw (oidException "Invalid encoded OID")
      else
        match oid[i]? with
        | none => throw .fault
        | some c => do
          let oidArray ← shiftArc iArc c oidArray
          if !mIsRelative ∧ iArc = 0 then
            let oidArray ← unmunge oidArray
            getArcs mIsRelative oid (i + 1) (iArc + 2) oidArray
          else getArcs mIsRelative oid (i + 1) (iArc + 1) oidArray
  else return oidArray
termination_by oid.length - i
decreasing_by
  all_goals
    have before := le_of_shiftMore _ran
    omega

/-- Get the arcs of an object identifier into an array. -/
def AsnRelativeOid.getOidArray (x : AsnRelativeOid) (oidArray : List UInt64) :
    Except Thrown (List UInt64) :=
  getArcs x.mIsRelative x.oid 0 0 oidArray

/-! ## What is written -/

theorem toUInt8_and_low (n : UInt64) : (n &&& 0x7F).toUInt8 = UInt8.ofNat (n.toNat % 128) := by
  have low : (n &&& 0x7F).toNat = n.toNat % 128 := Nat.and_two_pow_sub_one_eq_mod n.toNat 7
  apply UInt8.toNat_inj.mp
  rw [UInt64.toNat_toUInt8, low, UInt8.toNat_ofNat']

theorem ofNat_or_more {m : Nat} (low : m < 128) :
    UInt8.ofNat m ||| 0x80 = UInt8.ofNat (128 + m) := by
  have each : ∀ m : Fin 128, UInt8.ofNat m ||| 0x80 = UInt8.ofNat (128 + m) := by
    decide
  exact each ⟨m, low⟩

/-- As many octets are counted as the number has. -/
theorem arcLen_eq (tmpNum : UInt64) : arcLen tmpNum = (groupOctets tmpNum.toNat).length := by
  -- The induction is on the octets that are shifted away.
  fun_induction arcLen tmpNum with
  | case1 tmpNum last =>
    have short : tmpNum.toNat / 128 = 0 := by
      rw [← toNat_shiftRight_seven, last]
      rfl
    rw [length_groupOctets, leadOctets_of_lt (by omega)]
    rfl
  | case2 tmpNum more ih =>
    have long : tmpNum.toNat / 128 ≠ 0 := by
      rw [← toNat_shiftRight_seven]
      exact fun zero => more (UInt64.toNat_inj.mp zero)
    rw [ih, toNat_shiftRight_seven, length_groupOctets, length_groupOctets,
      leadOctets_of_le (n := tmpNum.toNat) (by omega), List.length_append]
    rfl

theorem take_set_drop {buf : List UInt8} {k : Nat} (inside : k < buf.length) (octet : UInt8)
    (offset : Nat) (before : offset ≤ k) :
    (buf.set k octet).take offset = buf.take offset ∧
      (buf.set k octet).drop k = octet :: buf.drop (k + 1) := by
  refine ⟨List.take_set_of_le before, ?_⟩
  rw [List.drop_set, if_neg (Nat.lt_irrefl k), Nat.sub_self, List.drop_eq_getElem_cons inside]
  rfl

/-- The octets in front of the last one are written, each with its "more" bit. -/
theorem putArc_lead {offset : Nat} (n : Nat) {arc : UInt64} (shifted : arc.toNat = n / 128)
    {buf : List UInt8} (room : offset + (leadOctets n).length ≤ buf.length) :
    putArc offset (leadOctets n).length arc false buf =
      .ok (buf.take offset ++ leadOctets n ++ buf.drop (offset + (leadOctets n).length)) := by
  induction n using Nat.strong_induction_on generalizing arc buf with
  | h n ih =>
    by_cases short : n < 128
    · rw [leadOctets_of_lt short, List.append_nil, List.length_nil, Nat.add_zero,
        List.take_append_drop]
      rfl
    · have step := leadOctets_of_le (n := n) (by omega)
      have count : (leadOctets n).length = (leadOctets (n / 128)).length + 1 := by
        rw [step, List.length_append, List.length_singleton]
      rw [count] at room ⊢
      have inside : offset + (leadOctets (n / 128)).length < buf.length := room
      have again : (arc >>> 7).toNat = n / 128 / 128 := by rw [toNat_shiftRight_seven, shifted]
      obtain ⟨front, back⟩ := take_set_drop inside ((arc &&& 0x7F).toUInt8 ||| 0x80) offset
        (Nat.le_add_right ..)
      have rest := @ih (n / 128) (by omega) _ again
        (buf.set (offset + (leadOctets (n / 128)).length) ((arc &&& 0x7F).toUInt8 ||| 0x80))
        (by rw [List.length_set]; omega)
      rw [putArc, if_pos inside]
      refine rest.trans ?_
      rw [front, back, toUInt8_and_low, ofNat_or_more (Nat.mod_lt _ (by decide)), shifted, step]
      simp [Nat.add_assoc]

/-- The octets of an arc number are written where they have room, and nowhere else. -/
theorem putArc_spec (offset : Nat) (arc : UInt64) (buf : List UInt8) :
    putArc offset (arcLen arc) arc true buf =
      if offset + (groupOctets arc.toNat).length ≤ buf.length then
        .ok (buf.take offset ++ groupOctets arc.toNat ++
          buf.drop (offset + (groupOctets arc.toNat).length))
      else .error .fault := by
  have count := length_groupOctets arc.toNat
  rw [arcLen_eq, count, putArc]
  by_cases room : offset + (leadOctets arc.toNat).length < buf.length
  · obtain ⟨front, back⟩ := take_set_drop room (arc &&& 0x7F).toUInt8 offset (Nat.le_add_right ..)
    have rest := @putArc_lead offset arc.toNat _ (toNat_shiftRight_seven arc)
      (buf.set (offset + (leadOctets arc.toNat).length) (arc &&& 0x7F).toUInt8)
      (by rw [List.length_set]; omega)
    rw [if_pos room, if_pos (by omega)]
    refine rest.trans ?_
    rw [front, back, toUInt8_and_low, groupOctets]
    simp [Nat.add_assoc]
  · rw [if_neg room, if_neg (by omega)]
    rfl

/-- The octets of arc numbers. -/
def arcOctets (arcs : List UInt64) : List UInt8 :=
  arcs.flatMap fun arc => groupOctets arc.toNat

@[simp] theorem arcOctets_nil : arcOctets [] = [] :=
  rfl

@[simp] theorem arcOctets_cons (arc : UInt64) (arcs : List UInt64) :
    arcOctets (arc :: arcs) = groupOctets arc.toNat ++ arcOctets arcs :=
  rfl

/-- What is made of writing octets at a place of the buffer. -/
def writing (buf : List UInt8) (offset : Nat) (totalLen : UInt32) (octets : List UInt8) :
    Except Thrown (List UInt8 × UInt32) :=
  if offset + octets.length ≤ buf.length then
    .ok (buf.take offset ++ octets ++ buf.drop (offset + octets.length),
      totalLen + .ofNat octets.length)
  else .error .fault

/-- An arc number is written in front of the others. -/
theorem writing_append (buf : List UInt8) (offset : Nat) (totalLen : UInt32)
    (octets rest : List UInt8) :
    (if offset + octets.length ≤ buf.length then
      writing (buf.take offset ++ octets ++ buf.drop (offset + octets.length))
        (offset + octets.length) (totalLen + .ofNat octets.length) rest
    else .error .fault) = writing buf offset totalLen (octets ++ rest) := by
  unfold writing
  by_cases room : offset + octets.length ≤ buf.length
  · have front : (buf.take offset ++ octets).length = offset + octets.length := by
      rw [List.length_append, List.length_take, Nat.min_eq_left (by omega)]
    have size : (buf.take offset ++ octets ++ buf.drop (offset + octets.length)).length =
        buf.length := by
      rw [List.length_append, front, List.length_drop]
      omega
    have total : totalLen + UInt32.ofNat octets.length + UInt32.ofNat rest.length =
        totalLen + UInt32.ofNat (octets.length + rest.length) := by
      rw [UInt32.add_assoc, UInt32.ofNat_add]
    rw [if_pos room, size, List.length_append, Nat.add_assoc, total]
    by_cases more : offset + (octets.length + rest.length) ≤ buf.length
    · have behind : (buf.take offset ++ octets ++ buf.drop (offset + octets.length)).drop
          (offset + (octets.length + rest.length)) =
          buf.drop (offset + (octets.length + rest.length)) := by
        rw [← Nat.add_assoc, ← List.drop_drop, List.drop_left' front, List.drop_drop]
      rw [if_pos more, if_pos more, List.take_left' front, behind, List.append_assoc _ octets rest]
    · rw [if_neg more, if_neg more]
  · rw [if_neg room, List.length_append, if_neg (by omega)]

/-- One arc is written, and the loop goes on behind it. -/
theorem putArcs_next {mIsRelative : Bool} {arcNumArr : List UInt64} {i i' : UInt32}
    {arcNum arc : UInt64} (here : arcNumArr[i.toNat]? = some arcNum) (live : arcNum ≠ NO_ARC)
    (taken : munged mIsRelative arcNumArr i arcNum = .ok (arc, i')) (buf : List UInt8)
    (offset : Nat) (totalLen : UInt32) :
    putArcs mIsRelative arcNumArr i buf offset totalLen =
      if offset + (groupOctets arc.toNat).length ≤ buf.length then
        putArcs mIsRelative arcNumArr (i' + 1) (buf.take offset ++ groupOctets arc.toNat ++
            buf.drop (offset + (groupOctets arc.toNat).length))
          (offset + (groupOctets arc.toNat).length)
          (totalLen + .ofNat (groupOctets arc.toNat).length)
      else .error .fault := by
  have wrote := putArc_spec offset arc buf
  rw [putArcs, here]
  dsimp only
  rw [if_neg live, taken]
  dsimp only
  split
  next e ran =>
    rw [ran] at wrote
    split at wrote
    · cases wrote
    next full =>
      rw [if_neg full]
      change Except.error e = _
      rw [Except.error.inj wrote]
  next buf' ran =>
    rw [ran] at wrote
    split at wrote
    next room =>
      rw [if_pos room, Except.ok.inj wrote, arcLen_eq]
    · cases wrote

/-- The arcs behind the first ones are written up to the number that ends them. -/
theorem putArcs_rest (mIsRelative : Bool) {done rest tail : List UInt64}
    (live : ∀ arc ∈ rest, arc ≠ NO_ARC) (ends : ∀ arc ∈ tail.head?, arc = NO_ARC)
    (few : (done ++ rest).length < 2 ^ 32) {i : UInt32} (place : i.toNat = done.length)
    (later : i ≠ 0 ∨ mIsRelative = true ∨ rest = []) {buf : List UInt8} {offset : Nat}
    (inside : offset ≤ buf.length) (totalLen : UInt32) :
    putArcs mIsRelative (done ++ (rest ++ tail)) i buf offset totalLen =
      writing buf offset totalLen (arcOctets rest) := by
  induction rest generalizing done i buf offset totalLen with
  | nil =>
    have here : (done ++ ([] ++ tail))[i.toNat]? = tail.head? := by
      rw [place, List.nil_append, List.getElem?_append_right (Nat.le_refl _), Nat.sub_self,
        List.head?_eq_getElem?]
    have done : writing buf offset totalLen [] = .ok (buf, totalLen) := by
      simp [writing, inside]
    rw [putArcs, here, arcOctets_nil, done]
    cases last : tail.head? with
    | none => rfl
    | some arc =>
      rw [ends arc last]
      rfl
  | cons arc rest ih =>
    have here : (done ++ (arc :: rest ++ tail))[i.toNat]? = some arc := by
      rw [place, List.getElem?_append_right (Nat.le_refl _), Nat.sub_self]
      rfl
    have size : (done ++ [arc]).length = done.length + 1 := by
      rw [List.length_append, List.length_singleton]
    rw [List.length_append, List.length_cons] at few
    have next : (i + 1).toNat = done.length + 1 := by
      have one : (1 : UInt32).toNat = 1 := rfl
      rw [UInt32.toNat_add, place, one]
      exact Nat.mod_eq_of_lt (by omega)
    have taken : munged mIsRelative (done ++ (arc :: rest ++ tail)) i arc = .ok (arc, i) := by
      rw [munged, if_neg]
      · rfl
      · rintro ⟨start, absolute⟩
        rcases later with other | relative | none
        · exact other start
        · rw [relative] at absolute
          cases absolute
        · cases none
    rw [arcOctets_cons, ← writing_append, putArcs_next here (live arc List.mem_cons_self) taken]
    split
    next room =>
      have again := @ih (done ++ [arc]) (fun a behind => live a (List.mem_cons_of_mem _ behind))
        (by rw [List.length_append, size]; omega) (i + 1) (next.trans size.symm)
        (.inl fun zero => by rw [zero] at next; cases next)
      rw [List.append_assoc] at again
      refine again ?_ _
      simp only [List.length_append, List.length_take, List.length_drop]
      omega
    · rfl

/-! ## The buffer of the arcs -/

/-- The arcs in front of the number that ends them. -/
def liveArcs (arcNumArr : List UInt64) : List UInt64 :=
  arcNumArr.takeWhile fun arc => arc ≠ NO_ARC

/-- The arc numbers that arcs are written as. -/
def arcNumbers (mIsRelative : Bool) (arcs : List UInt64) : List UInt64 :=
  match mIsRelative, arcs with
  | false, first :: second :: rest => (first * 40 + second) :: rest
  | _, arcs => arcs

/-- Arcs that no exception is thrown for: there are some, and an object identifier has two, of which the first is in range. -/
def AcceptsArcs (mIsRelative : Bool) (arcNumArr : List UInt64) : Prop :=
  arcNumArr ≠ [] ∧ (mIsRelative = false → ∀ first ∈ arcNumArr[0]?, first ≠ NO_ARC →
    first ≤ 2 ∧ ∃ second ∈ arcNumArr[1]?, second ≠ NO_ARC)

theorem exists_liveArcs (arcNumArr : List UInt64) : ∃ tail, arcNumArr = liveArcs arcNumArr ++ tail ∧
    (∀ arc ∈ liveArcs arcNumArr, arc ≠ NO_ARC) ∧ ∀ arc ∈ tail.head?, arc = NO_ARC := by
  refine ⟨_, List.takeWhile_append_dropWhile.symm, fun arc inside => ?_, fun arc first => ?_⟩
  · simpa using List.mem_takeWhile_imp inside
  · have stops := List.head?_dropWhile_not (fun arc => decide (arc ≠ NO_ARC)) arcNumArr
    rw [Option.mem_def.mp first] at stops
    simpa using stops

/-- Both arcs that go together are there. -/
theorem AcceptsArcs.munged {mIsRelative : Bool} {arcNumArr : List UInt64}
    (accepted : AcceptsArcs mIsRelative arcNumArr) {i : UInt32} {arcNum : UInt64}
    (here : arcNumArr[i.toNat]? = some arcNum) (live : arcNum ≠ NO_ARC) :
    ∃ arc i', munged mIsRelative arcNumArr i arcNum = .ok (arc, i') := by
  unfold Cxx.munged
  split
  next start =>
    obtain ⟨rfl, absolute⟩ := start
    obtain ⟨small, second, next, apart⟩ := accepted.2 (by simpa using absolute) arcNum here live
    rw [Option.mem_def.mp next]
    dsimp only
    rw [if_neg apart, if_neg (UInt64.not_lt.mpr small)]
    exact ⟨_, _, rfl⟩
  · exact ⟨_, _, rfl⟩

/-- Where the counter of the arcs comes round, writing goes on past the end of the buffer. -/
theorem putArcs_endless {mIsRelative : Bool} {arcNumArr : List UInt64}
    (accepted : AcceptsArcs mIsRelative arcNumArr) (many : 2 ^ 32 ≤ (liveArcs arcNumArr).length)
    (i : UInt32) (buf : List UInt8) (offset : Nat) (totalLen : UInt32) :
    putArcs mIsRelative arcNumArr i buf offset totalLen = .error .fault := by
  -- The induction is on the room that is left.
  induction left : buf.length - offset using Nat.strong_induction_on
    generalizing i buf offset totalLen with
  | h left' ih =>
    obtain ⟨tail, parts, live, -⟩ := exists_liveArcs arcNumArr
    have inside : i.toNat < (liveArcs arcNumArr).length :=
      Nat.lt_of_lt_of_le (UInt32.toNat_lt i) many
    have here : arcNumArr[i.toNat]? = some (liveArcs arcNumArr)[i.toNat] := by
      conv_lhs => rw [parts]
      rw [List.getElem?_append_left inside, List.getElem?_eq_getElem inside]
    have apart := live _ (List.getElem_mem inside)
    obtain ⟨arc, i', taken⟩ := accepted.munged here apart
    have some : 0 < (groupOctets arc.toNat).length := by
      rw [length_groupOctets]
      exact Nat.succ_pos _
    rw [putArcs_next here apart taken]
    split
    next room =>
      refine ih _ ?_ _ _ _ _ rfl
      simp only [List.length_append, List.length_take, List.length_drop]
      omega
    · rfl

/-- Arcs are written from the start of the buffer on. -/
theorem putArcs_spec {mIsRelative : Bool} {arcNumArr : List UInt64}
    (accepted : AcceptsArcs mIsRelative arcNumArr) (few : (liveArcs arcNumArr).length < 2 ^ 32)
    (buf : List UInt8) : putArcs mIsRelative arcNumArr 0 buf 0 0 =
      writing buf 0 0 (arcOctets (arcNumbers mIsRelative (liveArcs arcNumArr))) := by
  obtain ⟨tail, parts, live, ends⟩ := exists_liveArcs arcNumArr
  generalize liveArcs arcNumArr = arcs at parts live few
  subst parts
  have first : mIsRelative = true ∨ arcs = [] → putArcs mIsRelative (arcs ++ tail) 0 buf 0 0 =
      writing buf 0 0 (arcOctets arcs) :=
    fun later => @putArcs_rest mIsRelative [] arcs tail live ends few 0 rfl (.inr later) buf 0
      (Nat.zero_le _) 0
  cases mIsRelative with
  | true => exact first (.inl rfl)
  | false =>
    rcases arcs with _ | ⟨arc, _ | ⟨second, rest⟩⟩
    · exact first (.inr rfl)
    · -- The array ends behind its first arc.
      obtain ⟨-, second, next, apart⟩ := accepted.2 rfl arc rfl (live arc List.mem_cons_self)
      rw [List.getElem?_append_right (Nat.le_refl 1), List.length_singleton, Nat.sub_self,
        ← List.head?_eq_getElem?] at next
      exact absurd (ends second next) apart
    · have apart := live arc List.mem_cons_self
      have apart' := live second (List.mem_cons_of_mem _ List.mem_cons_self)
      obtain ⟨small, -⟩ := accepted.2 rfl arc rfl apart
      have taken : munged false (arc :: second :: rest ++ tail) 0 arc =
          .ok (arc * 40 + second, 1) := by
        rw [munged, if_pos ⟨rfl, rfl⟩]
        change (if second = NO_ARC then _ else _ : Except Thrown (UInt64 × UInt32)) = _
        rw [if_neg apart', if_neg (UInt64.not_lt.mpr small)]
        rfl
      rw [putArcs_next (i := 0) rfl apart taken, arcNumbers, arcOctets_cons, ← writing_append]
      split
      next room =>
        refine @putArcs_rest false [arc, second] rest tail
          (fun a behind => live a (List.mem_cons_of_mem _ (List.mem_cons_of_mem _ behind))) ends few
          2 rfl (.inl (by decide)) _ _ ?_ _
        simp only [List.length_append, List.length_take, List.length_drop]
        omega
      · rfl

/-- An object that is set has the octets of the arc numbers, as many as an `unsigned int` counts. -/
theorem AsnRelativeOid.setArcs_spec {x : AsnRelativeOid} {arcNumArr : List UInt64}
    (accepted : AcceptsArcs x.mIsRelative arcNumArr) {octets : List UInt8}
    (written : octets = arcOctets (arcNumbers x.mIsRelative (liveArcs arcNumArr))) :
    x.setArcs arcNumArr =
      if (liveArcs arcNumArr).length < 2 ^ 32 ∧ octets.length ≤ arcNumArr.length * 5 then
        .ok ⟨x.mIsRelative, octets.take (UInt32.ofNat octets.length).toNat⟩
      else .error .fault := by
  have some : ¬arcNumArr.length < 1 := by
    have positive := List.length_pos_iff.mpr accepted.1
    omega
  rw [setArcs, if_neg some]
  by_cases few : (liveArcs arcNumArr).length < 2 ^ 32
  · rw [putArcs_spec accepted few, ← written, writing, List.length_replicate, Nat.zero_add]
    by_cases room : octets.length ≤ arcNumArr.length * 5
    · have short : (UInt32.ofNat octets.length).toNat ≤ octets.length := by
        rw [UInt32.toNat_ofNat']
        exact Nat.mod_le _ _
      rw [if_pos room, if_pos ⟨few, room⟩]
      change Except.ok (AsnRelativeOid.mk _ (List.take (0 + UInt32.ofNat octets.length).toNat
        (octets ++ _))) = _
      rw [UInt32.zero_add, List.take_append_of_le_length short]
    · rw [if_neg room, if_neg fun both => room both.2]
      rfl
  · rw [putArcs_endless accepted (Nat.le_of_not_lt few), if_neg fun both => few both.1]
    rfl

end Esnacc.Cxx
