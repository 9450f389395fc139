import Esnacc.Ber.Accounting
import Esnacc.Lib.Base128

/-! Object identifiers as lists of arcs: measuring, writing, decoding and printing them. -/

namespace Esnacc

open Lib

/-- A pointer to the first of the linked arcs of an object identifier. -/
inductive OID where
  | null
  /-- A pointer that was never set. -/
  | garbage
  /-- A node of which no field was set. -/
  | fresh
  | node (arcNum : Int64) (next : OID)
  deriving DecidableEq

/-- The list of arcs, properly terminated. -/
def OID.ofArcs : List Int64 → OID
  | [] => .null
  | arcNum :: arcs => .node arcNum (.ofArcs arcs)

/-! ## Writing -/

/-- The loop that counts one octet for each further group of seven bits. -/
def countGroups (tmpArcNum totalLen : UInt64) : UInt64 :=
  if more : tmpArcNum >>> 7 ≠ 0 then countGroups (tmpArcNum >>> 7) (totalLen + 1) else totalLen
termination_by tmpArcNum.toNat
decreasing_by
  rw [UInt64.toNat_shiftRight, Nat.shiftRight_eq_div_pow]
  apply Nat.div_lt_self
  · apply Nat.pos_of_ne_zero
    intro zero
    have nothing : tmpArcNum = 0 := UInt64.toNat_inj.mp zero
    exact more (by rw [nothing]; rfl)
  · decide

/-- The length of the arcs behind the first octets. -/
def arcsLen (totalLen : AsnLen) (oid : List Int64) : AsnLen :=
  oid.foldl (fun totalLen arcNum => countGroups arcNum.toUInt64 (totalLen + 1)) totalLen

/-- The first two arcs in one number. -/
def headArcNum (first second : Int64) : UInt64 :=
  (first * 40 + second).toUInt64

/-- The length of the encoded identifier; a null pointer is read through. -/
def encodedOidLen : List Int64 → Option AsnLen
  | [] => none
  | [_] => some 0
  | first :: second :: rest => some (arcsLen (countGroups (headArcNum first second) 1) rest)

/-- The octets of a number, given what is left of it after a shift. -/
def writeGroups (arcNum : UInt64) (shifted : UInt64 → UInt64) : List UInt8 :=
  let len := countGroups arcNum 0
  -- The more significant octets come first, with the "more" bit set.
  ((List.range (intOf len).toInt.toNat).map fun i =>
    (0x80 ||| shifted ((len - UInt64.ofNat i) * 7)).toUInt8) ++ [(0x7f &&& arcNum).toUInt8]

def writeHead (headArcNum : UInt64) : List UInt8 :=
  writeGroups headArcNum (headArcNum >>> ·)

/-- An arc is a signed number where it is shifted. -/
def writeArc (arcNum : Int64) : List UInt8 :=
  writeGroups arcNum.toUInt64 fun bits => (arcNum >>> bits.toInt64).toUInt64

/-- The octets are written to the start of the allocated ones. -/
@[grind =] def writeOcts (result : AsnOcts) (written : List UInt8) : Option AsnOcts :=
  if written.length ≤ result.octs.length then
    some ⟨UInt64.ofNat written.length, written ++ result.octs.drop written.length⟩
  else none

/-- Fill an allocated identifier; nothing is written for a single arc. -/
def buildEncodedOid : List Int64 → AsnOid → Option AsnOid
  | [], _ => none
  | [_], result => some result
  | first :: second :: rest, result =>
    writeOcts result (writeHead (headArcNum first second) ++ rest.flatMap writeArc)

/-- Octets that fill what is allocated are the written ones. -/
theorem eq_of_writeOcts {len : AsnLen} {octets written : List UInt8}
    (exactly : octets.length = len.toNat)
    (wrote : writeOcts ⟨0, List.replicate len.toNat 0⟩ written =
      some ⟨len, octets ++ (List.replicate len.toNat 0).drop len.toNat⟩) : octets = written := by
  rw [writeOcts] at wrote
  split at wrote
  · rename_i fits
    simp only [Option.some.injEq, AsnOcts.mk.injEq, List.length_replicate] at wrote fits
    obtain ⟨count, same⟩ := wrote
    have bound := UInt64.toNat_lt len
    have value := congrArg UInt64.toNat count
    rw [UInt64.toNat_ofNat'] at value
    have all : len.toNat ≤ written.length := by omega
    rw [List.drop_of_length_le (by rwa [List.length_replicate]),
      List.drop_of_length_le (by rw [List.length_replicate]), List.append_nil,
      List.append_nil] at same
    exact same.symm
  · cases wrote

/-! ## Reading -/

/--
The loop over the octets of an arc, and the octet behind it that is read in any case.

The octets from index `i` on are given, and none where one of them is read that is not there.
-/
def readArc (octetLen : UInt64) : List UInt8 → Nat → UInt32 → Option (UInt32 × Nat × List UInt8)
  | [], _, _ => none
  | oct :: rest, i, arcNum =>
    let arcNum := (arcNum <<< 7) + (oct &&& 0x7f).toUInt32
    if (i : Int) < (intOf octetLen).toInt ∧ oct &&& 0x80 ≠ 0 then
      readArc octetLen rest (i + 1) arcNum
    else some (arcNum, i + 1, rest)

/-- An arc that is read takes an octet at least. -/
theorem length_lt_of_readArc {octetLen : UInt64} {octs rest : List UInt8} {i i' : Nat}
    {arcNum arcNum' : UInt32} (ran : readArc octetLen octs i arcNum = some (arcNum', i', rest)) :
    rest.length < octs.length := by
  induction octs generalizing i arcNum with
  | nil => cases ran
  | cons oct octs ih =>
    rw [readArc] at ran
    split at ran
    · have shorter := ih ran
      rw [List.length_cons]
      omega
    · simp only [Option.some.injEq, Prod.mk.injEq] at ran
      rw [ran.2.2, List.length_cons]
      omega

/-- The loop over the arcs that are left. -/
def readArcs (octetLen : UInt64) (octs : List UInt8) (i : Nat) : Option (List UInt32) :=
  if (i : Int) < (intOf octetLen).toInt then
    match _ran : readArc octetLen octs i 0 with
    | none => none
    | some (arcNum, i', rest) => (readArcs octetLen rest i').map (arcNum :: ·)
  else some []
termination_by octs.length
decreasing_by exact length_lt_of_readArc _ran

/-- The nodes behind the ones set up first; their last pointer is set with the next node only. -/
def OID.linked : List UInt32 → OID
  | [] => .garbage
  | arcs => .ofArcs (arcs.map fun arcNum => arcNum.toInt32.toInt64)

/-- Decode the octets to linked arcs. The numbers are read as `int`s. -/
def unbuildEncodedOid (eoid : AsnOid) : Option OID := do
  let (arcNum, i, rest) ← readArc eoid.octetLen eoid.octs 0 0
  let firstArcNum := arcNum.toInt32 / 40
  let firstArcNum := if firstArcNum > 2 then 2 else firstArcNum
  let secondArcNum := arcNum.toInt32 - firstArcNum * 40
  let arcs ← readArcs eoid.octetLen rest i
  return .node firstArcNum.toInt64 (.node secondArcNum.toInt64 (.linked arcs))

/-- A piece of what is printed. -/
inductive Printed where
  | text (s : String)
  | unsigned (n : Nat)
  deriving DecidableEq

/-- Print the arcs of an identifier. The numbers are read as `unsigned int`s. -/
def printAsnOid (v : AsnOid) : Option (List Printed) := do
  let (arcNum, i, rest) ← readArc v.octetLen v.octs 0 0
  let firstArcNum := (arcNum / 40).toUInt16.toUInt32
  let firstArcNum := if firstArcNum > 2 then 2 else firstArcNum
  let arcs ← readArcs v.octetLen rest i
  return .text "\x7b" :: .unsigned firstArcNum.toNat :: .text " " ::
    .unsigned (arcNum - firstArcNum * 40).toNat ::
    arcs.flatMap (fun arcNum => [.text " ", .unsigned arcNum.toNat]) ++ [.text "\x7d"]

/-- What is to be printed for a list of arcs. -/
def shownArcs (arcs : List Nat) : List Printed :=
  .text "\x7b" :: (arcs.map .unsigned).intersperse (.text " ") ++ [.text "\x7d"]

/-! ## What is written -/

theorem length_leadOctets_le (n : UInt64) : (leadOctets n.toNat).length ≤ 9 := by
  have bound := UInt64.toNat_lt n
  have few := length_groupOctets_le (n := n.toNat) (k := 10) (by decide)
    (Nat.lt_of_lt_of_le bound (by decide))
  rw [length_groupOctets] at few
  omega

theorem toNat_countGroups (n total : UInt64) :
    (countGroups n total).toNat = (total.toNat + (leadOctets n.toNat).length) % 2 ^ 64 := by
  fun_induction countGroups n total with
  | case1 n total more ih =>
    have shifted : (n >>> 7).toNat = n.toNat / 128 := by
      rw [UInt64.toNat_shiftRight, Nat.shiftRight_eq_div_pow]
      rfl
    have long : 128 ≤ n.toNat := by
      by_contra short
      apply more
      apply UInt64.toNat_inj.mp
      rw [shifted, Nat.div_eq_of_lt (by omega)]
      rfl
    have one : (total + 1).toNat = (total.toNat + 1) % 2 ^ 64 := UInt64.toNat_add ..
    rw [ih, one, shifted, leadOctets_of_le long, List.length_append, List.length_singleton]
    omega
  | case2 n total last =>
    have shifted : n.toNat / 128 = 0 := by
      have zero := congrArg UInt64.toNat (not_not.mp last)
      rw [UInt64.toNat_shiftRight, Nat.shiftRight_eq_div_pow] at zero
      exact zero
    have bound := UInt64.toNat_lt total
    rw [leadOctets_of_lt (by omega), List.length_nil]
    omega

theorem toUInt8_or_more (x : UInt64) :
    (0x80 ||| x).toUInt8 = UInt8.ofNat (128 + x.toNat % 128) := by
  have each : ∀ r : Fin 256, 128 ||| r.val = 128 + r.val % 128 := by
    decide +kernel
  have octet : 128 ||| x.toNat % 2 ^ 8 = 128 + x.toNat % 2 ^ 8 % 128 :=
    each ⟨x.toNat % 2 ^ 8, Nat.mod_lt _ (by decide)⟩
  have mask : (0x80 : UInt64).toNat = 128 := rfl
  apply UInt8.toNat_inj.mp
  rw [UInt64.toNat_toUInt8, UInt64.toNat_or, mask, UInt8.toNat_ofNat', Nat.or_mod_two_pow]
  change 128 ||| x.toNat % 2 ^ 8 = _
  omega

theorem writeGroups_eq {arcNum : UInt64} {shifted : UInt64 → UInt64}
    (same : ∀ bits : UInt64, bits.toNat < 64 → shifted bits = arcNum >>> bits) :
    writeGroups arcNum shifted = groupOctets arcNum.toNat := by
  have few := length_leadOctets_le arcNum
  have len : (countGroups arcNum 0).toNat = (leadOctets arcNum.toNat).length := by
    have zero : (0 : UInt64).toNat = 0 := rfl
    rw [toNat_countGroups, zero]
    omega
  rw [writeGroups, groupOctets, toInt_intOf_of_lt (by omega), Int.toNat_natCast, len]
  congr 1
  · rw [leadOctets_eq_map, List.length_map, List.length_range]
    apply List.map_congr_left
    intro i before
    rw [List.mem_range] at before
    have place : ((countGroups arcNum 0 - UInt64.ofNat i) * 7).toNat =
        7 * ((leadOctets arcNum.toNat).length - i) := by
      have index : (UInt64.ofNat i).toNat = i := UInt64.toNat_ofNat_of_lt' (by
        rw [UInt64.size]
        omega)
      have less : (countGroups arcNum 0 - UInt64.ofNat i).toNat =
          (leadOctets arcNum.toNat).length - i := by
        rw [UInt64.toNat_sub_of_le _ _ (by rw [UInt64.le_iff_toNat_le]; omega), len, index]
      rw [UInt64.toNat_mul, less]
      change ((leadOctets arcNum.toNat).length - i) * 7 % 2 ^ 64 = _
      omega
    rw [same _ (by omega), toUInt8_or_more, UInt64.toNat_shiftRight, place,
      Nat.shiftRight_eq_div_pow, Nat.mod_eq_of_lt (a := 7 * _) (by omega), pow_mul]
    rfl
  · have mask := Nat.and_two_pow_sub_one_eq_mod arcNum.toNat 7
    rw [Nat.and_comm] at mask
    have last : ((0x7f : UInt64) &&& arcNum).toUInt8 = UInt8.ofNat (arcNum.toNat % 128) := by
      apply UInt8.toNat_inj.mp
      rw [UInt64.toNat_toUInt8, UInt64.toNat_and, UInt8.toNat_ofNat']
      exact congrArg (· % 256) mask
    rw [last]

theorem writeHead_eq (arcNum : UInt64) : writeHead arcNum = groupOctets arcNum.toNat :=
  writeGroups_eq fun _ _ => rfl

theorem writeArc_eq {arcNum : Int64} (nonneg : 0 ≤ arcNum.toInt) :
    writeArc arcNum = groupOctets arcNum.toInt.toNat := by
  have word : arcNum.toUInt64.toNat = arcNum.toInt.toNat := by
    have value := toNat_toUInt64_of_nonneg nonneg
    omega
  rw [← word]
  exact writeGroups_eq fun _ within => toUInt64_shiftRight nonneg within

/-! ## What is read -/

section

variable {octetLen : UInt64} {octs rest : List UInt8} {i i' : Nat} {acc v : UInt32}

theorem toNat_addGroup (acc : UInt32) (c : UInt8) :
    ((acc <<< 7) + (c &&& 0x7f).toUInt32).toNat = addGroup acc.toNat c % 2 ^ 32 := by
  have mask : (c &&& 0x7f).toNat = c.toNat % 128 := Nat.and_two_pow_sub_one_eq_mod c.toNat 7
  have shifted : (acc <<< 7).toNat = acc.toNat * 128 % 2 ^ 32 := by
    rw [UInt32.toNat_shiftLeft]
    change acc.toNat <<< 7 % 2 ^ 32 = _
    rw [Nat.shiftLeft_eq]
  rw [UInt32.toNat_add, shifted, UInt8.toNat_toUInt32, mask, addGroup]
  omega

theorem foldl_addGroup_mod (acc : Nat) (octets : List UInt8) :
    octets.foldl addGroup (acc % 2 ^ 32) % 2 ^ 32 = octets.foldl addGroup acc % 2 ^ 32 := by
  induction octets generalizing acc with
  | nil => exact Nat.mod_mod ..
  | cons c octets ih =>
    have step : addGroup (acc % 2 ^ 32) c % 2 ^ 32 = addGroup acc c % 2 ^ 32 := by
      rw [addGroup, addGroup]
      omega
    rw [List.foldl_cons, List.foldl_cons, ← ih, step, ih]

theorem and_top_ne_zero {c : UInt8} : c &&& 0x80 ≠ 0 ↔ 128 ≤ c.toNat := by
  have each : ∀ c : Fin 256, UInt8.ofFin c &&& 0x80 ≠ 0 ↔ 128 ≤ c.val := by
    decide +kernel
  exact each c.toFin

/-- What an arc is read from: some octets, up to one behind the length. -/
structure ArcRead (octetLen : UInt64) (octs : List UInt8) (i : Nat) (acc : UInt32)
    (used : List UInt8) (v : UInt32) (i' : Nat) (rest : List UInt8) : Prop where
  some : used ≠ []
  split : octs = used ++ rest
  index : i' = i + used.length
  value : v.toNat = used.foldl addGroup acc.toNat % 2 ^ 32
  within : used.length = 1 ∨ (i' : Int) ≤ (intOf octetLen).toInt + 1

theorem readArc_eq_some (ran : readArc octetLen octs i acc = some (v, i', rest)) :
    ∃ used, ArcRead octetLen octs i acc used v i' rest := by
  induction octs generalizing i acc with
  | nil => cases ran
  | cons oct octs ih =>
    rw [readArc] at ran
    split at ran
    · rename_i more
      obtain ⟨used, read⟩ := ih ran
      refine ⟨oct :: used, List.cons_ne_nil _ _, by rw [read.split, List.cons_append], ?_, ?_, ?_⟩
      · rw [read.index, List.length_cons]
        omega
      · rw [read.value, toNat_addGroup, foldl_addGroup_mod, List.foldl_cons]
      · right
        rcases read.within with one | within
        · rw [read.index, one]
          omega
        · exact within
    · simp only [Option.some.injEq, Prod.mk.injEq] at ran
      obtain ⟨rfl, rfl, rfl⟩ := ran
      exact ⟨[oct], List.cons_ne_nil _ _, rfl, rfl, toNat_addGroup _ _, .inl rfl⟩

variable (octetLen i) in
/-- Octets whose top bit is set are passed one by one, up to one whose top bit is clear. -/
theorem readArc_leads (lead : List UInt8) {last : UInt8} (set : ∀ c ∈ lead, 128 ≤ c.toNat)
    (clear : last.toNat < 128) (rest : List UInt8) (acc : UInt32)
    (covered : (i : Int) + lead.length ≤ (intOf octetLen).toInt) :
    readArc octetLen (lead ++ last :: rest) i acc =
      some (UInt32.ofNat ((lead ++ [last]).foldl addGroup acc.toNat), i + lead.length + 1,
        rest) := by
  induction lead generalizing i acc with
  | nil =>
    have ends : ¬ ((i : Int) < (intOf octetLen).toInt ∧ last &&& 0x80 ≠ 0) := by
      rw [and_top_ne_zero]
      omega
    rw [List.nil_append, readArc, if_neg ends]
    simp only [Option.some.injEq, Prod.mk.injEq, and_true]
    refine ⟨?_, rfl⟩
    apply UInt32.toNat_inj.mp
    rw [toNat_addGroup, UInt32.toNat_ofNat']
    rfl
  | cons c lead ih =>
    rw [List.length_cons] at covered
    have more : (i : Int) < (intOf octetLen).toInt ∧ c &&& 0x80 ≠ 0 :=
      ⟨by omega, and_top_ne_zero.mpr (set c List.mem_cons_self)⟩
    rw [List.cons_append, readArc, if_pos more,
      ih _ (fun c' among => set c' (List.mem_cons_of_mem _ among)) _ (by push_cast; omega)]
    simp only [Option.some.injEq, Prod.mk.injEq, and_true, List.length_cons, List.cons_append,
      List.foldl_cons]
    refine ⟨?_, by omega⟩
    apply UInt32.toNat_inj.mp
    rw [UInt32.toNat_ofNat', UInt32.toNat_ofNat', toNat_addGroup, foldl_addGroup_mod]

variable (octetLen i) in
/-- The octets of a number are read as the number, where the length covers them. -/
theorem readArc_groupOctets (n : Nat) (rest : List UInt8)
    (covered : (i : Int) + (groupOctets n).length ≤ (intOf octetLen).toInt + 1) :
    readArc octetLen (groupOctets n ++ rest) i 0 =
      some (UInt32.ofNat n, i + (groupOctets n).length, rest) := by
  have zero : (0 : UInt32).toNat = 0 := rfl
  have clear : (UInt8.ofNat (n % 128)).toNat < 128 := by
    rw [toNat_lastGroup]
    omega
  rw [length_groupOctets] at covered ⊢
  have read := readArc_leads octetLen i (leadOctets n) (fun c => le_of_mem_leadOctets) clear rest 0
    (by omega)
  rw [← groupOctets, zero, foldl_groupOctets, Nat.zero_mul, Nat.zero_add] at read
  rw [groupOctets, List.append_assoc, List.singleton_append, read]
  rfl

/-- One turn of the loop over the arcs. -/
theorem readArcs_of_some (inside : (i : Int) < (intOf octetLen).toInt)
    (ran : readArc octetLen octs i 0 = some (v, i', rest)) :
    readArcs octetLen octs i = (readArcs octetLen rest i').map (v :: ·) := by
  rw [readArcs, if_pos inside]
  split
  · rename_i failed
    rw [ran] at failed
    cases failed
  · rename_i ran'
    rw [ran] at ran'
    cases ran'
    rfl

/-- How many octets the numbers need. -/
@[grind =] def groupsLength (arcs : List Nat) : Nat :=
  (arcs.map fun n => (groupOctets n).length).sum

variable (octetLen) in
/-- The octets of numbers are read as the numbers, where they are what the length covers. -/
theorem readArcs_flatMap (arcs : List Nat) (i : Nat)
    (covered : (i : Int) + groupsLength arcs = (intOf octetLen).toInt) :
    readArcs octetLen (arcs.flatMap groupOctets) i = some (arcs.map UInt32.ofNat) := by
  induction arcs generalizing i with
  | nil =>
    rw [groupsLength, List.map_nil, List.sum_nil] at covered
    rw [readArcs, if_neg (by omega)]
    rfl
  | cons n arcs ih =>
    have step : groupsLength (n :: arcs) = (groupOctets n).length + groupsLength arcs := by
      rw [groupsLength, List.map_cons, List.sum_cons]
      rfl
    have positive := length_groupOctets n
    rw [step] at covered
    rw [List.flatMap_cons, readArcs_of_some (by omega) (readArc_groupOctets octetLen i n _ (by omega)),
      ih _ (by push_cast; omega)]
    rfl

/-- The numbers that are read need no more octets than there are up to one behind the length. -/
theorem groupsLength_of_readArcs {arcs : List UInt32} (before : (i : Int) ≤ (intOf octetLen).toInt + 1)
    (ran : readArcs octetLen octs i = some arcs) :
    (i : Int) + groupsLength (arcs.map (·.toNat)) ≤ (intOf octetLen).toInt + 1 := by
  fun_induction readArcs octetLen octs i generalizing arcs with
  | case1 => cases ran
  | case2 octs i inside v i' rest read ih =>
    obtain ⟨used, arc⟩ := readArc_eq_some read
    obtain ⟨arcs, more, rfl⟩ := Option.map_eq_some_iff.mp ran
    have least := length_groupOctets_foldl arc.some
    have value : v.toNat ≤ used.foldl addGroup 0 := by
      rw [arc.value]
      exact Nat.mod_le ..
    have fewer := length_groupOctets_mono value
    have index := arc.index
    have within := arc.within
    have rest := ih (by omega) more
    have step : groupsLength ((v :: arcs).map (·.toNat)) =
        (groupOctets v.toNat).length + groupsLength (arcs.map (·.toNat)) := by
      rw [groupsLength, List.map_cons, List.map_cons, List.sum_cons]
      rfl
    rw [step]
    push_cast
    omega
  | case3 octs i outside =>
    simp only [Option.some.injEq] at ran
    rw [← ran]
    exact before

end

/-! ## Round trips -/

/-- Two or more arcs that an object identifier can have. -/
structure OidArcs (first second : Int64) (rest : List Int64) : Prop where
  firstNonneg : 0 ≤ first.toInt
  firstLe : first.toInt ≤ 2
  secondNonneg : 0 ≤ second.toInt
  secondLt : first.toInt ≤ 1 → second.toInt < 40
  joint : 40 * first.toInt + second.toInt < 2 ^ 63
  nonneg : ∀ arc ∈ rest, 0 ≤ arc.toInt

/-- The octets of an identifier, as they are measured, written, decoded and printed. -/
structure OidCoded (oid : List Int64) (len : AsnLen) (written : List UInt8) : Prop where
  measured : encodedOidLen oid = some len
  exactly : written.length = len.toNat
  built : ∀ result : AsnOid, len.toNat ≤ result.octs.length →
    buildEncodedOid oid result = some ⟨len, written ++ result.octs.drop len.toNat⟩
  decoded : unbuildEncodedOid ⟨len, written⟩ = some (.ofArcs oid)
  printed : printAsnOid ⟨len, written⟩ = some (shownArcs (oid.map (·.toInt.toNat)))

/-- An identifier comes back as it was. -/
def OidRoundTrips (oid : List Int64) : Prop :=
  ∃ len written, OidCoded oid len written

/-- How many octets the arcs need, the first two of them in one number. -/
def oidLength (first second : Int64) (rest : List Int64) : Nat :=
  groupsLength ((40 * first.toInt + second.toInt).toNat :: rest.map (·.toInt.toNat))

theorem oidLength_eq (first second : Int64) (rest : List Int64) :
    oidLength first second rest =
      (groupOctets (40 * first.toInt + second.toInt).toNat).length +
        groupsLength (rest.map (·.toInt.toNat)) := by
  rw [oidLength, groupsLength, List.map_cons, List.sum_cons]
  rfl

/-- What the routines for identifiers can deal with. -/
structure OidHandled (first second : Int64) (rest : List Int64) : Prop where
  /-- The pointer behind the second arc is set for a third one only. -/
  third : rest ≠ []
  /-- Numbers are decoded as `int`s. -/
  head : 40 * first.toInt + second.toInt < 2 ^ 31
  arcs : ∀ arc ∈ rest, arc.toInt < 2 ^ 31
  /-- Octets are counted by an `int`. -/
  length : oidLength first second rest < 2 ^ 31
  /-- The first arc is printed from an `unsigned short`. -/
  first : first.toInt = 2 → 2 ≤ (40 * first.toInt + second.toInt) / 40 % 2 ^ 16

section

variable {first second : Int64} {rest : List Int64}

theorem toNat_headArcNum (domain : OidArcs first second rest) :
    ((headArcNum first second).toNat : Int) = 40 * first.toInt + second.toInt := by
  have product : (first * 40).toInt = 40 * first.toInt := by
    have lower := domain.firstNonneg
    have upper := domain.firstLe
    rw [Int64.toInt_mul]
    change (first.toInt * 40).bmod (2 ^ 64) = _
    rw [Int.bmod_eq_of_le (by omega) (by omega)]
    omega
  have sum : (first * 40 + second).toInt = 40 * first.toInt + second.toInt := by
    have lower := domain.firstNonneg
    have nonneg := domain.secondNonneg
    have joint := domain.joint
    rw [Int64.toInt_add, product]
    exact Int.bmod_eq_of_le (by omega) (by omega)
  have nonneg := domain.secondNonneg
  have lower := domain.firstNonneg
  rw [headArcNum, toNat_toUInt64_of_nonneg (by omega), sum]

/-- The octets that are written for an identifier. -/
theorem oid_written (domain : OidArcs first second rest) :
    writeHead (headArcNum first second) ++ rest.flatMap writeArc =
      groupOctets (40 * first.toInt + second.toInt).toNat ++
        (rest.map (·.toInt.toNat)).flatMap groupOctets := by
  have head := toNat_headArcNum domain
  rw [writeHead_eq, List.flatMap_map]
  congr 1
  · congr 1
    omega
  · apply List.flatMap_congr
    intro arc among
    exact writeArc_eq (domain.nonneg arc among)

theorem length_flatMap_groupOctets (arcs : List Nat) :
    (arcs.flatMap groupOctets).length = groupsLength arcs :=
  List.length_flatMap

theorem length_written (domain : OidArcs first second rest) :
    (writeHead (headArcNum first second) ++ rest.flatMap writeArc).length =
      oidLength first second rest := by
  rw [oid_written domain, ← List.flatMap_cons, length_flatMap_groupOctets]
  rfl

theorem OidCoded.eq_written (domain : OidArcs first second rest) {len : AsnLen}
    {written : List UInt8} (coded : OidCoded (first :: second :: rest) len written) :
    written = writeHead (headArcNum first second) ++ rest.flatMap writeArc ∧
      len.toNat = oidLength first second rest := by
  have same := eq_of_writeOcts coded.exactly
    (coded.built ⟨0, List.replicate len.toNat 0⟩ (by rw [List.length_replicate]))
  refine ⟨same, ?_⟩
  rw [← coded.exactly, same, length_written domain]

/-- The arcs that are read at once behind an identifier's octets. -/
theorem oid_read (domain : OidArcs first second rest) (few : oidLength first second rest < 2 ^ 31) :
    let octets := writeHead (headArcNum first second) ++ rest.flatMap writeArc
    let octetLen := UInt64.ofNat octets.length
    ∃ i more, readArc octetLen octets 0 0 =
        some (UInt32.ofNat (40 * first.toInt + second.toInt).toNat, i, more) ∧
      readArcs octetLen more i = some ((rest.map (·.toInt.toNat)).map UInt32.ofNat) := by
  intro octets octetLen
  have split := oidLength_eq first second rest
  have covered : (intOf octetLen).toInt = oidLength first second rest := by
    have value : octetLen.toNat = oidLength first second rest := by
      rw [← length_written domain]
      exact UInt64.toNat_ofNat_of_lt' (by rw [UInt64.size, length_written domain]; omega)
    rw [toInt_intOf_of_lt (by omega), value]
  have head := readArc_groupOctets octetLen 0
    (40 * first.toInt + second.toInt).toNat ((rest.map (·.toInt.toNat)).flatMap groupOctets)
    (by omega)
  refine ⟨_, _, (congrArg (fun o => readArc octetLen o 0 0) (oid_written domain)).trans head, ?_⟩
  exact readArcs_flatMap _ _ _ (by omega)

/-- The first two arcs come out of their number as they went in. -/
theorem firstArcNum_iff {x : Int32} (domain : OidArcs first second rest) :
    let firstArcNum := if x / 40 > 2 then 2 else x / 40
    (firstArcNum.toInt = first.toInt ∧ (x - firstArcNum * 40).toInt = second.toInt) ↔
      x.toInt = 40 * first.toInt + second.toInt := by
  have lower := domain.firstNonneg
  have upper := domain.firstLe
  have nonneg := domain.secondNonneg
  have below := domain.secondLt
  have least := Int32.le_toInt x
  have most := Int32.toInt_lt x
  have forty : (40 : Int32).toInt = 40 := rfl
  have two : (2 : Int32).toInt = 2 := rfl
  -- The quotient is rounded towards zero.
  have rounded : x.toInt.tdiv 40 = if 0 ≤ x.toInt then x.toInt / 40 else -(-x.toInt / 40) := by
    split
    · exact Int.tdiv_eq_ediv_of_nonneg ‹_›
    · rw [← Int.neg_neg x.toInt, Int.neg_tdiv, Int.tdiv_eq_ediv_of_nonneg (by omega), Int.neg_neg]
  have quotient : (x / 40).toInt = x.toInt.tdiv 40 := by
    rw [Int32.toInt_div, forty]
    change (x.toInt.tdiv 40).bmod (2 ^ 32) = _
    apply Int.bmod_eq_of_le <;> rw [rounded] <;> split <;> omega
  have rest : ∀ f : Int32, -53687092 < f.toInt → f.toInt < 53687092 →
      -2 ^ 31 ≤ x.toInt - f.toInt * 40 → x.toInt - f.toInt * 40 < 2 ^ 31 →
      (x - f * 40).toInt = x.toInt - f.toInt * 40 := by
    intro f above below least most
    rw [Int32.toInt_sub, Int32.toInt_mul, forty, Int.bmod_eq_of_le (n := f.toInt * 40),
      Int.bmod_eq_of_le] <;> omega
  intro firstArcNum
  by_cases above : x / 40 > 2
  · have value : firstArcNum = 2 := if_pos above
    rw [gt_iff_lt, Int32.lt_iff_toInt_lt, quotient, two, rounded] at above
    rw [value, rest 2 (by rw [two]; omega) (by rw [two]; omega) (by rw [two]; split at above <;> omega)
      (by rw [two]; omega), two]
    split at above <;> omega
  · have value : firstArcNum = x / 40 := if_neg above
    rw [gt_iff_lt, Int32.lt_iff_toInt_lt, quotient, two, rounded] at above
    rw [value, rest (x / 40), quotient, rounded]
    all_goals first | rw [quotient, rounded] | skip
    all_goals split at above <;> omega

theorem toInt_ofNat {n : Nat} (small : n < 2 ^ 31) : (UInt32.ofNat n).toInt32.toInt = n := by
  have value : (UInt32.ofNat n).toNat = n := UInt32.toNat_ofNat_of_lt' (by
    rw [UInt32.size]
    omega)
  have word : (UInt32.ofNat n).toInt32.toInt = ((UInt32.ofNat n).toNat : Int).bmod (2 ^ 32) := by
    exact BitVec.toInt_eq_toNat_bmod _
  rw [word, value]
  exact Int.bmod_eq_of_le (by omega) (by omega)

theorem toNat_of_toInt32_nonneg {v : UInt32} (nonneg : 0 ≤ v.toInt32.toInt) :
    (v.toNat : Int) = v.toInt32.toInt := by
  have word : v.toInt32.toInt = (v.toNat : Int).bmod (2 ^ 32) := BitVec.toInt_eq_toNat_bmod _
  have bound := UInt32.toNat_lt v
  rw [word, Int.bmod_def] at nonneg ⊢
  split at nonneg <;> split <;> omega

/-- Arcs that are linked as numbers without a sign are the numbers read for them. -/
theorem map_toNat_of_linked {arcs : List UInt32} {oid : List Int64}
    (nonneg : ∀ arc ∈ oid, 0 ≤ arc.toInt)
    (linked : arcs.map (fun a => a.toInt32.toInt64) = oid) :
    arcs.map (·.toNat) = oid.map (·.toInt.toNat) := by
  rw [← linked, List.map_map]
  apply List.map_congr_left
  intro a among
  have positive := nonneg a.toInt32.toInt64 (by
    rw [← linked]
    exact List.mem_map_of_mem among)
  rw [Int32.toInt_toInt64] at positive
  have value := toNat_of_toInt32_nonneg positive
  change a.toNat = a.toInt32.toInt64.toInt.toNat
  rw [Int32.toInt_toInt64]
  omega

theorem ofArcs_injective {arcs arcs' : List Int64} (same : OID.ofArcs arcs = .ofArcs arcs') :
    arcs = arcs' := by
  induction arcs generalizing arcs' with
  | nil =>
    cases arcs' with
    | nil => rfl
    | cons => cases same
  | cons arc arcs ih =>
    cases arcs' with
    | nil => cases same
    | cons arc' arcs' =>
      simp only [OID.ofArcs, OID.node.injEq] at same
      rw [same.1, ih same.2]

/-- Arcs below the sign bit of an `int` are what is read for them. -/
theorem map_toInt64_ofNat {arcs : List Int64} (nonneg : ∀ arc ∈ arcs, 0 ≤ arc.toInt)
    (small : ∀ arc ∈ arcs, arc.toInt < 2 ^ 31) :
    (((arcs.map (·.toInt.toNat)).map UInt32.ofNat).map fun a => a.toInt32.toInt64) = arcs := by
  rw [List.map_map, List.map_map]
  conv_rhs => rw [← List.map_id arcs]
  apply List.map_congr_left
  intro arc among
  have lower := nonneg arc among
  have upper := small arc among
  apply Int64.toInt_inj.mp
  change (UInt32.ofNat arc.toInt.toNat).toInt32.toInt64.toInt = arc.toInt
  rw [Int32.toInt_toInt64, toInt_ofNat (by omega)]
  omega

theorem intersperse_unsigned (n : Nat) (arcs : List Nat) :
    ((n :: arcs).map Printed.unsigned).intersperse (.text " ") =
      .unsigned n :: arcs.flatMap fun arc => [.text " ", .unsigned arc] := by
  induction arcs generalizing n with
  | nil => rfl
  | cons arc arcs ih =>
    rw [List.map_cons, List.map_cons, List.intersperse_cons_cons, ← List.map_cons, ih]
    rfl

theorem toNat_arcsLen (total : AsnLen) {arcs : List Int64} (nonneg : ∀ arc ∈ arcs, 0 ≤ arc.toInt) :
    (arcsLen total arcs).toNat =
      (total.toNat + groupsLength (arcs.map (·.toInt.toNat))) % 2 ^ 64 := by
  induction arcs generalizing total with
  | nil =>
    have bound := UInt64.toNat_lt total
    rw [arcsLen, List.foldl_nil, List.map_nil, groupsLength, List.map_nil, List.sum_nil]
    omega
  | cons arc arcs ih =>
    have value := toNat_toUInt64_of_nonneg (nonneg arc List.mem_cons_self)
    have word : arc.toUInt64.toNat = arc.toInt.toNat := by omega
    have one : (total + 1).toNat = (total.toNat + 1) % 2 ^ 64 := UInt64.toNat_add ..
    have rest := ih (countGroups arc.toUInt64 (total + 1))
      fun arc among => nonneg arc (List.mem_cons_of_mem _ among)
    rw [toNat_countGroups, one, word] at rest
    rw [arcsLen, List.foldl_cons, ← arcsLen, rest, groupsLength, groupsLength, List.map_cons,
      List.map_cons, List.sum_cons, length_groupOctets]
    omega

theorem encodedOidLen_eq (domain : OidArcs first second rest) :
    encodedOidLen (first :: second :: rest) =
      some (UInt64.ofNat (oidLength first second rest)) := by
  have head := toNat_headArcNum domain
  have one : (1 : UInt64).toNat = 1 := rfl
  rw [encodedOidLen, Option.some.injEq]
  apply UInt64.toNat_inj.mp
  rw [toNat_arcsLen _ domain.nonneg, toNat_countGroups, one, UInt64.toNat_ofNat', oidLength,
    groupsLength, groupsLength, List.map_cons, List.sum_cons, length_groupOctets, ← head,
    Int.toNat_natCast]
  omega

/-- What is printed of a first arc. -/
theorem printed_first {h : Nat} (small : h < 2 ^ 31)
    (joint : (h : Int) = 40 * first.toInt + second.toInt) (domain : OidArcs first second rest) :
    let arcNum := UInt32.ofNat h
    let firstArcNum := (arcNum / 40).toUInt16.toUInt32
    let firstArcNum := if firstArcNum > 2 then 2 else firstArcNum
    firstArcNum.toNat = min (h / 40 % 2 ^ 16) 2 ∧
      (firstArcNum.toNat = first.toInt → (arcNum - firstArcNum * 40).toNat = second.toInt) := by
  intro arcNum short firstArcNum
  have value : arcNum.toNat = h := UInt32.toNat_ofNat_of_lt' (by
    rw [UInt32.size]
    omega)
  have narrowed : short.toNat = h / 40 % 2 ^ 16 := by
    have quotient : (arcNum / 40).toNat = h / 40 := by
      rw [UInt32.toNat_div, value]
      rfl
    rw [UInt16.toNat_toUInt32, UInt32.toNat_toUInt16, quotient]
  have least : firstArcNum.toNat = min (h / 40 % 2 ^ 16) 2 := by
    have two : (2 : UInt32).toNat = 2 := rfl
    by_cases above : short > 2
    · have picked : firstArcNum = 2 := if_pos above
      rw [gt_iff_lt, UInt32.lt_iff_toNat_lt, narrowed, two] at above
      rw [picked, two]
      omega
    · have picked : firstArcNum = short := if_neg above
      rw [gt_iff_lt, UInt32.lt_iff_toNat_lt, narrowed, two] at above
      rw [picked, narrowed]
      omega
  refine ⟨least, fun same => ?_⟩
  have nonneg := domain.secondNonneg
  have upper := domain.firstLe
  have product : (firstArcNum * 40).toNat = 40 * firstArcNum.toNat := by
    have forty : (40 : UInt32).toNat = 40 := rfl
    rw [UInt32.toNat_mul, forty]
    omega
  rw [UInt32.toNat_sub_of_le _ _ (by rw [UInt32.le_iff_toNat_le]; omega), product, value]
  omega

/-- What is printed for an identifier that is read. -/
theorem printAsnOid_read {octetLen : UInt64} {octs more : List UInt8} {i : Nat} {v : UInt32}
    {arcs : List UInt32} (head : readArc octetLen octs 0 0 = some (v, i, more))
    (tail : readArcs octetLen more i = some arcs) :
    printAsnOid ⟨octetLen, octs⟩ =
      let firstArcNum := (v / 40).toUInt16.toUInt32
      let firstArcNum := if firstArcNum > 2 then 2 else firstArcNum
      some (shownArcs
        (firstArcNum.toNat :: (v - firstArcNum * 40).toNat :: arcs.map (·.toNat))) := by
  have pieces := List.flatMap_map (l := arcs) (fun arcNum : UInt32 => arcNum.toNat)
    (fun n => [Printed.text " ", .unsigned n])
  simp only [printAsnOid, head, tail, Option.bind_eq_bind, Option.bind_some, Option.pure_def,
    shownArcs, intersperse_unsigned, List.flatMap_cons, pieces, List.cons_append,
    List.nil_append]

/-- An identifier that can be dealt with comes back as it was. -/
theorem OidHandled.roundTrips (domain : OidArcs first second rest)
    (handled : OidHandled first second rest) : OidRoundTrips (first :: second :: rest) := by
  obtain ⟨i, more, head, arcs⟩ := oid_read domain handled.length
  have count := length_written domain
  have few := handled.length
  have value : (UInt64.ofNat (oidLength first second rest)).toNat = oidLength first second rest :=
    UInt64.toNat_ofNat_of_lt' (by rw [UInt64.size]; omega)
  rw [count] at head arcs
  refine ⟨_, _, encodedOidLen_eq domain, count.trans value.symm, ?_, ?_, ?_⟩
  · intro result room
    rw [value] at room ⊢
    rw [buildEncodedOid, writeOcts, count, if_pos room]
  · have nonneg := domain.firstNonneg
    have nonneg' := domain.secondNonneg
    have small := handled.head
    obtain ⟨one, two⟩ := (firstArcNum_iff domain).mpr
      ((toInt_ofNat (n := (40 * first.toInt + second.toInt).toNat) (by omega)).trans (by omega))
    obtain ⟨third, further, rest_eq⟩ := List.exists_cons_of_ne_nil handled.third
    have linked : OID.linked ((rest.map (·.toInt.toNat)).map UInt32.ofNat) = .ofArcs rest := by
      conv_rhs => rw [← map_toInt64_ofNat domain.nonneg handled.arcs]
      rw [rest_eq]
      rfl
    simp only [unbuildEncodedOid, head, arcs, Option.bind_eq_bind, Option.bind_some,
      Option.pure_def, Option.some.injEq, OID.ofArcs, OID.node.injEq, linked, and_true]
    constructor
    · apply Int64.toInt_inj.mp
      rw [Int32.toInt_toInt64, one]
    · apply Int64.toInt_inj.mp
      rw [Int32.toInt_toInt64, two]
  · have nonneg := domain.firstNonneg
    have nonneg' := domain.secondNonneg
    have upper := domain.firstLe
    have below := domain.secondLt
    have small := handled.head
    have clipped := handled.first
    obtain ⟨one, two⟩ := printed_first (h := (40 * first.toInt + second.toInt).toNat) (by omega)
      (by omega) domain
    have firstArc : min ((40 * first.toInt + second.toInt).toNat / 40 % 2 ^ 16) 2 =
        first.toInt.toNat := by omega
    have secondArc := two (by omega)
    have others : ((rest.map (·.toInt.toNat)).map UInt32.ofNat).map (·.toNat) =
        rest.map (·.toInt.toNat) := by
      rw [List.map_map, List.map_map]
      apply List.map_congr_left
      intro arc among
      have small := handled.arcs arc among
      exact UInt32.toNat_ofNat_of_lt' (by
        rw [UInt32.size]
        dsimp only
        omega)
    have secondNat := congrArg Int.toNat secondArc
    rw [Int.toNat_natCast] at secondNat
    rw [printAsnOid_read head arcs, others]
    dsimp only
    rw [one, firstArc, List.map_cons, List.map_cons, secondNat]

/-- An identifier that comes back as it was could be dealt with. -/
theorem OidRoundTrips.handled (domain : OidArcs first second rest)
    (back : OidRoundTrips (first :: second :: rest)) : OidHandled first second rest := by
  obtain ⟨len, written, coded⟩ := back
  obtain ⟨rfl, count⟩ := coded.eq_written domain
  have nonneg := domain.firstNonneg
  have nonneg' := domain.secondNonneg
  have upper := domain.firstLe
  -- The arcs are what was decoded.
  have decoded := coded.decoded
  simp only [unbuildEncodedOid, Option.bind_eq_bind, Option.bind_eq_some_iff, Option.pure_def,
    Option.some.injEq, OID.ofArcs, OID.node.injEq, Prod.exists] at decoded
  obtain ⟨v, i, more, head, arcs, tail, firstSame, secondSame, linked⟩ := decoded
  have joint : v.toInt32.toInt = 40 * first.toInt + second.toInt := by
    apply (firstArcNum_iff domain).mp
    rw [← firstSame, ← secondSame, Int32.toInt_toInt64, Int32.toInt_toInt64]
    exact ⟨rfl, rfl⟩
  obtain ⟨third, further, rfl⟩ : ∃ third further, arcs = third :: further := by
    cases arcs with
    | nil => cases rest <;> cases linked
    | cons third further => exact ⟨third, further, rfl⟩
  have others : (third :: further).map (fun a => a.toInt32.toInt64) = rest :=
    ofArcs_injective linked
  have bounded : ∀ arc ∈ rest, arc.toInt < 2 ^ 31 := by
    intro arc among
    rw [← others, List.mem_map] at among
    obtain ⟨a, -, rfl⟩ := among
    rw [Int32.toInt_toInt64]
    exact Int32.toInt_lt _
  have small := Int32.toInt_lt v.toInt32
  have some_arc : rest ≠ [] := by
    rw [← others]
    exact List.cons_ne_nil _ _
  -- Their octets are among those up to one behind the length.
  have length : oidLength first second rest < 2 ^ 31 := by
    have inside : (i : Int) < (intOf len).toInt := by
      by_contra outside
      rw [readArcs, if_neg outside] at tail
      cases tail
    obtain ⟨used, arc⟩ := readArc_eq_some head
    have least := length_groupOctets_foldl arc.some
    have value := toNat_of_toInt32_nonneg (v := v) (by omega)
    have fewer : (groupOctets (40 * first.toInt + second.toInt).toNat).length ≤
        (groupOctets (used.foldl addGroup 0)).length := by
      apply length_groupOctets_mono
      have read := arc.value
      have zero : (0 : UInt32).toNat = 0 := rfl
      rw [zero] at read
      have less := Nat.mod_le (used.foldl addGroup 0) (2 ^ 32)
      omega
    have index := arc.index
    have most := groupsLength_of_readArcs (by omega) tail
    have numbers := map_toNat_of_linked domain.nonneg others
    have split := oidLength_eq first second rest
    -- A length that does not fit an `int` is a smaller one there.
    have narrowed := toInt_intOf len
    have bound := UInt64.toNat_lt len
    rw [Int.bmod_def] at narrowed
    rw [numbers] at most
    split at narrowed <;> omega
  refine ⟨some_arc, by omega, bounded, length, fun two => ?_⟩
  -- The first arc is what was printed for it.
  obtain ⟨j, behind, head', tail'⟩ := oid_read domain length
  have same : UInt64.ofNat (writeHead (headArcNum first second) ++ rest.flatMap writeArc).length =
      len := by
    rw [length_written domain, ← count]
    exact UInt64.ofNat_toNat ..
  rw [same] at head' tail'
  have printed := coded.printed
  obtain ⟨one, -⟩ := printed_first (h := (40 * first.toInt + second.toInt).toNat) (by omega)
    (by omega) domain
  rw [printAsnOid_read head' tail'] at printed
  dsimp only at printed one
  rw [one] at printed
  simp only [shownArcs, List.map_cons, Option.some.injEq, List.intersperse_cons_cons,
    List.cons_append, List.cons.injEq, Printed.unsigned.injEq, true_and] at printed
  omega

/-- An object identifier of two or more arcs is measured, written, decoded and printed as what it is
exactly when there is a third arc, the numbers and the length fit an `int`, and what a first arc of
two is printed from is two at least. -/
theorem oid_roundTrips_iff (domain : OidArcs first second rest) :
    OidRoundTrips (first :: second :: rest) ↔ OidHandled first second rest :=
  ⟨fun back => back.handled domain, fun handled => handled.roundTrips domain⟩

end

theorem oid_roundTrips_iff_three : OidRoundTrips [1, 2, 840] := by
  have domain : OidArcs 1 2 [840] :=
    ⟨by decide, by decide, by decide, by decide, by decide,
      List.forall_mem_singleton.mpr (by decide)⟩
  have length : oidLength 1 2 [840] < 2 ^ 31 := by
    have one := length_groupOctets_le (n := 42) (k := 1) (by decide) (by decide)
    have two := length_groupOctets_le (n := 840) (k := 2) (by decide) (by decide)
    change (groupOctets 42).length + ((groupOctets 840).length + 0) < 2 ^ 31
    omega
  exact (oid_roundTrips_iff domain).mpr
    ⟨List.cons_ne_nil _ _, by decide, List.forall_mem_singleton.mpr (by decide), length,
      fun two => absurd two (by decide)⟩

/-- The pointer behind two arcs is never set. -/
theorem not_oid_roundTrips : ¬ ∀ first second rest, OidArcs first second rest →
    OidRoundTrips (first :: second :: rest) := by
  intro back
  have domain : OidArcs 1 2 [] :=
    ⟨by decide, by decide, by decide, by decide, by decide, nofun⟩
  exact ((back 1 2 [] domain).handled domain).third rfl

end Esnacc
