import Esnacc.Any.Hash
import Esnacc.Ber.Primitives

/-! ANY DEFINED BY: installing the routines of a type under an identifier, and finding them. -/

namespace Esnacc

open Lib

/-- A pointer to a routine: one of those for unknown types, or one that a caller installs. -/
inductive Routine (ρ : Type) where
  | bEncUnknownAsnAny
  | bDecUnknownAsnAny
  | freeAsnOcts
  | installed (f : ρ)
  deriving DecidableEq

/-- An object identifier that has as many octets as its length says. -/
structure OidOctets extends AsnOid where
  whole : octs.length = octetLen.toNat

/-- What is known of a type: its identifier and the routines that handle its values. -/
structure AnyInfo (ρ : Type) where
  anyId : Int32
  oid : AsnOid
  /-- Absent where nothing is stored. -/
  intId : Option Int32
  size : UInt32
  encode : Option (Routine ρ)
  decode : Option (Routine ρ)
  free : Option (Routine ρ)
  print : Option (Routine ρ)
  deriving DecidableEq

/-- An ANY value: what is known of its type, unless that pointer is null, and the value. -/
structure AsnAny (ρ υ : Type) where
  ai : Option (AnyInfo ρ)
  value : υ

/-- The identifier of every entry made for an unknown type. -/
def kUnknownAnyObjectID : Int32 := -7

variable {ρ υ : Type}

/-- The table of all entries, which is made by the first insertion. -/
abbrev AnyTable (ρ : Type) := Option (Table (AnyInfo ρ))

/-- Insert an entry into the table, made if there is none; a word has four octets to index by. -/
def insertAny (tbl : AnyTable ρ) (a : AnyInfo ρ) (h : Hash) : Except Exit (AnyTable ρ) := do
  let table ← insert 4 (tbl.getD newTable) a h
  return some table

/-- The octets of an integer in memory, the lowest one first. -/
def intOctets (id : Int32) : List UInt8 :=
  let n := id.toUInt32
  [n.toUInt8, (n >>> 8).toUInt8, (n >>> 16).toUInt8, (n >>> 24).toUInt8]

/-- The hash value of an integer is that of its octets in memory. -/
def intHash (id : Int32) : Hash :=
  makeHash (intOctets id) 4

/-- The hash value of an object identifier is that of its encoding. -/
def oidHash (id : OidOctets) : Hash :=
  makeHash id.octs id.octetLen

/-- What a caller installs for a type, apart from the identifier. -/
structure AnyType (ρ : Type) where
  anyId : Int32
  size : UInt32
  encode : Option (Routine ρ)
  decode : Option (Routine ρ)
  free : Option (Routine ρ)
  print : Option (Routine ρ)

/-- The entry for a type under an integer. -/
def AnyType.byInt (type : AnyType ρ) (intId : Int32) : AnyInfo ρ :=
  { anyId := type.anyId, oid := ⟨0, []⟩, intId := some intId, size := type.size,
    encode := type.encode, decode := type.decode, free := type.free, print := type.print }

/-- The entry for a type under an object identifier. -/
def AnyType.byOid (type : AnyType ρ) (oid : OidOctets) : AnyInfo ρ :=
  { anyId := type.anyId, oid := oid.toAsnOcts, intId := none, size := type.size,
    encode := type.encode, decode := type.decode, free := type.free, print := type.print }

/-- Install a type under an integer. -/
def installAnyByInt (anyIntHashTblG : AnyTable ρ) (intId : Int32) (type : AnyType ρ) :
    Except Exit (AnyTable ρ) :=
  insertAny anyIntHashTblG (type.byInt intId) (intHash intId)

/-- Install a type under an object identifier. -/
def installAnyByOid (anyOidHashTblG : AnyTable ρ) (oid : OidOctets) (type : AnyType ρ) :
    Except Exit (AnyTable ρ) :=
  insertAny anyOidHashTblG (type.byOid oid) (oidHash oid)

/-- Set the type of a value by an integer. -/
def setAnyTypeByInt (anyIntHashTblG : AnyTable ρ) (v : AsnAny ρ υ) (id : Int32) :
    Except Exit (AsnAny ρ υ) :=
  match anyIntHashTblG with
  -- The table is read without a test of its pointer.
  | none => throw .fault
  | some table => return { v with ai := checkForAndReturnValue table (intHash id) }

/-- The entry for a type that is not known: its values are kept as octets. -/
def unknownAny (id : AsnOid) : AnyInfo ρ :=
  { anyId := kUnknownAnyObjectID, oid := id, intId := some 0, size := 16,
    encode := some .bEncUnknownAsnAny, decode := some .bDecUnknownAsnAny,
    free := some .freeAsnOcts, print := none }

/-- Set the type of a value by an object identifier. -/
def setAnyTypeByOid (anyOidHashTblG : AnyTable ρ) (v : AsnAny ρ υ) (id : OidOctets) :
    Except Exit (AsnAny ρ υ) :=
  match anyOidHashTblG with
  | none => throw .fault
  | some table =>
    match checkForAndReturnValue table (oidHash id) with
    | some anyInfo => return { v with ai := some anyInfo }
    | none => return { v with ai := some (unknownAny id.toAsnOcts) }

/-! ## Sequences of installations -/

/-- One call that installs a type under an identifier. -/
structure Install (ι ρ : Type) where
  id : ι
  type : AnyType ρ

/-- The table after a sequence of installations by integers. -/
def installedByInt (calls : List (Install Int32 ρ)) : Except Exit (AnyTable ρ) :=
  calls.foldlM (fun tbl call => installAnyByInt tbl call.id call.type) none

/-- The table after a sequence of installations by object identifiers. -/
def installedByOid (calls : List (Install OidOctets ρ)) : Except Exit (AnyTable ρ) :=
  calls.foldlM (fun tbl call => installAnyByOid tbl call.id call.type) none

/-- What a table finds, where there is one. -/
def AnyTable.registry (tbl : AnyTable ρ) : Registry Hash (AnyInfo ρ) :=
  checkForAndReturnValue (tbl.getD newTable)

/-- Installations complete, make a table, and add their entries one after another. -/
theorem installed_spec {ι : Type} (entryOf : Install ι ρ → AnyInfo ρ) (hashOf : ι → Hash)
    (calls : List (Install ι ρ)) (tbl : AnyTable ρ) (filed : (tbl.getD newTable).Filed 3) :
    ∃ tbl', calls.foldlM (fun tbl call => insertAny tbl (entryOf call) (hashOf call.id)) tbl =
        .ok tbl' ∧ (tbl.isSome ∨ calls ≠ [] → tbl'.isSome) ∧
      tbl'.registry = calls.foldl (fun r call => r.add (hashOf call.id) (entryOf call))
        tbl.registry := by
  induction calls generalizing tbl with
  | nil => exact ⟨tbl, rfl, fun made => made.resolve_right (fun some => some rfl), rfl⟩
  | cons call calls ih =>
    have bound : (hashOf call.id).toNat < 2 ^ (8 * (3 + 1)) := UInt32.toNat_lt _
    obtain ⟨table, inserted, added⟩ := insert_spec filed (entryOf call) bound
    obtain ⟨tbl', rest, made, finds⟩ := ih (some table) added.filed
    refine ⟨tbl', ?_, fun _ => made (Or.inl rfl), ?_⟩
    · rw [List.foldlM_cons, insertAny, inserted]
      exact rest
    · have one : AnyTable.registry (some table) =
          tbl.registry.add (hashOf call.id) (entryOf call) := by
        funext h
        exact added.finds h (UInt32.toNat_lt h)
      rw [finds, List.foldl_cons, one]

/-- After installations the first entry installed under a hash value is found. -/
theorem installed_finds {ι : Type} (entryOf : Install ι ρ → AnyInfo ρ) (hashOf : ι → Hash)
    {calls : List (Install ι ρ)} (some_call : calls ≠ []) :
    ∃ table, calls.foldlM (fun tbl call => insertAny tbl (entryOf call) (hashOf call.id)) none =
        .ok (some table) ∧
      ∀ h, checkForAndReturnValue table h =
        (calls.find? fun call => hashOf call.id = h).map entryOf := by
  obtain ⟨tbl, done, made, finds⟩ := installed_spec entryOf hashOf calls none (newTable_filed 3)
  obtain ⟨table, rfl⟩ := Option.isSome_iff_exists.mp (made (Or.inr some_call))
  refine ⟨table, done, fun h => ?_⟩
  have found := congrFun finds h
  rw [Registry.foldl_add (fun call : Install ι ρ => hashOf call.id) entryOf calls] at found
  exact found

/-- No other installed identifier has the hash value of the given one. -/
def Separated {ι ν : Type} (calls : List (Install ι ρ)) (hashOf : ι → Hash) (nameOf : ι → ν)
    (id : ι) : Prop :=
  ∀ call ∈ calls, hashOf call.id = hashOf id → nameOf call.id = nameOf id

/-- Either an entry installed for the name is picked, or the name was never installed. -/
def PicksOwn {ι ν : Type} (calls : List (Install ι ρ)) (entryOf : Install ι ρ → AnyInfo ρ)
    (nameOf : ι → ν) (id : ι) (unknown : Option (AnyInfo ρ)) (ai : Option (AnyInfo ρ)) : Prop :=
  (∃ call ∈ calls, nameOf call.id = nameOf id ∧ ai = some (entryOf call)) ∨
    (∀ call ∈ calls, nameOf call.id ≠ nameOf id) ∧ ai = unknown

/-- The first entry under the hash value of a separated name is one of the name's own. -/
theorem picksOwn_of_separated {ι ν : Type} {calls : List (Install ι ρ)}
    {entryOf : Install ι ρ → AnyInfo ρ} {hashOf : ι → Hash} {nameOf : ι → ν} {id : ι}
    {unknown : Option (AnyInfo ρ)} (hashed : ∀ i j, nameOf i = nameOf j → hashOf i = hashOf j)
    (separated : Separated calls hashOf nameOf id) :
    PicksOwn calls entryOf nameOf id unknown
      (((calls.find? fun call => hashOf call.id = hashOf id).map entryOf).or unknown) := by
  have same : ∀ call ∈ calls, nameOf call.id = nameOf id → hashOf call.id = hashOf id :=
    fun call _ => hashed call.id id
  rcases Registry.find_separated same separated with ⟨call, member, named, found⟩ | ⟨none, found⟩
  · left
    exact ⟨call, member, named, by rw [found]; rfl⟩
  · right
    exact ⟨none, by rw [found]; rfl⟩

theorem oidHash_congr (i j : OidOctets) (same : i.octs = j.octs) : oidHash i = oidHash j := by
  have length : i.octetLen = j.octetLen := by
    rw [← UInt64.toNat_inj, ← i.whole, ← j.whole, same]
  rw [oidHash, oidHash, same, length]

/--
After any installations the type of a value is set to the first entry under the hash value of its
identifier, which is an entry of the identifier itself where the hash values do not collide.
-/
theorem setAnyType_first_of_hash (v : AsnAny ρ υ) :
    (∀ (calls : List (Install OidOctets ρ)) (id : OidOctets), calls ≠ [] →
      ∃ tbl v', installedByOid calls = .ok tbl ∧ setAnyTypeByOid tbl v id = .ok v' ∧
        v'.ai = ((calls.find? fun call => oidHash call.id = oidHash id).map fun call =>
          call.type.byOid call.id).or (some (unknownAny id.toAsnOcts)) ∧
        (Separated calls oidHash (·.octs) id →
          PicksOwn calls (fun call => call.type.byOid call.id) (·.octs) id
            (some (unknownAny id.toAsnOcts)) v'.ai)) ∧
    ∀ (calls : List (Install Int32 ρ)) (id : Int32), calls ≠ [] →
      ∃ tbl v', installedByInt calls = .ok tbl ∧ setAnyTypeByInt tbl v id = .ok v' ∧
        v'.ai = ((calls.find? fun call => intHash call.id = intHash id).map fun call =>
          call.type.byInt call.id).or none ∧
        (Separated calls intHash (fun i => i) id →
          PicksOwn calls (fun call => call.type.byInt call.id) (fun i => i) id none v'.ai) := by
  constructor
  · intro calls id some_call
    obtain ⟨table, done, finds⟩ := installed_finds
      (fun call : Install OidOctets ρ => call.type.byOid call.id) oidHash some_call
    -- An identifier that is not found gets an entry of its own.
    let unknown : Option (AnyInfo ρ) := some (unknownAny id.toAsnOcts)
    have set : setAnyTypeByOid (some table) v id =
        .ok { v with ai := (checkForAndReturnValue table (oidHash id)).or unknown } := by
      rw [setAnyTypeByOid]
      cases checkForAndReturnValue table (oidHash id) <;> rfl
    refine ⟨some table, _, done, set, congrArg (Option.or · unknown) (finds _), ?_⟩
    intro separated
    simp only [finds]
    exact picksOwn_of_separated oidHash_congr separated
  · intro calls id some_call
    obtain ⟨table, done, finds⟩ := installed_finds
      (fun call : Install Int32 ρ => call.type.byInt call.id) intHash some_call
    refine ⟨some table, _, done, rfl, ?_, fun separated => ?_⟩
    · simp only [finds, Option.or_none]
    · simp only [finds]
      have own : PicksOwn calls (fun call => call.type.byInt call.id) (fun i => i) id none
          (((calls.find? fun call => intHash call.id = intHash id).map fun call =>
            call.type.byInt call.id).or none) :=
        picksOwn_of_separated (fun _ _ same => congrArg intHash same) separated
      rwa [Option.or_none] at own

/-- An object identifier of few octets. -/
def oidOf (octs : List UInt8) (few : octs.length < UInt64.size) : OidOctets :=
  { octetLen := UInt64.ofNat octs.length, octs, whole := (UInt64.toNat_ofNat_of_lt few).symm }

/-- A type whose values one installed routine decodes. -/
def decodedBy (f : Nat) : AnyType Nat :=
  { anyId := 0, size := 8, encode := none, decode := some (.installed f), free := none,
    print := none }

theorem setAnyType_first_of_hash_two_installed :
    (∃ tbl v', installedByOid [⟨oidOf [42] (by decide), decodedBy 1⟩,
        ⟨oidOf [43] (by decide), decodedBy 2⟩] = .ok tbl ∧
      setAnyTypeByOid tbl ⟨none, ()⟩ (oidOf [43] (by decide)) = .ok v' ∧
      PicksOwn [⟨oidOf [42] (by decide), decodedBy 1⟩, ⟨oidOf [43] (by decide), decodedBy 2⟩]
        (fun call => call.type.byOid call.id) (·.octs) (oidOf [43] (by decide))
        (some (unknownAny ⟨1, [43]⟩)) v'.ai) ∧
    ∃ tbl v', installedByInt [⟨7, decodedBy 1⟩] = .ok tbl ∧
      setAnyTypeByInt tbl ⟨none, ()⟩ 8 = .ok v' ∧
      PicksOwn [⟨7, decodedBy 1⟩] (fun call => call.type.byInt call.id) (fun i => i) 8 none
        v'.ai := by
  obtain ⟨byOid, byInt⟩ := setAnyType_first_of_hash (⟨none, ()⟩ : AsnAny Nat Unit)
  obtain ⟨tbl, v', done, set, -, own⟩ := byOid [⟨oidOf [42] (by decide), decodedBy 1⟩,
    ⟨oidOf [43] (by decide), decodedBy 2⟩] (oidOf [43] (by decide)) (by decide)
  obtain ⟨tbl', w', done', set', -, own'⟩ := byInt [⟨7, decodedBy 1⟩] 8 (by decide)
  refine ⟨⟨tbl, v', done, set, own ?_⟩, tbl', w', done', set', own' ?_⟩
  · intro call member hashed
    rcases List.mem_pair.mp member with rfl | rfl
    · exact absurd hashed (by decide)
    · rfl
  · intro call member hashed
    rw [List.mem_singleton.mp member] at hashed
    exact absurd hashed (by decide)

/-- Identifiers that differ in a leading zero octet share their hash value and their entry. -/
theorem leading_zero_picks_another :
    ¬ ∀ (calls : List (Install OidOctets Nat)) (id : OidOctets) (v v' : AsnAny Nat Unit)
      (tbl : AnyTable Nat), installedByOid calls = .ok tbl → setAnyTypeByOid tbl v id = .ok v' →
      PicksOwn calls (fun call => call.type.byOid call.id) (·.octs) id
        (some (unknownAny id.toAsnOcts)) v'.ai := by
  intro own
  have picked := own [⟨oidOf [42] (by decide), decodedBy 1⟩] (oidOf [0, 42] (by decide))
    ⟨none, ()⟩ _ _ rfl rfl
  rcases picked with ⟨call, member, named, -⟩ | ⟨-, unknown⟩
  · rw [List.mem_singleton.mp member] at named
    exact absurd named (by decide)
  · revert unknown
    decide

end Esnacc
