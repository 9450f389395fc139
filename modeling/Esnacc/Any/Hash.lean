import Esnacc.Ber.Decoding
import Esnacc.Lib.Registry

/-! The hash tables: hashing octets to a word, and the tree of tables indexed by its octets. -/

namespace Esnacc

open Lib

/-- A hash value. -/
abbrev Hash := UInt32

/-- One step of the polynomial: an octet is read as a signed `char`. -/
def hashc (n : Hash) (c : UInt8) : Hash :=
  c.toInt8.toInt32.toUInt32 + 65587 * n

/--
The turns of the unrolled loop over the octets.

The first turn takes `first` octets and every later one eight.
-/
def hashTurns : Nat → Nat → List UInt8 → Hash → Hash
  | 0, first, str, n => (str.take first).foldl hashc n
  | turns + 1, first, str, n => hashTurns turns 8 (str.drop first) ((str.take first).foldl hashc n)

/-- Hash the first `len` octets. -/
def makeHash (str : List UInt8) (len : UInt64) : Hash :=
  if len > 0 then
    let loop := intOf ((len + 8 - 1) >>> 3)
    -- The switch enters the body where as many steps are left as the last block lacks.
    let entry := if len &&& (8 - 1) == 0 then 8 else (len &&& (8 - 1)).toNat
    hashTurns (loop - 1).toUInt32.toNat entry str 0
  else 0

theorem hashTurns_eq (turns first : Nat) (str : List UInt8) (n : Hash) :
    hashTurns turns first str n = (str.take (first + 8 * turns)).foldl hashc n := by
  induction turns generalizing first str n with
  | zero => rfl
  | succ turns ih =>
    have together : first + 8 * (turns + 1) = first + (8 + 8 * turns) := by omega
    rw [hashTurns, ih, together, List.take_add (i := first), List.foldl_append]

/-- The hash of fewer octets than the loop counter can count is the polynomial of all of them. -/
theorem makeHash_eq_foldl {str : List UInt8} {len : UInt64} (whole : str.length = len.toNat)
    (bound : len.toNat + 7 < 2 ^ 34) : makeHash str len = str.foldl hashc 0 := by
  have mask := Nat.and_two_pow_sub_one_eq_mod len.toNat 3
  have lowBits : (len &&& (8 - 1)).toNat = len.toNat % 8 := by
    rw [UInt64.toNat_and]
    exact mask
  have blocks : ((len + 8 - 1) >>> 3).toNat = (len.toNat + 7) / 8 := by
    have sum : (len + 8 - 1).toNat = len.toNat + 7 := by
      have seven : len + 8 - 1 = len + 7 := by grind
      rw [seven, UInt64.toNat_add]
      change (len.toNat + 7) % 2 ^ 64 = _
      omega
    rw [UInt64.toNat_shiftRight, sum, Nat.shiftRight_eq_div_pow]
    rfl
  rw [makeHash]
  by_cases some_octet : len > 0
  · have positive : 0 < len.toNat := some_octet
    -- The loop counter is the number of blocks, and one turn is always made.
    have turns : (intOf ((len + 8 - 1) >>> 3) - 1).toUInt32.toNat = (len.toNat + 7) / 8 - 1 := by
      have one : (1 : Int32).toUInt32.toNat = 1 := rfl
      have counter : (intOf ((len + 8 - 1) >>> 3)).toUInt32.toNat = (len.toNat + 7) / 8 := by
        rw [intOf, UInt32.toUInt32_toInt32, UInt64.toNat_toUInt32, blocks]
        omega
      rw [Int32.toUInt32_sub, UInt32.toNat_sub, one, counter]
      omega
    rw [if_pos some_octet, hashTurns_eq, turns, List.take_of_length_le]
    rw [whole]
    by_cases aligned : len &&& (8 - 1) = 0
    · have multiple := congrArg UInt64.toNat aligned
      rw [lowBits, UInt64.toNat_zero] at multiple
      rw [if_pos (beq_iff_eq.mpr aligned)]
      omega
    · have rest : len.toNat % 8 ≠ 0 := by
        rw [← lowBits]
        intro zero
        exact aligned (UInt64.toNat_inj.mp zero)
      rw [if_neg (by simpa using aligned), lowBits]
      omega
  · have none : str = [] := by
      rw [← List.length_eq_zero_iff, whole]
      exact Nat.eq_zero_of_not_pos some_octet
    rw [if_neg some_octet, none]
    rfl

/-- Nine octets take two turns, of one octet and of eight. -/
theorem makeHash_eq_foldl_nine :
    makeHash [1, 2, 3, 4, 5, 6, 7, 8, 9] 9 = [1, 2, 3, 4, 5, 6, 7, 8, 9].foldl hashc 0 :=
  makeHash_eq_foldl rfl (by decide)

def INDEXMASK : Hash := 0xFF
def INDEXSHIFT : Hash := 8

/-- The place of a hash value in a table. -/
def indexOf (hash : Hash) : UInt8 :=
  (hash &&& INDEXMASK).toUInt8

variable {α : Type}

/-- What an entry of a table points to. -/
inductive HashSlot (α : Type) where
  /-- Nothing: the pointer is null. -/
  | null
  /-- A slot that holds a value. -/
  | leaf (hash : Hash) (value : α)
  /-- A slot that refers to a further table, and keeps the hash and value it had as a leaf. -/
  | inner (hash : Hash) (value : α) (table : UInt8 → HashSlot α)

/-- A table of as many entries as an octet has values. -/
abbrev Table (α : Type) := UInt8 → HashSlot α

/-- A table without entries. -/
def newTable : Table α := fun _ => .null

/-- Replace a leaf by a table that holds its value and another one. -/
def splitAndInsert (insert : Table α → α → Hash → Except Exit (Table α)) (hash : Hash)
    (value element : α) (hashValue : Hash) : Except Exit (HashSlot α) := do
  let table ← insert newTable value (hash >>> INDEXSHIFT)
  let table ← insert table element (hashValue >>> INDEXSHIFT)
  return .inner hash value table

/-- Insert a value, unless its hash value is there; `levels` bounds the tables passed on the way. -/
def insert : Nat → Table α → α → Hash → Except Exit (Table α)
  | 0, _, _, _ => throw .outOfTurns
  | levels + 1, table, element, hashValue =>
    match table (indexOf hashValue) with
    | .null => return Function.update table (indexOf hashValue) (.leaf hashValue element)
    | .leaf hash value =>
      if hashValue == hash then return table
      else do
        let entry ← splitAndInsert (insert levels) hash value element hashValue
        return Function.update table (indexOf hashValue) entry
    | .inner hash value below =>
      if hashValue == hash then return table
      else do
        let below ← insert levels below element (hashValue >>> INDEXSHIFT)
        return Function.update table (indexOf hashValue) (.inner hash value below)

/-- The value found in a slot. -/
def HashSlot.find : HashSlot α → Hash → Option α
  | .null, _ => none
  | .leaf hash value, hashValue => if hash == hashValue then some value else none
  | .inner _ _ table, hashValue =>
    (table (indexOf (hashValue >>> INDEXSHIFT))).find (hashValue >>> INDEXSHIFT)

/-- The value found in a table. -/
@[grind =] def checkForAndReturnValue (table : Table α) (hash : Hash) : Option α :=
  (table (indexOf hash)).find hash

/-! ## Hash values as sequences of octets -/

theorem toNat_indexOf (hash : Hash) : (indexOf hash).toNat = hash.toNat % 2 ^ 8 := by
  have masked := Nat.and_two_pow_sub_one_eq_mod hash.toNat 8
  have mask : INDEXMASK.toNat = 2 ^ 8 - 1 := rfl
  rw [indexOf, UInt32.toNat_toUInt8, UInt32.toNat_and, mask, masked]
  omega

theorem toNat_shift (hash : Hash) : (hash >>> INDEXSHIFT).toNat = hash.toNat / 2 ^ 8 := by
  have shift : INDEXSHIFT.toNat = 8 := rfl
  rw [UInt32.toNat_shiftRight, shift, Nat.shiftRight_eq_div_pow]

theorem hash_eq_iff {h h' : Hash} :
    h = h' ↔ indexOf h = indexOf h' ∧ h >>> INDEXSHIFT = h' >>> INDEXSHIFT := by
  rw [← UInt32.toNat_inj, ← UInt8.toNat_inj, ← UInt32.toNat_inj, toNat_indexOf, toNat_indexOf,
    toNat_shift, toNat_shift]
  omega

theorem shift_lt {hash : Hash} {level : Nat} (bound : hash.toNat < 2 ^ (8 * (level + 1 + 1))) :
    (hash >>> INDEXSHIFT).toNat < 2 ^ (8 * (level + 1)) := by
  rw [toNat_shift]
  apply Nat.div_lt_of_lt_mul
  rwa [← Nat.pow_add, Nat.add_comm 8, ← Nat.mul_succ]

/-! ## Tables as registries -/

/--
The hash values in and below a slot lead to it.

A table at level 0 is indexed by the last octet there is, so no table lies below it.
-/
inductive HashSlot.Filed : Nat → UInt8 → HashSlot α → Prop
  | null {level : Nat} {index : UInt8} : Filed level index .null
  | leaf {level : Nat} {index : UInt8} {hash : Hash} {value : α} (here : indexOf hash = index)
      (bound : hash.toNat < 2 ^ (8 * (level + 1))) : Filed level index (.leaf hash value)
  | inner {level : Nat} {index : UInt8} {hash : Hash} {value : α} {table : Table α}
      (here : indexOf hash = index) (bound : hash.toNat < 2 ^ (8 * (level + 1 + 1)))
      (below : ∀ i, Filed level i (table i))
      (kept : (checkForAndReturnValue table (hash >>> INDEXSHIFT)).isSome) :
      Filed (level + 1) index (.inner hash value table)

/-- Every slot of a table is where its hash values lead. -/
def Table.Filed (table : Table α) (level : Nat) : Prop :=
  ∀ index, (table index).Filed level index

theorem newTable_filed (level : Nat) : (newTable : Table α).Filed level := fun _ => .null

theorem Table.Filed.update {table : Table α} {level : Nat} (filed : table.Filed level)
    {index : UInt8} {slot : HashSlot α} (here : slot.Filed level index) :
    Table.Filed (Function.update table index slot) level := by
  intro i
  by_cases same : i = index
  · subst same
    rw [Function.update_self]
    exact here
  · rw [Function.update_of_ne same]
    exact filed i

/-- A table that finds one value more, or the same as before where one was found already. -/
structure Inserted (table : Table α) (level : Nat) (element : α) (hashValue : Hash)
    (table' : Table α) : Prop where
  filed : table'.Filed level
  finds : ∀ h : Hash, h.toNat < 2 ^ (8 * (level + 1)) →
    checkForAndReturnValue table' h =
      Registry.add (checkForAndReturnValue table) hashValue element h

section

variable {level : Nat} {table : Table α} {element : α} {hashValue : Hash}

/-- An entry is replaced by one that finds one value more. -/
theorem Inserted.of_slot (filed : table.Filed level) {slot : HashSlot α}
    (here : slot.Filed level (indexOf hashValue))
    (finds : ∀ h : Hash, h.toNat < 2 ^ (8 * (level + 1)) → indexOf h = indexOf hashValue →
      slot.find h = Registry.add (checkForAndReturnValue table) hashValue element h) :
    Inserted table level element hashValue
      (Function.update table (indexOf hashValue) slot) := by
  refine ⟨filed.update here, fun h bound => ?_⟩
  rw [checkForAndReturnValue]
  by_cases same : indexOf h = indexOf hashValue
  · rw [same, Function.update_self]
    exact finds h bound same
  · -- A hash value with another index finds the entry it found before.
    rw [Function.update_of_ne same, Registry.add_of_ne]
    · rfl
    · rintro rfl
      exact same rfl

theorem Inserted.of_found (filed : table.Filed level)
    (found : (checkForAndReturnValue table hashValue).isSome) :
    Inserted table level element hashValue table := by
  refine ⟨filed, fun h _ => ?_⟩
  rw [Registry.add_of_isSome element found]

/-- An entry that refers to a table finds one value more where the table does. -/
theorem Inserted.of_below {below below' : Table α} {hash : Hash} {value : α}
    (filed : table.Filed (level + 1)) (here : indexOf hash = indexOf hashValue)
    (inserted : Inserted below level element (hashValue >>> INDEXSHIFT) below')
    (bound : hashValue.toNat < 2 ^ (8 * (level + 1 + 1)))
    (kept : (checkForAndReturnValue below (hash >>> INDEXSHIFT)).isSome)
    (stands : ∀ h : Hash, h.toNat < 2 ^ (8 * (level + 1 + 1)) → indexOf h = indexOf hashValue →
      checkForAndReturnValue table h = checkForAndReturnValue below (h >>> INDEXSHIFT))
    (hashBound : hash.toNat < 2 ^ (8 * (level + 1 + 1))) :
    Inserted table (level + 1) element hashValue
      (Function.update table (indexOf hashValue) (.inner hash value below')) := by
  refine Inserted.of_slot filed (.inner here hashBound inserted.filed ?_) fun h hBound same => ?_
  · rw [inserted.finds _ (shift_lt hashBound)]
    exact Registry.isSome_add _ _ kept
  · -- Hash values with one index differ in what is left of them for the table below.
    change checkForAndReturnValue below' (h >>> INDEXSHIFT) = _
    rw [inserted.finds _ (shift_lt hBound)]
    refine (Registry.add_comp (f := (· >>> INDEXSHIFT)) (stands h hBound same)
      (stands hashValue bound rfl) fun shifted => ?_).symm
    exact hash_eq_iff.mpr ⟨same, shifted⟩

end

/-- A value is put in a free place. -/
theorem insert_free {level : Nat} {table : Table α} {hashValue : Hash} (element : α)
    (filed : table.Filed level) (bound : hashValue.toNat < 2 ^ (8 * (level + 1)))
    (free : table (indexOf hashValue) = .null) :
    ∃ table', insert (level + 1) table element hashValue = .ok table' ∧
      Inserted table level element hashValue table' := by
  refine ⟨_, by rw [insert, free]; rfl, Inserted.of_slot filed (.leaf rfl bound) ?_⟩
  intro h _ same
  have nothing : checkForAndReturnValue table h = none := by
    rw [checkForAndReturnValue, same, free]
    rfl
  rw [HashSlot.find]
  by_cases equal : hashValue = h
  · subst equal
    rw [Registry.add_self, nothing]
    simp
  · rw [Registry.add_of_ne _ (Ne.symm equal), nothing]
    simp [equal]

/-- A hash value that a slot holds itself is found, so nothing is inserted. -/
theorem insert_held {level : Nat} {table : Table α} {hashValue : Hash} {value : α} (element : α)
    (filed : table.Filed level)
    (held : table (indexOf hashValue) = .leaf hashValue value ∨
      ∃ below, table (indexOf hashValue) = .inner hashValue value below) :
    ∃ table', insert (level + 1) table element hashValue = .ok table' ∧
      Inserted table level element hashValue table' := by
  have slot := filed (indexOf hashValue)
  refine ⟨table, ?_, Inserted.of_found filed ?_⟩
  · rcases held with leaf | ⟨below, inner⟩
    · simp only [insert, leaf, beq_self_eq_true, if_true]
      rfl
    · simp only [insert, inner, beq_self_eq_true, if_true]
      rfl
  · rw [checkForAndReturnValue]
    rcases held with leaf | ⟨below, inner⟩
    · simp [leaf, HashSlot.find]
    · rw [inner] at slot ⊢
      -- What a slot held as a leaf is in the table below it.
      cases slot with
      | inner _ _ _ kept => exact kept

/-- The table that replaces a leaf finds its value first. -/
theorem insert_into_newTable {level : Nat} (value : α) {hash : Hash}
    (bound : hash.toNat < 2 ^ (8 * (level + 1))) :
    ∃ table, insert (level + 1) newTable value hash = .ok table ∧ table.Filed level ∧
      ∀ h, checkForAndReturnValue table h = if hash == h then some value else none := by
  refine ⟨_, rfl, (newTable_filed level).update (.leaf rfl bound), fun h => ?_⟩
  rw [checkForAndReturnValue]
  by_cases same : indexOf h = indexOf hash
  · rw [same, Function.update_self]
    rfl
  · have other : ¬ (hash == h) = true := by
      rw [beq_iff_eq]
      rintro rfl
      exact same rfl
    rw [Function.update_of_ne same, if_neg other]
    rfl

/-- Inserting a value completes, and adds it to what the table finds. -/
theorem insert_spec {level : Nat} {table : Table α} (filed : table.Filed level) (element : α)
    {hashValue : Hash} (bound : hashValue.toNat < 2 ^ (8 * (level + 1))) :
    ∃ table', insert (level + 1) table element hashValue = .ok table' ∧
      Inserted table level element hashValue table' := by
  -- The induction is on the tables below; a split inserts into the next one twice.
  induction level generalizing table element hashValue with
  | zero =>
    have slot := filed (indexOf hashValue)
    cases entry : table (indexOf hashValue) with
    | null => exact insert_free element filed bound entry
    | leaf hash value =>
      rw [entry] at slot
      cases slot with
      | leaf here hashBound =>
        -- Hash values of one octet that share an index are the same.
        have same : hash = hashValue := by
          refine hash_eq_iff.mpr ⟨here, UInt32.toNat_inj.mp ?_⟩
          rw [toNat_shift, toNat_shift]
          omega
        exact insert_held element filed (Or.inl (same ▸ entry))
    | inner hash value below =>
      rw [entry] at slot
      cases slot
  | succ level ih =>
    have slot := filed (indexOf hashValue)
    cases entry : table (indexOf hashValue) with
    | null => exact insert_free element filed bound entry
    | leaf hash value =>
      rw [entry] at slot
      by_cases same : hashValue = hash
      · subst same
        exact insert_held element filed (Or.inl entry)
      cases slot with
      | leaf here hashBound =>
        obtain ⟨one, first, oneFiled, oneFinds⟩ := insert_into_newTable value (shift_lt hashBound)
        obtain ⟨two, second, inserted⟩ := ih oneFiled element (shift_lt bound)
        refine ⟨Function.update table (indexOf hashValue) (.inner hash value two), ?_,
          Inserted.of_below filed here inserted bound (by simp [oneFinds]) ?_ hashBound⟩
        · have split : splitAndInsert (insert (level + 1)) hash value element hashValue =
              .ok (.inner hash value two) := by
            rw [splitAndInsert, first]
            change (insert (level + 1) one element (hashValue >>> INDEXSHIFT) >>= fun table =>
              pure (HashSlot.inner hash value table)) = _
            rw [second]
            rfl
          rw [insert, entry]
          dsimp only
          rw [if_neg (by simpa using same), split]
          rfl
        · intro h _ sameIndex
          have split : hash = h ↔ hash >>> INDEXSHIFT = h >>> INDEXSHIFT := by
            rw [hash_eq_iff, here, sameIndex]
            exact and_iff_right rfl
          rw [checkForAndReturnValue, sameIndex, entry, oneFinds]
          simp only [HashSlot.find, beq_iff_eq, split]
    | inner hash value below =>
      rw [entry] at slot
      by_cases same : hashValue = hash
      · subst same
        exact insert_held element filed (Or.inr ⟨below, entry⟩)
      cases slot with
      | inner here hashBound belowFiled kept =>
        obtain ⟨below', ran, inserted⟩ := ih belowFiled element (shift_lt bound)
        refine ⟨Function.update table (indexOf hashValue) (.inner hash value below'), ?_,
          Inserted.of_below filed here inserted bound kept ?_ hashBound⟩
        · rw [insert, entry]
          dsimp only
          rw [if_neg (by simpa using same), ran]
          rfl
        · intro h _ sameIndex
          rw [checkForAndReturnValue, sameIndex, entry]
          rfl

/-! ## Runs of insertions -/

/-- A call of `Insert`. -/
structure InsertCall (α : Type) where
  element : α
  hashValue : Hash

/-- Insertions complete within four tables, and add their values to what the table finds. -/
theorem inserts_spec (turns : Nat) {table : Table α} (filed : table.Filed (turns + 3))
    (calls : List (InsertCall α)) :
    ∃ table', calls.foldlM (fun t call => insert (turns + 4) t call.element call.hashValue) table =
        .ok table' ∧
      ∀ h, checkForAndReturnValue table' h =
        calls.foldl (fun r call => Registry.add r call.hashValue call.element)
          (checkForAndReturnValue table) h := by
  have bound : ∀ h : Hash, h.toNat < 2 ^ (8 * (turns + 3 + 1)) := by
    intro h
    apply Nat.lt_of_lt_of_le (UInt32.toNat_lt h)
    apply Nat.pow_le_pow_right (by decide)
    omega
  induction calls generalizing table with
  | nil => exact ⟨table, rfl, fun _ => rfl⟩
  | cons call calls ih =>
    obtain ⟨one, ran, inserted⟩ := insert_spec filed call.element (bound call.hashValue)
    obtain ⟨last, rest, finds⟩ := ih inserted.filed
    refine ⟨last, ?_, fun h => ?_⟩
    · rw [List.foldlM_cons, ran]
      exact rest
    · have added : checkForAndReturnValue one =
          Registry.add (checkForAndReturnValue table) call.hashValue call.element := by
        funext h
        exact inserted.finds h (bound h)
      rw [finds, added, List.foldl_cons]

/-- After any insertions a hash value finds the element of the first one that used it, and nothing
where none did. -/
theorem inserts_find_first (turns : Nat) (calls : List (InsertCall α)) :
    ∃ table,
      calls.foldlM (fun t call => insert (turns + 4) t call.element call.hashValue) newTable =
        .ok table ∧
      ∀ h : Hash, ((checkForAndReturnValue table h).isSome ↔ ∃ call ∈ calls, call.hashValue = h) ∧
        checkForAndReturnValue table h =
          (calls.find? fun call => call.hashValue = h).map (·.element) := by
  obtain ⟨table, ran, finds⟩ := inserts_spec turns (newTable_filed _) calls
  have first : ∀ h, checkForAndReturnValue table h =
      (calls.find? fun call => call.hashValue = h).map (·.element) := by
    intro h
    rw [finds, Registry.foldl_add (·.hashValue) (·.element) calls]
    rfl
  refine ⟨table, ran, fun h => ⟨?_, first h⟩⟩
  rw [first, Option.isSome_map, List.find?_isSome]
  simp only [decide_eq_true_eq]

end Esnacc
