import Esnacc.Ber.Progress
import Esnacc.Lib.Places
import Esnacc.Tbl.Decode

/-! When a SET that the table decoder returns is complete. -/

namespace Esnacc

open Lib

variable {β : Type} [GenBuf β]

/-- Every mandatory component is among those decoded, and none was decoded twice. -/
structure SetComplete (elmts : List TBLType) (places : List Nat) : Prop where
  mandatory : ∀ i t, elmts[i]? = some t → t.optional = false → i ∈ places
  once : places.Nodup

/--
The elements that stand in the contents of a SET from a state on, by the places of their components.

A component is told by the next tag, and what it takes is left to its own decoder.
-/
inductive Elements (isMatch : AsnTag → TBLType → Except Exit Bool)
    (decodeType : TBLType → Bool → AsnLen → Dec β (AVal × AsnLen)) (elmts : List TBLType)
    (more : AsnLen → Dec β Bool) :
    DecState β → AsnLen → List Nat → DecState β → AsnLen → Prop
  | nil {s s' : DecState β} {n : AsnLen} (ends : (more n).run s = .ok false s') :
    Elements isMatch decodeType elmts more s n [] s' n
  | cons {s s1 s2 s3 s' : DecState β} {n m k : AsnLen} {asnTag : AsnTag} {i : Nat} {t : TBLType}
    {v : AVal} {places : List Nat} (goesOn : (more n).run s = .ok true s1)
    (peeked : peekTag.run s1 = .ok asnTag s2)
    (found : findElmt (isMatch asnTag) 0 elmts = .ok (some (i, t)))
    (decoded : (decodeType t false n).run s2 = .ok (v, m) s3)
    (later : Elements isMatch decodeType elmts more s3 m places s' k) :
    Elements isMatch decodeType elmts more s n (i :: places) s' k

/-- A component that has to be there. -/
def TBLType.mandatory (t : TBLType) : Bool :=
  !t.optional

/-- How many elements are counted as mandatory, in an `int`. -/
def mandatoryHits (elmts : List TBLType) (places : List Nat) : Int32 :=
  Int32.ofNat (places.countP (holdsAt TBLType.mandatory elmts))

/-- The test of the loop over contents of a length. -/
def moreOf (len : AsnLen) : AsnLen → Dec β Bool :=
  if len = INDEFINITE_LEN then notEoc else withinLen

/-- The input is a SET of elements, as many of them mandatory as its type has, up to its end. -/
def HoldsElements (tbl : TBL) (turns : Nat) (optional : Bool) (tagList : List TBLTag)
    (elmts : List TBLType) (implicit : Bool) (s : DecState β) (places : List Nat) : Prop :=
  ∃ s1 last s2 m s3 k, places.length < turns ∧
    (tblDecodeTagsAndLens (.elmts .SET optional tagList elmts) implicit).run s = .ok () s1 ∧
    lastTL.run s1 = .ok last s1 ∧
    Elements (fun tag => tagsMatch tbl tag turns) (tblDecodeType tbl turns) elmts (moreOf last.len)
      s1 0 places s2 m ∧
    mandatoryHits elmts places = countMandatoryElmts elmts ∧
    (tblPopTagsAndLens (.elmts .SET optional tagList elmts) implicit m).run s2 = .ok k s3

/-! ## The search for a component -/

theorem findElmt_spec {isIt : TBLType → Except Exit Bool} {k i : Nat} {elmts : List TBLType}
    {t : TBLType} (found : findElmt isIt k elmts = .ok (some (i, t))) :
    k ≤ i ∧ elmts[i - k]? = some t := by
  -- The induction is on the list; the place grows with it.
  induction elmts generalizing k with
  | nil => cases found
  | cons first rest ih =>
    rw [findElmt] at found
    cases answer : isIt first with
    | error e =>
      rw [answer] at found
      cases found
    | ok isFirst =>
      rw [answer] at found
      cases isFirst with
      | true =>
        cases found
        simp
      | false =>
        obtain ⟨behind, here⟩ := ih found
        have shifted : i - k = i - (k + 1) + 1 := by omega
        refine ⟨by omega, ?_⟩
        rw [shifted, List.getElem?_cons_succ]
        exact here

theorem findElmt_zero {isIt : TBLType → Except Exit Bool} {i : Nat} {elmts : List TBLType}
    {t : TBLType} (found : findElmt isIt 0 elmts = .ok (some (i, t))) : elmts[i]? = some t :=
  (findElmt_spec found).2

/-! ## One element -/

section

variable {isMatch : AsnTag → TBLType → Except Exit Bool}
  {decodeType : TBLType → Bool → AsnLen → Dec β (AVal × AsnLen)} {elmts : List TBLType}
  {noMatch : Int32} {x y : ASetVal} {n m : AsnLen} {s s' : DecState β}

/-- The count of a SET behind an element at a place. -/
@[grind =] def ASetVal.counted (elmts : List TBLType) (x : ASetVal) (i : Nat) : Int32 :=
  x.mandatoryCount + if holdsAt TBLType.mandatory elmts i then 1 else 0

theorem mandatoryHits_cons (elmts : List TBLType) (i : Nat) (places : List Nat) :
    mandatoryHits elmts (i :: places) =
      mandatoryHits elmts places + if holdsAt TBLType.mandatory elmts i then 1 else 0 := by
  rw [mandatoryHits, List.countP_cons, Int32.ofNat_add, ← mandatoryHits]
  cases holdsAt TBLType.mandatory elmts i <;> rfl

/-- What decoding an element has done: it is stored and counted by its place. -/
theorem decodeSetElmt_eq_ok :
    (decodeSetElmt isMatch decodeType elmts noMatch x n).run s = .ok (y, m) s' ↔
      ∃ asnTag s1 i t v, peekTag.run s = .ok asnTag s1 ∧
        findElmt (isMatch asnTag) 0 elmts = .ok (some (i, t)) ∧
        (decodeType t false n).run s1 = .ok (v, m) s' ∧
        y = ⟨x.stores ++ [(i, v)], x.counted elmts i⟩ := by
  -- A component that was found is mandatory as the one at its place is.
  have count : ∀ {i t}, elmts[i]? = some t →
      (if t.optional then x.mandatoryCount else x.mandatoryCount + 1) = x.counted elmts i := by
    intro i t here
    rw [ASetVal.counted, holdsAt_eq here, TBLType.mandatory]
    cases t.optional <;> simp
  constructor
  · intro ran
    obtain ⟨asnTag, s1, peeked, ran⟩ := run_bind_eq_ok.1 ran
    obtain ⟨answer, s2, lifted, ran⟩ := run_bind_eq_ok.1 ran
    cases found : findElmt (isMatch asnTag) 0 elmts with
    | error e =>
      rw [found] at lifted
      cases lifted
    | ok component =>
      rw [found, ofExcept_ok] at lifted
      obtain ⟨rfl, rfl⟩ := run_pure_eq_ok.1 lifted
      cases answer with
      | none => cases ran
      | some component =>
        obtain ⟨i, t⟩ := component
        obtain ⟨⟨v, k⟩, s3, decoded, ran⟩ := run_bind_eq_ok.1 ran
        obtain ⟨rfl, same⟩ := run_pure_eq_ok.1 ran
        obtain ⟨rfl, rfl⟩ := Prod.mk.inj same
        refine ⟨asnTag, s2, i, t, v, peeked, found, decoded, ?_⟩
        rw [← count (findElmt_zero found)]
  · rintro ⟨asnTag, s1, i, t, v, peeked, found, decoded, rfl⟩
    rw [decodeSetElmt, run_bind_of_ok peeked, found, ofExcept_ok]
    change EStateM.run (decodeType t false n >>= _) s1 = _
    rw [run_bind_of_ok decoded, ← count (findElmt_zero found)]
    rfl

end

/-! ## All elements -/

section

variable {isMatch : AsnTag → TBLType → Except Exit Bool}
  {decodeType : TBLType → Bool → AsnLen → Dec β (AVal × AsnLen)} {elmts : List TBLType}
  {more : AsnLen → Dec β Bool} {noMatch : Int32}

/-- A completed loop has gone through the elements, stored each and counted the mandatory ones. -/
theorem elements_of_decodeSetElmts {turns : Nat} {x y : ASetVal} {n m : AsnLen}
    {s s' : DecState β}
    (ran : (decodeSetElmts isMatch decodeType elmts more noMatch turns x n).run s =
      .ok (y, m) s') :
    ∃ places, places.length < turns ∧ Elements isMatch decodeType elmts more s n places s' m ∧
      y.stores.map Prod.fst = x.stores.map Prod.fst ++ places ∧
      y.mandatoryCount = x.mandatoryCount + mandatoryHits elmts places := by
  -- The induction is on the turns of the loop.
  induction turns generalizing x n s with
  | zero => cases ran
  | succ turns ih =>
    obtain ⟨goesOn, s1, asked, ran⟩ := run_bind_eq_ok.1 ran
    cases goesOn with
    | false =>
      obtain ⟨rfl, same⟩ := run_pure_eq_ok.1 ran
      obtain ⟨rfl, rfl⟩ := Prod.mk.inj same
      exact ⟨[], Nat.succ_pos _, .nil asked, (List.append_nil _).symm, (Int32.add_zero _).symm⟩
    | true =>
      obtain ⟨⟨z, k⟩, s2, element, ran⟩ := run_bind_eq_ok.1 ran
      obtain ⟨asnTag, s3, i, t, v, peeked, found, decoded, rfl⟩ := decodeSetElmt_eq_ok.1 element
      obtain ⟨places, few, later, stores, counted⟩ := ih ran
      refine ⟨i :: places, Nat.succ_lt_succ few, .cons asked peeked found decoded later, ?_, ?_⟩
      · rw [stores, List.map_append, List.append_assoc]
        rfl
      · rw [counted, mandatoryHits_cons, ASetVal.counted, Int32.add_assoc,
          Int32.add_comm (mandatoryHits elmts places)]

/-- Elements are gone through by the loop where it has a turn for each. -/
theorem Elements.loop_completes {n m : AsnLen} {s s' : DecState β} {places : List Nat}
    (elements : Elements isMatch decodeType elmts more s n places s' m) {turns : Nat}
    (few : places.length < turns) (x : ASetVal) (noMatch : Int32) :
    ∃ y, (decodeSetElmts isMatch decodeType elmts more noMatch turns x n).run s =
        .ok (y, m) s' ∧ y.stores.map Prod.fst = x.stores.map Prod.fst ++ places ∧
      y.mandatoryCount = x.mandatoryCount + mandatoryHits elmts places := by
  induction elements generalizing turns x with
  | nil ends =>
    cases turns with
    | zero => cases few
    | succ turns =>
      refine ⟨x, ?_, (List.append_nil _).symm, (Int32.add_zero _).symm⟩
      rw [decodeSetElmts, run_bind_of_ok ends]
      rfl
  | @cons s s1 s2 s3 s' n m k asnTag i t v places goesOn peeked found decoded later ih =>
    cases turns with
    | zero => cases few
    | succ turns =>
      have element : (decodeSetElmt isMatch decodeType elmts noMatch x n).run s1 =
          .ok (⟨x.stores ++ [(i, v)], x.counted elmts i⟩, m) s3 := decodeSetElmt_eq_ok.2
        ⟨asnTag, s2, i, t, v, peeked, found, decoded, rfl⟩
      obtain ⟨y, ran, stores, counted⟩ := ih (Nat.lt_of_succ_lt_succ few)
        ⟨x.stores ++ [(i, v)], x.counted elmts i⟩
      refine ⟨y, ?_, ?_, ?_⟩
      · rw [decodeSetElmts, run_bind_of_ok goesOn, if_pos rfl, run_bind_of_ok element]
        exact ran
      · rw [stores, List.map_append, List.append_assoc]
        rfl
      · rw [counted, mandatoryHits_cons, ASetVal.counted, Int32.add_assoc,
          Int32.add_comm (mandatoryHits elmts places)]

end

/-! ## Whole SETs -/

section

variable {isMatch : AsnTag → TBLType → Except Exit Bool}
  {decodeType : TBLType → Bool → AsnLen → Dec β (AVal × AsnLen)} {elmts : List TBLType}

omit [GenBuf β] in
theorem lastTL_eq_ok {last : TagNLen} {s s' : DecState β} :
    lastTL.run s = .ok last s' ↔ s' = s ∧ s.glob.tlStkG.head? = some last := by
  rw [EStateM.run, lastTL]
  cases s.glob.tlStkG with
  | nil => simp
  | cons entry rest =>
    simp only [EStateM.Result.ok.injEq, List.head?_cons, Option.some.injEq]
    constructor
    · rintro ⟨rfl, rfl⟩
      exact ⟨rfl, rfl⟩
    · rintro ⟨rfl, rfl⟩
      exact ⟨rfl, rfl⟩

/-- What the contents of a SET are decoded from. -/
theorem decodeSet_eq_ok {turns : Nat} {stores : List (Nat × AVal)} {m : AsnLen}
    {s s' : DecState β}
    (ran : (decodeSet isMatch decodeType elmts turns).run s = .ok (stores, m) s') :
    ∃ last places, lastTL.run s = .ok last s ∧ places.length < turns ∧
      Elements isMatch decodeType elmts (moreOf last.len) s 0 places s' m ∧
      stores.map Prod.fst = places ∧ mandatoryHits elmts places = countMandatoryElmts elmts := by
  obtain ⟨last, s1, looked, looped⟩ := run_bind_eq_ok.1 ran
  obtain ⟨same, -⟩ := lastTL_eq_ok.1 looked
  rw [same] at looked looped
  obtain ⟨⟨x, k⟩, s2, looped, ran⟩ := run_bind_eq_ok.1 looped
  -- The two loops differ in their test and in what they throw.
  have loop : ∃ noMatch, (decodeSetElmts isMatch decodeType elmts (moreOf last.len) noMatch turns
      {} 0).run s = .ok (x, k) s2 := by
    by_cases indefinite : last.len = INDEFINITE_LEN
    · rw [if_pos indefinite] at looped
      exact ⟨-1009, by rw [moreOf, if_pos indefinite]; exact looped⟩
    · rw [if_neg indefinite] at looped
      exact ⟨-1007, by rw [moreOf, if_neg indefinite]; exact looped⟩
  obtain ⟨noMatch, loop⟩ := loop
  obtain ⟨places, few, elements, stored, counted⟩ := elements_of_decodeSetElmts loop
  dsimp only at ran
  by_cases missing : x.mandatoryCount ≠ countMandatoryElmts elmts
  · rw [if_pos missing] at ran
    cases ran
  · rw [if_neg missing] at ran
    obtain ⟨rfl, same⟩ := run_pure_eq_ok.1 ran
    obtain ⟨rfl, rfl⟩ := Prod.mk.inj same
    refine ⟨last, places, looked, few, elements, stored, ?_⟩
    rw [← not_not.1 missing, counted]
    exact (Int32.zero_add _).symm

/-- Elements with as many mandatory ones as the type has are decoded as a SET. -/
theorem Elements.set_completes {turns : Nat} {last : TagNLen} {places : List Nat} {m : AsnLen}
    {s s' : DecState β} (looked : lastTL.run s = .ok last s) (few : places.length < turns)
    (elements : Elements isMatch decodeType elmts (moreOf last.len) s 0 places s' m)
    (counted : mandatoryHits elmts places = countMandatoryElmts elmts) :
    ∃ stores, (decodeSet isMatch decodeType elmts turns).run s = .ok (stores, m) s' ∧
      stores.map Prod.fst = places := by
  -- Either loop goes through the elements.
  have loop : ∃ y, ((if last.len = INDEFINITE_LEN then
        decodeSetElmts isMatch decodeType elmts notEoc (-1009) turns {} 0
      else decodeSetElmts isMatch decodeType elmts withinLen (-1007) turns {} 0)).run s =
        .ok (y, m) s' ∧ y.stores.map Prod.fst = places ∧
      y.mandatoryCount = countMandatoryElmts elmts := by
    rw [← counted]
    by_cases indefinite : last.len = INDEFINITE_LEN
    · rw [moreOf, if_pos indefinite] at elements
      obtain ⟨y, ran, stores, count⟩ := elements.loop_completes few {} (-1009)
      exact ⟨y, by rw [if_pos indefinite]; exact ran, stores, count.trans (Int32.zero_add _)⟩
    · rw [moreOf, if_neg indefinite] at elements
      obtain ⟨y, ran, stores, count⟩ := elements.loop_completes few {} (-1007)
      exact ⟨y, by rw [if_neg indefinite]; exact ran, stores, count.trans (Int32.zero_add _)⟩
  obtain ⟨y, ran, stores, count⟩ := loop
  refine ⟨y.stores, ?_, stores⟩
  rw [decodeSet, run_bind_of_ok looked]
  dsimp only
  rw [run_bind_of_ok ran, if_neg (not_not.2 count)]
  rfl

end

/-- As many mandatory components as the type has, none of them twice, are all of them. -/
theorem setComplete_of_hits {elmts : List TBLType} {places : List Nat}
    (few : elmts.length < 2 ^ 31) (once : places.Nodup)
    (counted : mandatoryHits elmts places = countMandatoryElmts elmts) :
    SetComplete elmts places where
  once := once
  mandatory i t here isMandatory := by
    have notMany : places.countP (holdsAt TBLType.mandatory elmts) ≤
        elmts.countP TBLType.mandatory := countP_holdsAt_le once
    have type : elmts.countP TBLType.mandatory ≤ elmts.length := List.countP_le_length
    -- Both counts fit an `int`.
    have same : places.countP (holdsAt TBLType.mandatory elmts) =
        elmts.countP TBLType.mandatory := by
      have number := congrArg Int32.toInt counted
      change (Int32.ofNat _).toInt = (Int32.ofNat (elmts.countP TBLType.mandatory)).toInt at number
      rw [Int32.toInt_ofNat_of_lt (by omega), Int32.toInt_ofNat_of_lt (by omega)] at number
      exact Int.ofNat_inj.1 number
    refine mem_of_countP once (Nat.le_of_eq same.symm) ?_
    rw [holdsAt_eq here, TBLType.mandatory, isMandatory]
    rfl

/-- A NULL with a context-specific tag. -/
def tblNull (code : UInt32) : TBLType :=
  .primType .NULL false [⟨.CONTEXT, code, .PRIM, makeTagId CNTX PRIM code⟩]

/-- The tag of a SET. -/
def tblSetTag : TBLTag :=
  ⟨.UNIVERSAL, 17, .CONS, makeTagId UNIV CONS 17⟩

/-- A SET whose first component is there twice. -/
def twiceState : DecState SBuf :=
  ⟨bufferOf [0x31, 0x04, 0x80, 0x00, 0x80, 0x00], initialGlobals⟩

/-- The places of the components that a run stored. -/
def storedPlaces : EStateM.Result Exit (DecState SBuf) (AVal × AsnLen) → List Nat
  | .ok (.aStructVal stores, _) _ => stores.map Prod.fst
  | _ => []

theorem twice_stored : storedPlaces ((tblDecodeType ⟨[]⟩ 4
    (.elmts .SET false [tblSetTag] [tblNull 0, tblNull 1]) false 0).run twiceState) = [0, 0] := by
  decide

end Esnacc
