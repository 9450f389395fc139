import Esnacc.Cxx.OidText

/-! The text, the octets and the arcs of C++ object identifiers: where they are the same. -/

namespace Esnacc.Cxx

open Lib

/-! ## What a text is set to -/

/-- Arcs that an object was set from are accepted. -/
theorem AsnRelativeOid.accepts_of_setArcs {x y : AsnRelativeOid} {arcNumArr : List UInt64}
    (ran : x.setArcs arcNumArr = .ok y) : AcceptsArcs x.mIsRelative arcNumArr := by
  rw [setArcs] at ran
  by_cases none : arcNumArr.length < 1
  · rw [if_pos none] at ran
    cases ran
  · rw [if_neg none] at ran
    refine ⟨List.length_pos_iff.mp (by omega), fun absolute first here live => ?_⟩
    rw [putArcs] at ran
    change arcNumArr[(0 : UInt32).toNat]? = some first at here
    rw [here] at ran
    dsimp only at ran
    rw [if_neg live, munged, if_pos ⟨rfl, by rw [absolute]; rfl⟩] at ran
    cases second : arcNumArr[1]? with
    | none =>
      rw [second] at ran
      cases ran
    | some arc =>
      rw [second] at ran
      dsimp only at ran
      by_cases ends : arc = NO_ARC
      · rw [if_pos ends] at ran
        cases ran
      · rw [if_neg ends] at ran
        by_cases large : 2 < first
        · rw [if_pos large] at ran
          cases ran
        · exact ⟨UInt64.not_lt.mp large, arc, rfl, ends⟩

/-- The arc numbers of a text. -/
@[grind =] def textNumbers (mIsRelative : Bool) (str : List Char) : List UInt64 :=
  arcNumbers mIsRelative ((arcsOf str).map clampArc)

/-- What is known of an object that was set from a text. -/
structure SetFrom (x : OidObject) (mIsRelative : Bool) (str : List Char) : Prop where
  kept : x.mLpszOidString = some str
  relative : x.mIsRelative = mIsRelative
  octets : x.oid = (arcOctets (textNumbers mIsRelative str)).take
    (UInt32.ofNat (arcOctets (textNumbers mIsRelative str)).length).toNat
  some : arcsOf str ≠ []
  first : mIsRelative = false → ∃ arc second rest, arcsOf str = arc :: second :: rest ∧ arc ≤ 2

theorem clampArc_ne_NO_ARC (arc : Nat) : clampArc arc ≠ NO_ARC := by
  intro same
  have word := toNat_clampArc arc
  have last : NO_ARC.toNat = 2 ^ 64 - 1 := rfl
  rw [same, last] at word
  omega

theorem OidObject.setFrom_of_setText {x y : OidObject} {str : List Char}
    (ran : x.setText str = .ok y) : SetFrom y x.mIsRelative str := by
  rw [setText] at ran
  by_cases start : str.head? = some '.'
  · rw [if_pos start] at ran
    cases ran
  rw [if_neg start] at ran
  cases parsed : parseArcs str with
  | error e =>
    rw [parsed] at ran
    cases ran
  | ok arcs =>
    rw [parsed] at ran
    change (if 2 ^ 32 ≤ arcs.length then throw _ else _ : Except Thrown OidObject) = _ at ran
    by_cases many : 2 ^ 32 ≤ arcs.length
    · rw [if_pos many] at ran
      cases ran
    rw [if_neg many] at ran
    cases set : x.setArcs arcs with
    | error e =>
      rw [set] at ran
      cases ran
    | ok z =>
      rw [set] at ran
      cases ran
      have accepted := AsnRelativeOid.accepts_of_setArcs set
      have read := parseArcs_ne_nil parsed accepted.1 start
      have live : liveArcs arcs = arcs := by
        rw [liveArcs, List.takeWhile_eq_self_iff]
        intro arc inside
        rw [read] at inside
        obtain ⟨n, -, rfl⟩ := List.mem_map.mp inside
        exact decide_eq_true (clampArc_ne_NO_ARC n)
      have spec := AsnRelativeOid.setArcs_spec accepted rfl
      rw [set, live] at spec
      split at spec
      next =>
        cases spec
        rw [read] at accepted ⊢
        refine ⟨rfl, rfl, rfl, fun none => accepted.1 (by rw [none]; rfl), fun absolute => ?_⟩
        rcases texts : arcsOf str with _ | ⟨arc, rest⟩
        · rw [texts] at accepted
          exact absurd rfl accepted.1
        · rw [texts] at accepted
          obtain ⟨small, second, next, -⟩ :=
            accepted.2 absolute _ rfl (clampArc_ne_NO_ARC arc)
          cases rest with
          | nil => cases next
          | cons second rest =>
            refine ⟨arc, second, rest, rfl, ?_⟩
            have word := toNat_clampArc arc
            have two : (2 : UInt64).toNat = 2 := rfl
            rw [UInt64.le_iff_toNat_le, word, two] at small
            omega
      · cases spec

/-! ## Four views of the arcs -/

/-- The octets give exactly the arcs, as a text and as an array. -/
def Decodes (x : AsnRelativeOid) (arcs : List Nat) : Prop :=
  createDottedOidStr x = dottedText arcs ∧
    ∃ oidArray, x.getOidArray (List.replicate x.numArcs 0) = .ok oidArray ∧
      oidArray.map UInt64.toNat = arcs

/-- Texts whose arcs are kept: they are `long`s, a second arc can be told from the first, and an `unsigned int` counts the octets. -/
structure KeepsArcs (mIsRelative : Bool) (str : List Char) : Prop where
  long : ∀ arc ∈ arcsOf str, arc < 2 ^ 63
  second : mIsRelative = false → ∀ arc second rest, arcsOf str = arc :: second :: rest →
    arc = 2 ∨ second < 40
  few : (arcOctets (textNumbers mIsRelative str)).length < 2 ^ 32

/-- The arcs that are got back are the arcs of the text where they are kept. -/
theorem gotArcs_textNumbers_iff {mIsRelative : Bool} {str : List Char}
    (first : mIsRelative = false → ∃ arc second rest, arcsOf str = arc :: second :: rest ∧ arc ≤ 2) :
    (gotArcs mIsRelative (textNumbers mIsRelative str)).map UInt64.toNat = arcsOf str ↔
      (∀ arc ∈ arcsOf str, arc < 2 ^ 63) ∧
        (mIsRelative = false → ∀ arc second rest, arcsOf str = arc :: second :: rest →
          arc = 2 ∨ second < 40) := by
  have clamped : ∀ arcs : List Nat, (arcs.map clampArc).map UInt64.toNat = arcs ↔
      ∀ arc ∈ arcs, arc < 2 ^ 63 := by
    intro arcs
    rw [List.map_map]
    conv_lhs => rhs; rw [← List.map_id arcs]
    rw [List.map_inj_left]
    refine forall₂_congr fun arc _ => ?_
    rw [Function.comp_apply, toNat_clampArc]
    change min arc (2 ^ 63 - 1) = arc ↔ arc < 2 ^ 63
    omega
  cases mIsRelative with
  | true =>
    have same : gotArcs true (textNumbers true str) = (arcsOf str).map clampArc := rfl
    rw [same, clamped]
    exact (and_iff_left nofun).symm
  | false =>
    obtain ⟨arc, second, rest, arcs, small⟩ := first rfl
    rw [textNumbers, arcs, List.map_cons, List.map_cons, arcNumbers_false]
    -- The two arcs are taken apart by a division.
    have number : (clampArc arc * 40 + clampArc second).toNat = 40 * arc + min second (2 ^ 63 - 1) := by
      have factor : (40 : UInt64).toNat = 40 := rfl
      rw [UInt64.toNat_add, UInt64.toNat_mul, toNat_clampArc, toNat_clampArc, factor]
      omega
    generalize clampArc arc * 40 + clampArc second = arcNum at number
    have one : (apart arcNum).1.toNat = min 2 (arcNum.toNat / 40) := by
      have two : (2 : UInt64).toNat = 2 := rfl
      have divided : (arcNum / 40).toNat = arcNum.toNat / 40 := UInt64.toNat_div ..
      have less : 2 < arcNum / 40 ↔ 2 < arcNum.toNat / 40 := by
        rw [UInt64.lt_iff_toNat_lt, divided, two]
      by_cases large : 2 < arcNum / 40
      · have above := less.mp large
        rw [apart, if_pos large]
        change (2 : UInt64).toNat = _
        omega
      · have below := mt less.mpr large
        rw [apart, if_neg large]
        change (arcNum / 40).toNat = _
        omega
    have two : (apart arcNum).2.toNat = arcNum.toNat - 40 * min 2 (arcNum.toNat / 40) := by
      change (arcNum - (apart arcNum).1 * 40).toNat = _
      have factor : (40 : UInt64).toNat = 40 := rfl
      have scaled : ((apart arcNum).1 * 40).toNat = 40 * min 2 (arcNum.toNat / 40) := by
        rw [UInt64.toNat_mul, one, factor]
        omega
      rw [UInt64.toNat_sub_of_le _ _ (by rw [UInt64.le_iff_toNat_le, scaled]; omega), scaled]
    rw [gotArcs, List.map_cons, List.map_cons, List.cons.injEq, List.cons.injEq, clamped, one, two,
      number]
    constructor
    · rintro ⟨firstSame, secondSame, long⟩
      refine ⟨fun a inside => ?_, fun _ arc' second' rest' same => ?_⟩
      · rcases List.mem_cons.mp inside with rfl | inside
        · omega
        rcases List.mem_cons.mp inside with rfl | inside
        · omega
        · exact long a inside
      · injection same with same others
        injection others with others _
        omega
    · rintro ⟨long, told⟩
      have bound := long second (by simp)
      have told := told rfl arc second rest rfl
      refine ⟨by omega, by omega, fun a inside => long a (by simp [inside])⟩

/-- The text of the arcs that are got back. -/
theorem createDottedOidStr_eq (mIsRelative : Bool) {arcNums : List UInt64} (some : arcNums ≠ []) :
    createDottedOidStr ⟨mIsRelative, arcOctets arcNums⟩ =
      match gotArcs mIsRelative arcNums with
      | [] => []
      | arc :: arcs => printLong arc ++ arcs.flatMap fun arc => '.' :: printLong arc := by
  obtain ⟨first, rest, rfl⟩ := List.exists_cons_of_ne_nil some
  rw [createDottedOidStr_arcOctets]
  cases mIsRelative with
  | true => rfl
  | false =>
    rw [if_neg Bool.false_ne_true, List.append_assoc]
    rfl

theorem SetFrom.decodes_iff {x : OidObject} {mIsRelative : Bool} {str : List Char}
    (set : SetFrom x mIsRelative str) :
    Decodes x.toAsnRelativeOid (arcsOf str) ↔ KeepsArcs mIsRelative str := by
  have got := gotArcs_textNumbers_iff set.first
  have numbers : textNumbers mIsRelative str ≠ [] := by
    intro none
    cases mIsRelative with
    | true => exact set.some (List.map_eq_nil_iff.mp none)
    | false =>
      obtain ⟨arc, second, rest, arcs, -⟩ := set.first rfl
      rw [textNumbers, arcs] at none
      cases none
  obtain ⟨⟨relative', oid⟩, kept⟩ := x
  have relative : relative' = mIsRelative := set.relative
  have octets : oid = (arcOctets (textNumbers mIsRelative str)).take
    (UInt32.ofNat (arcOctets (textNumbers mIsRelative str)).length).toNat := set.octets
  subst relative
  rw [UInt32.toNat_ofNat'] at octets
  by_cases few : (arcOctets (textNumbers relative' str)).length < 2 ^ 32
  · rw [Nat.mod_eq_of_lt few, List.take_length] at octets
    subst octets
    have array := AsnRelativeOid.getOidArray_arcOctets relative' (textNumbers relative' str)
    have text := createDottedOidStr_eq relative' numbers
    constructor
    · rintro ⟨-, oidArray, ran, same⟩
      rw [array] at ran
      cases ran
      obtain ⟨long, second⟩ := got.mp same
      exact ⟨long, second, few⟩
    · intro keeps
      have same := got.mpr ⟨keeps.long, keeps.second⟩
      refine ⟨?_, _, array, same⟩
      change createDottedOidStr ⟨relative', arcOctets (textNumbers relative' str)⟩ = _
      rw [text]
      have long := keeps.long
      rw [← same] at long ⊢
      -- Each arc is printed with its digits.
      have printed : ∀ arc ∈ gotArcs relative' (textNumbers relative' str),
          printLong arc = Nat.toDigits 10 arc.toNat :=
        fun arc inside => printLong_eq (long _ (List.mem_map_of_mem inside))
      generalize gotArcs relative' (textNumbers relative' str) = arcs at printed
      cases arcs with
      | nil => rfl
      | cons arc arcs =>
        rw [List.map_cons, dottedText, List.flatMap_map]
        dsimp only
        rw [printed arc List.mem_cons_self]
        refine congrArg _ (List.flatMap_congr fun arc inside => ?_)
        rw [printed arc (List.mem_cons_of_mem _ inside)]
  · refine iff_of_false ?_ fun keeps => few keeps.few
    rintro ⟨-, oidArray, ran, same⟩
    have less : (arcOctets (textNumbers relative' str)).length % 2 ^ 32 <
        (arcOctets (textNumbers relative' str)).length := by omega
    refine AsnRelativeOid.getOidArray_take less ?_ (octets ▸ ran)
    have sizes := congrArg List.length same
    rw [List.length_map] at sizes
    rw [sizes]
    cases relative' with
    | true => rw [gotArcs, textNumbers, arcNumbers, List.length_map] <;> simp
    | false =>
      obtain ⟨arc, second, rest, arcs, -⟩ := set.first rfl
      rw [textNumbers, arcs]
      simp [arcNumbers, gotArcs]

/-- The text, the octets and the arcs of two objects that are set from texts agree. -/
def ViewsAgree (x y : OidObject) (s t : List Char) : Prop :=
  Decodes x.toAsnRelativeOid (arcsOf s) ∧ Decodes y.toAsnRelativeOid (arcsOf t) ∧
    (x.oidEquiv y.toAsnRelativeOid = true ↔ arcsOf s = arcsOf t) ∧
    (x.equalsText t = x.oidEquiv y.toAsnRelativeOid)

/--
Where the views of two object identifiers of one type agree.

A text is compared with the one that is kept, so that it has to be the only one of its arcs.
-/
theorem viewsAgree_iff {x₀ y₀ x y : OidObject} {s t : List Char}
    (type : y₀.mIsRelative = x₀.mIsRelative) (xSet : x₀.setText s = .ok x)
    (ySet : y₀.setText t = .ok y) :
    ViewsAgree x y s t ↔ KeepsArcs x₀.mIsRelative s ∧ KeepsArcs x₀.mIsRelative t ∧
      (arcsOf s = arcsOf t → s = t) := by
  have xFrom := OidObject.setFrom_of_setText xSet
  have yFrom := OidObject.setFrom_of_setText ySet
  rw [type] at yFrom
  have text : x.equalsText t = true ↔ s = t := by
    rw [OidObject.equalsText, xFrom.kept, decide_eq_true_iff]
    rfl
  have equiv : x.oidEquiv y.toAsnRelativeOid = true ↔ x.oid = y.oid := decide_eq_true_iff
  -- Where the octets give the arcs, they are equal where the arcs are.
  have same (xDecodes : Decodes x.toAsnRelativeOid (arcsOf s))
      (yDecodes : Decodes y.toAsnRelativeOid (arcsOf t)) : x.oid = y.oid ↔ arcsOf s = arcsOf t := by
    constructor
    · intro octets
      have object : x.toAsnRelativeOid = y.toAsnRelativeOid := by
        have relative := xFrom.relative.trans yFrom.relative.symm
        cases x with | mk xOid _ => cases y with | mk yOid _ =>
          cases xOid
          cases yOid
          dsimp only at relative octets
          rw [relative, octets]
      obtain ⟨-, oidArray, ran, arcs⟩ := xDecodes
      obtain ⟨-, oidArray', ran', arcs'⟩ := yDecodes
      rw [object, ran'] at ran
      cases ran
      exact arcs.symm.trans arcs'
    · intro arcs
      rw [xFrom.octets, yFrom.octets, textNumbers, textNumbers, arcs]
  rw [ViewsAgree, xFrom.decodes_iff, yFrom.decodes_iff, equiv, Bool.eq_iff_iff, text, equiv]
  constructor
  · rintro ⟨xKeeps, yKeeps, octets, texts⟩
    exact ⟨xKeeps, yKeeps, fun arcs => texts.mpr (octets.mpr arcs)⟩
  · rintro ⟨xKeeps, yKeeps, only⟩
    have octets := same (xFrom.decodes_iff.mpr xKeeps) (yFrom.decodes_iff.mpr yKeeps)
    refine ⟨xKeeps, yKeeps, octets, ?_⟩
    rw [octets]
    exact ⟨fun same => by rw [same], only⟩

/-- The text "1.40" is accepted. -/
theorem exists_setText_forty : ∃ x, OidObject.setText ⟨⟨false, []⟩, none⟩ ['1', '.', '4', '0'] =
    .ok x := by
  have parsed : parseArcs ['1', '.', '4', '0'] = .ok [1, 40] := by
    have second : parseArcs ['.', '4', '0'] = .ok [40] := by
      rw [parseArcs]
      change (do return (40 : UInt64) :: (← parseArcs [])) = _
      rw [parseArcs]
      rfl
    rw [parseArcs]
    change (do return (1 : UInt64) :: (← parseArcs ['.', '4', '0'])) = _
    rw [second]
    rfl
  have accepted : AcceptsArcs false [1, 40] := by
    refine ⟨List.cons_ne_nil _ _, fun _ first here _ => ?_⟩
    cases here
    exact ⟨by decide, 40, rfl, by decide⟩
  have octets : arcOctets (arcNumbers false (liveArcs [1, 40])) = groupOctets 80 ++ [] := rfl
  rw [List.append_nil] at octets
  have spec := AsnRelativeOid.setArcs_spec (x := ⟨false, []⟩) accepted rfl
  rw [octets, if_pos ⟨by decide, by rw [length_groupOctets, leadOctets_of_lt (by decide)]; decide⟩]
    at spec
  obtain ⟨y, set⟩ : ∃ y, AsnRelativeOid.setArcs ⟨false, []⟩ [1, 40] = .ok y := ⟨_, spec⟩
  refine ⟨⟨y, some ['1', '.', '4', '0']⟩, ?_⟩
  rw [OidObject.setText, if_neg (by decide), parsed]
  change (do return OidObject.mk (← AsnRelativeOid.setArcs ⟨false, []⟩ [1, 40]) _) = _
  rw [set]
  rfl

theorem viewsAgree_iff_forty : ∃ x,
    OidObject.setText ⟨⟨false, []⟩, none⟩ ['1', '.', '4', '0'] = .ok x ∧
      (ViewsAgree x x ['1', '.', '4', '0'] ['1', '.', '4', '0'] ↔
        KeepsArcs false ['1', '.', '4', '0'] ∧ KeepsArcs false ['1', '.', '4', '0'] ∧
          (arcsOf ['1', '.', '4', '0'] = arcsOf ['1', '.', '4', '0'] →
            ['1', '.', '4', '0'] = ['1', '.', '4', '0'])) := by
  obtain ⟨x, set⟩ := exists_setText_forty
  exact ⟨x, set, viewsAgree_iff rfl set set⟩

/-- The arcs 1 and 40 are read back as 2 and 0. -/
theorem not_viewsAgree : ¬∀ (x₀ y₀ x y : OidObject) (s t : List Char),
    y₀.mIsRelative = x₀.mIsRelative → x₀.setText s = .ok x → y₀.setText t = .ok y →
      ViewsAgree x y s t := by
  intro always
  obtain ⟨x, set⟩ := exists_setText_forty
  obtain ⟨decodes, -⟩ := always _ _ x x _ _ rfl set set
  have keeps := (OidObject.setFrom_of_setText set).decodes_iff.mp decodes
  have told := keeps.second rfl 1 40 [] rfl
  omega

end Esnacc.Cxx
