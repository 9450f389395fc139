import Esnacc.Compiler.TagUtil

/-! The walks of the compiler find the effective tags, whatever list cursors they meet. -/

namespace Esnacc.Compiler

variable {m : Parsed} {libTypesG : BasicTypeChoiceId → BerForm}

/-! ## One list of tags -/

/-- The cursor in the tags of a type stands where going on from it gives these tags. -/
def Stands (m : Parsed) (curr : ListCursors) (t : Nat) (tags : List Tag) : Prop :=
  ∃ curr', forRestListElmt m (m.types t).tags curr = some (tags, curr') ∧
    curr'.namedTypeLists = curr.namedTypeLists

theorem ownTags_none {t : Nat} (no : (m.types t).tags = none) : ownTags m t = [] := by
  rw [ownTags, no]

theorem ownTags_some {t tl : Nat} (has : (m.types t).tags = some tl) :
    ownTags m t = m.tagLists tl := by
  rw [ownTags, has]

theorem stands_setTags {t tl : Nat} (has : (m.types t).tags = some tl) (curr : ListCursors)
    (place : Nat) : Stands m (curr.setTags tl place) t ((ownTags m t).drop place) := by
  refine ⟨(curr.setTags tl place).setTags tl (m.tagLists tl).length, ?_, rfl⟩
  rw [has, ownTags_some has]
  change some ((m.tagLists tl).drop ((curr.setTags tl place).tagLists tl), _) = _
  rw [ListCursors.setTags_tagLists]

theorem startOnTags_spec (curr : ListCursors) (t : Nat) :
    ∃ curr', startOnTags m t curr = some ((), curr') ∧
      Stands m curr' t (ownTags m t) ∧ curr'.namedTypeLists = curr.namedTypeLists := by
  cases has : (m.types t).tags with
  | none =>
    refine ⟨curr, by rw [startOnTags, has]; rfl, ⟨curr, ?_, rfl⟩, rfl⟩
    rw [has, ownTags_none has]
    rfl
  | some tl =>
    refine ⟨curr.setTags tl 0, by rw [startOnTags, has]; rfl, ?_, rfl⟩
    exact stands_setTags has curr 0

/-- An implicit reference leaves out the first tag of a type that has any. -/
theorem startOnReferenced_spec (curr : ListCursors) (t : Nat) (implicitRef : Bool) :
    ∃ curr', startOnReferenced m implicitRef (m.types t).tags curr =
        some ((ownTags m t).isEmpty && implicitRef, curr') ∧
      Stands m curr' t (if implicitRef then (ownTags m t).tail else ownTags m t) ∧
      curr'.namedTypeLists = curr.namedTypeLists := by
  cases has : (m.types t).tags with
  | none =>
    refine ⟨curr, by rw [ownTags_none has]; rfl, ⟨curr, ?_, rfl⟩, rfl⟩
    rw [has, ownTags_none has]
    cases implicitRef <;> rfl
  | some tl =>
    cases tags : m.tagLists tl with
    | nil =>
      -- There is nothing to leave out.
      refine ⟨curr.setTags tl 0, ?_, ?_, rfl⟩
      · simp only [startOnReferenced, tags, ownTags_some has]
        rfl
      · have stands := stands_setTags has curr 0
        rw [ownTags_some has, tags] at stands ⊢
        cases implicitRef <;> exact stands
    | cons tag rest =>
      cases implicitRef with
      | false =>
        refine ⟨curr.setTags tl 0, ?_, stands_setTags has curr 0, rfl⟩
        simp only [startOnReferenced, tags, ownTags_some has]
        rfl
      | true =>
        refine ⟨(curr.setTags tl 0).setTags tl 1, ?_, ?_, rfl⟩
        · simp only [startOnReferenced, tags, ownTags_some has]
          change some (false, (curr.setTags tl 0).setTags tl
            (if (curr.setTags tl 0).tagLists tl < (m.tagLists tl).length then
              (curr.setTags tl 0).tagLists tl + 1 else 0)) = _
          rw [ListCursors.setTags_tagLists, if_pos (by rw [tags]; exact Nat.succ_pos _)]
          rfl
        · have stands := stands_setTags has (curr.setTags tl 0) 1
          rw [List.drop_one] at stands
          exact stands

/-! ## Along references -/

/-- What the walk does behind the tags of the last type. -/
@[grind =] def walkEnd (m : Parsed) (libTypesG : BasicTypeChoiceId → BerForm) (fuel last : Nat)
    (retVal : List Tag) : CursorM (Nat × List Tag × Bool) :=
  if (m.types last).basicType.choiceId = .choice && retVal.isEmpty then
    match (m.types last).basicType.elmts with
    | none => return (last, retVal, true)
    | some choice => do
      modify fun curr => curr.setNamedTypes choice 0
      let retVal ← stealChoiceTags m (getTags m libTypesG fuel) choice fuel retVal
      return (last, retVal, true)
  else return (last, retVal, false)

/-- The step of the walk at a type that refers to another one. -/
theorem getTagsLoop_ref {t u : Nat} (refers : refersTo m t = some u) (fuel : Nat)
    (retVal : List Tag) (implicitRef : Bool) :
    getTagsLoop m libTypesG (fuel + 1) t (m.types t).tags retVal implicitRef = (do
      let tags ← forRestListElmt m (m.types t).tags
      let implicitRef ← startOnReferenced m (implicitRef || (m.types t).implicit) (m.types u).tags
      getTagsLoop m libTypesG fuel u (m.types u).tags (retVal ++ tags) implicitRef) := by
  unfold refersTo at refers
  split at refers
  next isRef =>
    rw [getTagsLoop]
    simp only [isRef, if_true, refers]
    cases implicitRef <;> rfl
  next => cases refers

/-- The step of the walk at the last type. -/
theorem getTagsLoop_last {t : Nat} (ends : refersTo m t = none) (fuel : Nat)
    (retVal : List Tag) (implicitRef : Bool) :
    getTagsLoop m libTypesG (fuel + 1) t (m.types t).tags retVal implicitRef = (do
      let tags ← forRestListElmt m (m.types t).tags
      walkEnd m libTypesG fuel t (retVal ++ tags)) := by
  rw [getTagsLoop]
  unfold refersTo at ends
  split at ends
  next isRef =>
    -- A reference that is not resolved is no CHOICE.
    have other : ¬(m.types t).basicType.choiceId = .choice := by
      intro choice
      rw [BasicType.isTypeRef, choice] at isRef
      revert isRef
      decide
    simp only [isRef, if_true, ends, walkEnd, other, decide_false, Bool.false_and]
    rfl
  next isNoRef =>
    simp only [isNoRef, walkEnd]
    rfl

/-- The walk comes to the last type with the tags along the references. -/
theorem getTagsLoop_chain {t last : Nat} {ts : List Nat} (chain : RefChain m t ts last)
    (above : List Nat) (fuel : Nat) (retVal : List Tag) {curr : ListCursors}
    (stands : Stands m curr t
      (if replaced m above then (ownTags m t).tail else ownTags m t)) :
    ∃ curr', getTagsLoop m libTypesG (fuel + ts.length) t (m.types t).tags retVal
        ((ownTags m t).isEmpty && replaced m above) curr =
      walkEnd m libTypesG fuel last (retVal ++ chainTags m above ts) curr' ∧
      curr'.namedTypeLists = curr.namedTypeLists := by
  -- The flag says whether the first tag below is still to be left out.
  induction chain generalizing above retVal curr with
  | @last t ends =>
    obtain ⟨curr', read, same⟩ := stands
    refine ⟨curr', ?_, same⟩
    rw [List.length_singleton, getTagsLoop_last ends, chainTags, chainTags, List.append_nil]
    change (forRestListElmt m _ curr >>= _) = _
    rw [read]
    rfl
  | @ref t u last ts refers rest ih =>
    obtain ⟨curr₁, read, same₁⟩ := stands
    obtain ⟨curr₂, started, stands₂, same₂⟩ := startOnReferenced_spec curr₁ u
      (replaced m (t :: above))
    obtain ⟨curr₃, walked, same₃⟩ := ih (t :: above)
      (retVal ++ if replaced m above then (ownTags m t).tail else ownTags m t) stands₂
    refine ⟨curr₃, ?_, same₃.trans (same₂.trans same₁)⟩
    have flag : ((ownTags m t).isEmpty && replaced m above || (m.types t).implicit) =
        replaced m (t :: above) := Bool.or_comm _ _
    rw [chainTags, ← List.append_assoc, ← walked, List.length_cons, ← Nat.add_assoc,
      getTagsLoop_ref refers, flag]
    change (forRestListElmt m _ curr >>= _) = _
    rw [read]
    change (startOnReferenced m _ _ curr₁ >>= _) = _
    rw [started]
    rfl

theorem getBuiltinType_last {last : Nat} (ends : refersTo m last = none) (fuel : Nat) :
    getBuiltinType m (fuel + 1) last = some (m.types last).basicType.choiceId := by
  rw [getBuiltinType, getType]
  unfold refersTo at ends
  split at ends
  next isRef => simp only [isRef, if_true, ends, Option.map_some]
  next isNoRef => simp only [isNoRef]; rfl

theorem RefChain.ends {t last : Nat} {ts : List Nat} (chain : RefChain m t ts last) :
    refersTo m last = none := by
  induction chain with
  | last ends => exact ends
  | ref _ _ ih => exact ih

/-- The counting walk counts the tags along the references. -/
theorem countTagsLoop_chain {t last : Nat} {ts : List Nat} (chain : RefChain m t ts last)
    (above : List Nat) (fuel tagCount : Nat) {curr : ListCursors}
    (stands : Stands m curr t
      (if replaced m above then (ownTags m t).tail else ownTags m t)) :
    ∃ curr', countTagsLoop m (fuel + ts.length) t (m.types t).tags tagCount
        ((ownTags m t).isEmpty && replaced m above) curr =
      some (tagCount + (chainTags m above ts).length, curr') := by
  induction chain generalizing above tagCount curr with
  | @last t ends =>
    obtain ⟨curr', read, -⟩ := stands
    refine ⟨curr', ?_⟩
    rw [List.length_singleton, countTagsLoop, chainTags, chainTags, List.append_nil]
    change (forRestListElmt m _ curr >>= _) = _
    rw [read]
    unfold refersTo at ends
    split at ends
    next isRef =>
      simp only [isRef, if_true, ends]
      rfl
    next isNoRef =>
      simp only [isNoRef]
      rfl
  | @ref t u last ts refers rest ih =>
    obtain ⟨curr₁, read, -⟩ := stands
    obtain ⟨curr₂, started, stands₂, -⟩ := startOnReferenced_spec curr₁ u
      (replaced m (t :: above))
    obtain ⟨curr₃, counted⟩ := ih (t :: above)
      (tagCount + (if replaced m above then (ownTags m t).tail else ownTags m t).length) stands₂
    refine ⟨curr₃, ?_⟩
    have flag : (if (!((ownTags m t).isEmpty && replaced m above)) = true then
        (m.types t).implicit else (ownTags m t).isEmpty && replaced m above) =
          replaced m (t :: above) := by
      rw [replaced]
      cases (ownTags m t).isEmpty && replaced m above <;> simp
    rw [chainTags, List.length_append, ← Nat.add_assoc, ← counted, List.length_cons,
      ← Nat.add_assoc, countTagsLoop]
    change (forRestListElmt m _ curr >>= _) = _
    rw [read]
    unfold refersTo at refers
    split at refers
    next isRef =>
      simp only [isRef, if_true, refers, flag]
      change (startOnReferenced m _ _ curr₁ >>= _) = _
      rw [started]
      rfl
    next => cases refers

theorem setForms_eq (form : BerForm) (tags : List Tag) :
    setForms form tags = withForms form tags := by
  induction tags with
  | nil => rfl
  | cons tag rest ih =>
    cases rest with
    | nil => rfl
    | cons next more =>
      rw [setForms, ih]
      · rfl
      · exact List.cons_ne_nil next more

/-- What is done with the result of a walk. -/
def afterWalk (m : Parsed) (libTypesG : BasicTypeChoiceId → BerForm) (fuel : Nat) :
    Nat × List Tag × Bool → CursorM (List Tag × Bool)
  | (t, retVal, stoleChoiceTags) => do
    if !stoleChoiceTags && !retVal.isEmpty then
      let some builtin := getBuiltinType m fuel t | failure
      return (setForms (libTypesG builtin) retVal, stoleChoiceTags)
    return (retVal, stoleChoiceTags)

/-- The tags of a type are what the walk finds behind those along the references. -/
theorem getTags_chain {t last : Nat} {ts : List Nat} (chain : RefChain m t ts last)
    (fuel : Nat) (curr : ListCursors) :
    ∃ curr', getTags m libTypesG (fuel + ts.length) t curr =
        (walkEnd m libTypesG fuel last (chainTags m [] ts) >>=
          afterWalk m libTypesG (fuel + ts.length)) curr' ∧
      curr'.namedTypeLists = curr.namedTypeLists := by
  obtain ⟨curr₁, started, stands, same₁⟩ := @startOnTags_spec m curr t
  obtain ⟨curr₂, walked, same₂⟩ :=
    @getTagsLoop_chain m libTypesG t last ts chain [] fuel [] curr₁ stands
  refine ⟨curr₂, ?_, same₂.trans same₁⟩
  rw [List.nil_append, replaced, Bool.and_false] at walked
  change (startOnTags m t >>= fun _ =>
    getTagsLoop m libTypesG (fuel + ts.length) t (m.types t).tags [] false >>=
      afterWalk m libTypesG (fuel + ts.length)) curr = _
  change (startOnTags m t curr >>= _) = _
  rw [started]
  change (getTagsLoop m libTypesG (fuel + ts.length) t (m.types t).tags [] false curr₁ >>= _) = _
  rw [walked]
  rfl

theorem countTags_chain {t last : Nat} {ts : List Nat} (chain : RefChain m t ts last)
    (fuel : Nat) (curr : ListCursors) :
    ∃ curr', countTags m (fuel + ts.length) t curr =
      some ((chainTags m [] ts).length, curr') := by
  obtain ⟨curr₁, started, stands, -⟩ := @startOnTags_spec m curr t
  obtain ⟨curr₂, counted⟩ := countTagsLoop_chain chain [] fuel 0 stands
  refine ⟨curr₂, ?_⟩
  rw [Nat.zero_add, replaced, Bool.and_false] at counted
  change (startOnTags m t curr >>= _) = _
  rw [started]
  exact counted

/-- A chain of tags that no CHOICE is asked for comes out with its forms. -/
theorem getTags_tagged {t last : Nat} {ts : List Nat} (chain : RefChain m t ts last)
    (tagged : chainTags m [] ts ≠ [] ∨ ¬isChoice m last) (fuel : Nat) (curr : ListCursors) :
    ∃ curr', getTags m libTypesG (fuel + ts.length) t curr =
        some ((withForms (libTypesG (m.types last).basicType.choiceId) (chainTags m [] ts),
          false), curr') ∧
      curr'.namedTypeLists = curr.namedTypeLists := by
  obtain ⟨curr', walked, same⟩ := @getTags_chain m libTypesG t last ts chain fuel curr
  refine ⟨curr', ?_, same⟩
  have stops : ((m.types last).basicType.choiceId = .choice && (chainTags m [] ts).isEmpty) =
      false := by
    rcases tagged with some | other
    · rw [List.isEmpty_eq_false_iff.mpr some, Bool.and_false]
    · have no : ¬(m.types last).basicType.choiceId = .choice := other
      rw [decide_eq_false no, Bool.false_and]
  rw [walked, walkEnd, stops]
  change afterWalk m libTypesG (fuel + ts.length) (last, chainTags m [] ts, false) curr' = _
  obtain ⟨more, long⟩ : ∃ more, fuel + ts.length = more + 1 := by
    cases chain with
    | last => exact ⟨fuel, rfl⟩
    | @ref _ _ _ us => exact ⟨fuel + us.length, rfl⟩
  cases tags : chainTags m [] ts with
  | nil => rfl
  | cons tag rest =>
    simp only [afterWalk, long, getBuiltinType_last chain.ends, setForms_eq]
    rfl

end Esnacc.Compiler
