import Esnacc.Compiler.LinkRefs

/-! What the import lists of a module show of a name once its qualified references are registered. -/

namespace Esnacc.Compiler

/-! ## One list -/

/-- Names that were just imported are found exactly when they are listed, and are not private. -/
theorem lookupImportElmt_symbols (symbolList : List String) (x : String) :
    lookupImportElmtInImportElmtList (symbolList.map fun name => { name }) x =
      if x ∈ symbolList then some { name := x } else none := by
  -- Along the list, to the first of its names that is the one looked for.
  unfold lookupImportElmtInImportElmtList
  induction symbolList with
  | nil => rfl
  | cons y symbolList ih =>
    by_cases same : y = x
    · simp [same]
    · have other : ¬ x = y := fun eq => same eq.symm
      rw [List.map_cons, List.find?_cons, decide_eq_false same, ih]
      simp [other]

theorem lookupImportElmt_append (impElmtList : List ImportElmt) (newElmt : ImportElmt)
    (x : String) :
    lookupImportElmtInImportElmtList (impElmtList ++ [newElmt]) x =
      (lookupImportElmtInImportElmtList impElmtList x).or
        (if newElmt.name = x then some newElmt else none) := by
  unfold lookupImportElmtInImportElmtList
  rw [List.find?_append]
  by_cases same : newElmt.name = x <;> simp [same]

/-! ## All lists -/

/-- The names of the modules that there are import lists from. -/
def listNames (imports : List ImportModule) : List String :=
  imports.map (·.modId.name)

theorem lookupImportModule_eq_none (imports : List ImportModule) (name : String) :
    lookupImportModule imports name = none ↔ name ∉ listNames imports := by
  simp [lookupImportModule, listNames]

/-- The first list that shows a name, and whether its scope is private there: the lists show the
names that they have, and the first list from a module those that are qualified with the module. -/
def shownIn (qualified : List (String × String)) (x : String) :
    List String → List ImportModule → Option (ModuleId × Bool)
  | _, [] => none
  | earlier, impMod :: imports =>
    match lookupImportElmtInImportElmtList impMod.importElmts x with
    | some impElmt => some (impMod.modId, impElmt.privateScope)
    | none =>
      if impMod.modId.name ∉ earlier ∧ (impMod.modId.name, x) ∈ qualified then
        some (impMod.modId, false)
      else shownIn qualified x (impMod.modId.name :: earlier) imports

/-- The first list that qualified references create and that shows a name: only the reference that
created the list made its name private. -/
def shownByNew (earlier : List String) (qualified : List (String × String)) (x : String) :
    Option (ModuleId × Bool) :=
  (qualified.find? fun q => q.1 ∉ earlier ∧ (q.1, x) ∈ qualified).map fun q =>
    ({ name := q.1 }, q.2 = x)

/-- What a lookup of a name tells. -/
def shown (imports : List ImportModule) (x : String) : Option (ModuleId × Bool) :=
  (lookupImportElmtInModule imports x).map fun (impMod, impElmt) =>
    (impMod.modId, impElmt.privateScope)

/-- Without qualified references the lists show what they have. -/
theorem shown_eq_shownIn (imports : List ImportModule) (x : String) (earlier : List String) :
    shown imports x = shownIn [] x earlier imports := by
  -- Along the lists; nothing is qualified.
  induction imports generalizing earlier with
  | nil => rfl
  | cons impMod imports ih =>
    unfold shown lookupImportElmtInModule
    rw [List.findSome?_cons, shownIn]
    cases lookupImportElmtInImportElmtList impMod.importElmts x with
    | some impElmt => rfl
    | none =>
      rw [if_neg (by simp)]
      exact ih (impMod.modId.name :: earlier)

/-- References to other names or to other modules show nothing of a name. -/
theorem shownIn_cons_of_ne {q : String × String} {x : String} {imports : List ImportModule}
    (other : q.1 ∉ listNames imports ∨ q.2 ≠ x) (qualified : List (String × String))
    (earlier : List String) :
    shownIn (q :: qualified) x earlier imports = shownIn qualified x earlier imports := by
  -- Along the lists; the new reference is about none of them.
  induction imports generalizing earlier with
  | nil => rfl
  | cons impMod imports ih =>
    have later : q.1 ∉ listNames imports ∨ q.2 ≠ x := by
      rcases other with notNamed | notX
      · exact .inl fun isIn => notNamed (List.mem_cons_of_mem _ isIn)
      · exact .inr notX
    have same : (impMod.modId.name, x) ∈ q :: qualified ↔ (impMod.modId.name, x) ∈ qualified := by
      rw [List.mem_cons, or_iff_right]
      rintro rfl
      simp [listNames] at other
    simp only [shownIn, same, ih later]

/-- A reference to the name in a module with a list shows it in the first list from that module. -/
theorem shownIn_appendImportElmt {name x : String} (imports : List ImportModule)
    (qualified : List (String × String)) (earlier : List String) (notEarlier : name ∉ earlier)
    (missing : ∀ impMod, lookupImportModule imports name = some impMod →
      lookupImportElmtInImportElmtList impMod.importElmts x = none) :
    shownIn qualified x earlier (appendImportElmt name { name := x } imports) =
      shownIn ((name, x) :: qualified) x earlier imports := by
  -- Along the lists, to the first one from the module.
  induction imports generalizing earlier with
  | nil => rfl
  | cons impMod imports ih =>
    by_cases here : impMod.modId.name = name
    · have none := missing impMod (by simp [lookupImportModule, here])
      rw [appendImportElmt, if_pos here, shownIn, shownIn, lookupImportElmt_append, none]
      simp [here, notEarlier]
    · have later : ∀ found, lookupImportModule imports name = some found →
          lookupImportElmtInImportElmtList found.importElmts x = none := by
        intro found first
        apply missing found
        rw [lookupImportModule, List.find?_cons, decide_eq_false here]
        exact first
      have same : (impMod.modId.name, x) ∈ (name, x) :: qualified ↔
          (impMod.modId.name, x) ∈ qualified := by
        simp [here]
      have notNow : name ∉ impMod.modId.name :: earlier := by
        simp only [List.mem_cons, notEarlier, or_false]
        exact fun eq => here eq.symm
      rw [appendImportElmt, if_neg here, shownIn, shownIn]
      simp only [same, ih _ notNow later]

/-- A list behind the others shows a name where those before it do not. -/
theorem shownIn_append (imports : List ImportModule) (last : ImportModule)
    (qualified : List (String × String)) (x : String) (earlier : List String) :
    shownIn qualified x earlier (imports ++ [last]) =
      (shownIn qualified x earlier imports).or
        (shownIn qualified x ((listNames imports).reverse ++ earlier) [last]) := by
  -- Along the lists in front of the last one.
  induction imports generalizing earlier with
  | nil => simp [listNames, shownIn]
  | cons impMod imports ih =>
    rw [List.cons_append, shownIn, shownIn, ih]
    cases lookupImportElmtInImportElmtList impMod.importElmts x with
    | some impElmt => rfl
    | none =>
      by_cases here : impMod.modId.name ∉ earlier ∧ (impMod.modId.name, x) ∈ qualified
      · simp only [if_pos here, Option.or]
      · simp only [if_neg here, listNames, List.map_cons, List.reverse_cons, List.append_assoc,
          List.singleton_append]

/-! ## Registering references -/

section

variable {imports : List ImportModule} {name y : String} {impMod : ImportModule}

theorem addPrivateImportElmt_of_new (new : lookupImportModule imports name = none) (y : String) :
    addPrivateImportElmt imports y name = imports ++ [{
      modId := { name := name }
      importElmts := [{ name := y, privateScope := true }] }] := by
  rw [addPrivateImportElmt, new]

theorem addPrivateImportElmt_of_present {impElmt : ImportElmt}
    (first : lookupImportModule imports name = some impMod)
    (present : lookupImportElmtInImportElmtList impMod.importElmts y = some impElmt) :
    addPrivateImportElmt imports y name = imports := by
  simp only [addPrivateImportElmt, first, present]

theorem addPrivateImportElmt_of_missing
    (first : lookupImportModule imports name = some impMod)
    (missing : lookupImportElmtInImportElmtList impMod.importElmts y = none) :
    addPrivateImportElmt imports y name = appendImportElmt name { name := y } imports := by
  simp only [addPrivateImportElmt, first, missing]

end

/-- A reference to another name, or one that has an element already, changes nothing of a name. -/
theorem shownIn_of_present {name x : String} {impMod : ImportModule} {impElmt : ImportElmt}
    (imports : List ImportModule) (first : lookupImportModule imports name = some impMod)
    (present : lookupImportElmtInImportElmtList impMod.importElmts x = some impElmt)
    (qualified : List (String × String)) (earlier : List String) :
    shownIn ((name, x) :: qualified) x earlier imports = shownIn qualified x earlier imports := by
  -- Along the lists, to the first one from the module.
  induction imports generalizing earlier with
  | nil => rfl
  | cons found imports ih =>
    by_cases here : found.modId.name = name
    · have same : found = impMod := by
        simpa [lookupImportModule, here] using first
      rw [shownIn, shownIn, same, present]
    · have later : lookupImportModule imports name = some impMod := by
        rw [lookupImportModule, List.find?_cons, decide_eq_false here] at first
        exact first
      have same : (found.modId.name, x) ∈ (name, x) :: qualified ↔
          (found.modId.name, x) ∈ qualified := by
        simp [here]
      simp only [shownIn, same, ih later]

theorem listNames_appendImportElmt (name : String) (newElmt : ImportElmt)
    (imports : List ImportModule) :
    listNames (appendImportElmt name newElmt imports) = listNames imports := by
  induction imports with
  | nil => rfl
  | cons impMod imports ih =>
    rw [appendImportElmt]
    split
    · rfl
    · exact congrArg (impMod.modId.name :: ·) ih

/-- References to modules that have lists create no list. -/
theorem shownByNew_cons_of_listed {q : String × String} {earlier : List String}
    (listed : q.1 ∈ earlier) (qualified : List (String × String)) (x : String) :
    shownByNew earlier (q :: qualified) x = shownByNew earlier qualified x := by
  have same : (fun r : String × String => decide (r.1 ∉ earlier ∧ (r.1, x) ∈ q :: qualified)) =
      fun r => decide (r.1 ∉ earlier ∧ (r.1, x) ∈ qualified) := by
    funext r
    apply decide_eq_decide.2
    refine and_congr_right fun new => ?_
    rw [List.mem_cons, or_iff_right]
    rintro rfl
    exact new listed
  rw [shownByNew, shownByNew, List.find?_cons, same]
  simp [listed]

/-- A reference to a module that has no list creates one. -/
theorem shownByNew_cons_of_new {q : String × String} {names : List String}
    (new : q.1 ∉ names) (qualified : List (String × String)) (x : String) :
    shownByNew names (q :: qualified) x =
      (shownIn qualified x (names.reverse ++ []) [{
        modId := { name := q.1 }
        importElmts := [{ name := q.2, privateScope := true }] }]).or
          (shownByNew (names ++ [q.1]) qualified x) := by
  have newReverse : q.1 ∉ names.reverse ++ [] := by simp [new]
  by_cases same : q.2 = x
  · -- The name itself is private in the new list.
    obtain ⟨name, y⟩ := q
    subst same
    simp [shownByNew, shownIn, lookupImportElmtInImportElmtList, new]
  · have asBefore (r : String × String) :
        (r.1, x) ∈ q :: qualified ↔ (r.1, x) ∈ qualified := by
      rw [List.mem_cons, or_iff_right]
      rintro rfl
      exact same rfl
    rw [shownByNew, List.find?_cons]
    by_cases later : (q.1, x) ∈ qualified
    · simp [shownIn, lookupImportElmtInImportElmtList, same, later, new]
    · have others : (fun r : String × String => decide (r.1 ∉ names ∧ (r.1, x) ∈ q :: qualified)) =
          fun r => decide (r.1 ∉ names ++ [q.1] ∧ (r.1, x) ∈ qualified) := by
        funext r
        apply decide_eq_decide.2
        rw [asBefore r, List.mem_append, List.mem_singleton]
        constructor
        · rintro ⟨notNamed, isIn⟩
          refine ⟨?_, isIn⟩
          rintro (named | eq)
          · exact notNamed named
          · exact later (eq ▸ isIn)
        · rintro ⟨notNamed, isIn⟩
          exact ⟨fun named => notNamed (.inl named), isIn⟩
      have skipped : decide (q.1 ∉ names ∧ (q.1, x) ∈ q :: qualified) = false := by
        rw [decide_eq_false_iff_not, asBefore q]
        exact fun both => later both.2
      rw [skipped, others]
      simp [shownIn, shownByNew, lookupImportElmtInImportElmtList, same, later]

/-- An element with another name that is appended changes nothing of a name. -/
theorem shownIn_appendImportElmt_of_ne {y x : String} (other : y ≠ x) (name : String)
    (qualified : List (String × String)) (imports : List ImportModule) (earlier : List String) :
    shownIn qualified x earlier (appendImportElmt name { name := y } imports) =
      shownIn qualified x earlier imports := by
  -- Along the lists, to the one that the element is appended to.
  induction imports generalizing earlier with
  | nil => rfl
  | cons impMod imports ih =>
    rw [appendImportElmt]
    split
    · rw [shownIn, shownIn, lookupImportElmt_append, if_neg other, Option.or_none]
    · simp only [shownIn, ih]

/-- What is shown of a name once all qualified references are registered: first by the lists that
were there, and then by the lists that the references create. -/
theorem shown_addQualified (imports : List ImportModule) (qualified : List (String × String))
    (x : String) :
    shown (addQualified imports qualified) x =
      (shownIn qualified x [] imports).or (shownByNew (listNames imports) qualified x) := by
  -- Along the references in the order of the text.
  induction qualified generalizing imports with
  | nil =>
    rw [addQualified, List.foldl_nil, shown_eq_shownIn imports x []]
    simp [shownByNew]
  | cons q qualified ih =>
    obtain ⟨name, y⟩ := q
    have step : addQualified imports ((name, y) :: qualified) =
        addQualified (addPrivateImportElmt imports y name) qualified := rfl
    rw [step, ih]
    cases first : lookupImportModule imports name with
    | none =>
      -- A list of its own.
      have new := (lookupImportModule_eq_none imports name).1 first
      have added := addPrivateImportElmt_of_new first y
      have names : listNames (addPrivateImportElmt imports y name) =
          listNames imports ++ [name] := by simp [added, listNames]
      rw [names, added, shownIn_append, shownByNew_cons_of_new new, Option.or_assoc,
        shownIn_cons_of_ne (.inl new)]
    | some impMod =>
      have listed : name ∈ listNames imports := by
        by_contra new
        rw [(lookupImportModule_eq_none imports name).2 new] at first
        cases first
      rw [shownByNew_cons_of_listed listed]
      cases present : lookupImportElmtInImportElmtList impMod.importElmts y with
      | some impElmt =>
        rw [addPrivateImportElmt_of_present first present]
        by_cases same : y = x
        · subst same
          rw [shownIn_of_present imports first present]
        · rw [shownIn_cons_of_ne (.inr same)]
      | none =>
        rw [addPrivateImportElmt_of_missing first present, listNames_appendImportElmt]
        by_cases same : y = x
        · subst same
          rw [shownIn_appendImportElmt imports qualified [] (by simp)]
          intro found isFirst
          rw [first] at isFirst
          cases isFirst
          exact present
        · rw [shownIn_appendImportElmt_of_ne same, shownIn_cons_of_ne (.inr same)]

end Esnacc.Compiler
