import Esnacc.Cxx.WideCodecs

/-! Round trips of the C++ strings of wide characters, and the form of UTF-8. -/

namespace Esnacc.Cxx

open Lib

/-! ## Octets of UTF-8 -/

theorem gUTF8Masks_map : gUTF8Masks.map Utf8Mask.toMaskValue = Esnacc.gUTF8Masks :=
  rfl

/-- The row of a size is the one of the C runtime, and a `wchar_t` has bits for the size. -/
theorem gUTF8Masks_getElem? (j : Nat) :
    (gUTF8Masks[j]? = none ∧ Esnacc.gUTF8Masks[j]? = none) ∨
      ∃ m : Utf8Mask, gUTF8Masks[j]? = some m ∧ Esnacc.gUTF8Masks[j]? = some m.toMaskValue ∧
        ¬ wcharSize * 8 < ((j * 6 : Nat) - (m.bits : Int)).natAbs := by
  have small : ∀ k : Fin 6, ∀ m ∈ gUTF8Masks[k.val]?,
      ¬ wcharSize * 8 < ((k.val * 6 : Nat) - (m.bits : Int)).natAbs := by
    decide
  rw [← gUTF8Masks_map, List.getElem?_map]
  cases row : gUTF8Masks[j]? with
  | none => exact .inl ⟨rfl, rfl⟩
  | some m =>
    obtain ⟨inside, -⟩ := List.getElem?_eq_some_iff.1 row
    exact .inr ⟨m, rfl, rfl, small ⟨j, inside⟩ m row⟩

theorem findIdx_mask (c : UInt8) :
    (gUTF8Masks.findIdx fun m => m.mask &&& c == m.value) = followingOctets c := by
  rw [followingOctets, ← gUTF8Masks_map, List.findIdx_map]
  rfl

theorem findIdx_maxCharValue (wc : WChar) :
    (gUTF8Masks.findIdx fun m => wc.toUInt64 ≤ m.maxCharValue) = followingOf wc := by
  rw [followingOf, ← gUTF8Masks_map, List.findIdx_map]
  rfl

/-! ### Octets that are converted -/

theorem strAt_eq_ok {str : List UInt8} {i : UInt32} {c : UInt8} :
    strAt str i = .ok c ↔ charAt str i = .ok c := by
  unfold strAt charAt octAt
  cases (str ++ [0])[i.toNat]? with
  | none => simp
  | some d => exact ⟨fun same => by cases same; rfl, fun same => by cases same; rfl⟩

/-- The octets behind a first one are added as the C runtime does. -/
theorem addSubsequent_eq_ok {str : List UInt8} {j : Nat} {i : UInt32} {tmp w : WChar}
    {i' : UInt32} :
    addSubsequent str j i tmp = .ok (w, i') ↔ addFollowing str j i tmp = .ok (some w, i') := by
  induction j generalizing i tmp with
  | zero =>
    constructor
    all_goals
      intro same
      cases same
      rfl
  | succ j ih =>
    rw [addSubsequent, addFollowing]
    cases there : charAt str i with
    | error e =>
      refine iff_of_false (fun ran => ?_) (fun ran => by cases ran)
      cases here : strAt str i with
      | error e' =>
        rw [here] at ran
        cases ran
      | ok c =>
        rw [strAt_eq_ok.1 here] at there
        cases there
    | ok c =>
      rw [strAt_eq_ok.2 there]
      dsimp only [bind, Except.bind]
      by_cases tail : c &&& 0xC0 = 0x80
      · have same : (c &&& 0xC0 != 0x80) = false := by simp [tail]
        rw [if_neg (not_not.2 tail), same]
        exact ih
      · have other : (c &&& 0xC0 != 0x80) = true := by simp [tail]
        rw [if_pos tail, other]
        exact iff_of_false (fun no => by cases no) (fun no => by cases no)

/-- A string is converted as the C runtime does. -/
theorem setTurns_eq_ok {str : List UInt8} {strLength : UInt32} {turns : Nat} {i : UInt32}
    {chars w : List WChar} :
    setTurns str strLength turns i chars = .ok w ↔
      decodeChars str strLength turns i chars = .ok (0, some w) := by
  induction turns generalizing i chars with
  | zero => exact iff_of_false (fun no => by cases no) (fun no => by cases no)
  | succ turns ih =>
    rw [setTurns, decodeChars]
    by_cases more : i < strLength
    · rw [if_pos more, if_pos more]
      cases there : charAt str i with
      | error e =>
        refine iff_of_false (fun ran => ?_) (fun ran => by cases ran)
        cases here : strAt str i with
        | error e' =>
          rw [here] at ran
          cases ran
        | ok c =>
          rw [strAt_eq_ok.1 here] at there
          cases there
      | ok c =>
        rw [strAt_eq_ok.2 there]
        dsimp only [bind, Except.bind]
        rw [findIdx_mask]
        rcases gUTF8Masks_getElem? (followingOctets c) with ⟨none, none'⟩ | ⟨m, row, row', wide⟩
        · rw [none, none']
          exact iff_of_false (fun no => by cases no) (fun no => by cases no)
        · rw [row, row']
          dsimp only
          by_cases short : strLength ≤ i + .ofNat (followingOctets c)
          · rw [if_pos short, if_pos short]
            exact iff_of_false (fun no => by cases no) (fun no => by cases no)
          · rw [if_neg short, if_neg short, if_neg wide]
            cases added : addFollowing str (followingOctets c) (i + 1) (~~~m.mask &&& c).toUInt32 with
            | error e =>
              refine iff_of_false (fun ran => ?_) (fun no => by cases no)
              cases adds : addSubsequent str (followingOctets c) (i + 1)
                  (~~~m.mask &&& c).toUInt32 with
              | error e' =>
                rw [adds] at ran
                cases ran
              | ok r =>
                rw [addSubsequent_eq_ok.1 adds] at added
                cases added
            | ok r =>
              obtain ⟨w', i'⟩ := r
              cases w' with
              | none =>
                refine iff_of_false (fun ran => ?_) (fun no => by cases no)
                cases adds : addSubsequent str (followingOctets c) (i + 1)
                    (~~~m.mask &&& c).toUInt32 with
                | error e' =>
                  rw [adds] at ran
                  cases ran
                | ok r =>
                  rw [addSubsequent_eq_ok.1 adds] at added
                  cases added
              | some w' =>
                rw [addSubsequent_eq_ok.2 added]
                exact ih
    · rw [if_neg more, if_neg more]
      constructor
      all_goals
        intro same
        cases same
        rfl

theorem setWide_iff {str : List UInt8} {w : List WChar} :
    setWide str = .ok w ↔ ∃ seqs : List (List UInt8), (∀ s ∈ seqs, IsSequence s) ∧
      str.take (str.length % 2 ^ 32) = seqs.flatten ∧
      w = seqs.map fun s => UInt32.ofNat (charOf s) :=
  setTurns_eq_ok.trans cvtUTF8towchar_iff

/-! ### Characters that are converted -/

/-- The octets behind a first one carry the low bits of the character. -/
theorem subsequentOctets_eq (y : Nat) (wc : WChar) :
    (subsequentOctets y wc).1.toNat = wc.toNat / 64 ^ y ∧
      (subsequentOctets y wc).2 = tailOctets y wc.toNat := by
  induction y generalizing wc with
  | zero => exact ⟨(Nat.div_one _).symm, rfl⟩
  | succ y ih =>
    obtain ⟨left, octets⟩ := ih (wc >>> 6)
    rw [toNat_shiftRight_six] at left octets
    refine ⟨?_, ?_⟩
    · rw [subsequentOctets, pow_succ', ← Nat.div_div_eq_div_mul]
      exact left
    · rw [subsequentOctets, tailOctets, ← octets, ← tailOctet_eq]

/-- Characters that have a size are converted to the octets of each. -/
theorem getAsUTF8_eq {str : List WChar} (fits : ∀ wc ∈ str, followingOf wc < 6) :
    getAsUTF8 str = .ok (str.flatMap encodedOf) := by
  induction str with
  | nil => rfl
  | cons wc rest ih =>
    obtain ⟨fit, fits⟩ := List.forall_mem_cons.1 fits
    obtain ⟨m, table⟩ := encodable fit
    obtain ⟨left, octets⟩ := subsequentOctets_eq (followingOf wc) wc
    have top : (subsequentOctets (followingOf wc) wc).1.toUInt8 =
        UInt8.ofNat (wc.toNat / 64 ^ followingOf wc) := by
      apply UInt8.toNat_inj.mp
      rw [UInt32.toNat_toUInt8, left, UInt8.toNat_ofNat']
    rw [getAsUTF8, findIdx_maxCharValue, List.flatMap_cons, table.encodedOf_eq]
    rcases gUTF8Masks_getElem? (followingOf wc) with ⟨-, none⟩ | ⟨row, found, same, -⟩
    · rw [table.entry] at none
      cases none
    · rw [table.entry] at same
      cases same
      rw [found]
      dsimp only
      rw [top, octets, ih fits]
      rfl

/-- The shortest form of a character in UTF-8. -/
def utf8Form (n : Nat) : List UInt8 :=
  if n ≤ 0x7F then [.ofNat n]
  else if n ≤ 0x7FF then .ofNat (0xC0 + n / 64) :: tailOctets 1 n
  else if n ≤ 0xFFFF then .ofNat (0xE0 + n / 64 ^ 2) :: tailOctets 2 n
  else .ofNat (0xF0 + n / 64 ^ 3) :: tailOctets 3 n

theorem encodedOf_eq_utf8Form {wc : WChar} (small : wc.toNat ≤ 0x1FFFF) :
    encodedOf wc = utf8Form wc.toNat := by
  have leads : ∀ b : Fin 128, (0x00 ||| ~~~0x80 &&& UInt8.ofNat b = UInt8.ofNat b) ∧
      (b.val < 32 → 0xC0 ||| ~~~0xE0 &&& UInt8.ofNat b = UInt8.ofNat (0xC0 + b.val)) ∧
      (b.val < 16 → 0xE0 ||| ~~~0xF0 &&& UInt8.ofNat b = UInt8.ofNat (0xE0 + b.val)) ∧
      (b.val < 8 → 0xF0 ||| ~~~0xF8 &&& UInt8.ofNat b = UInt8.ofNat (0xF0 + b.val)) := by
    decide
  have size := followingOf_eq wc
  unfold encodedOf utf8Form
  by_cases one : wc.toNat ≤ 0x7F
  · rw [if_pos one] at size
    rw [size, if_pos one]
    have lead := (leads ⟨wc.toNat, by omega⟩).1
    simpa [Esnacc.gUTF8Masks, tailOctets] using lead
  rw [if_neg one] at size
  rw [if_neg one]
  by_cases two : wc.toNat ≤ 0x7FF
  · rw [if_pos two] at size
    rw [size, if_pos two]
    have lead := (leads ⟨wc.toNat / 64, by omega⟩).2.1 (by dsimp only; omega)
    simpa [Esnacc.gUTF8Masks] using lead
  rw [if_neg two] at size
  rw [if_neg two]
  by_cases three : wc.toNat ≤ 0xFFFF
  · rw [if_pos three] at size
    rw [size, if_pos three]
    have lead := (leads ⟨wc.toNat / 64 ^ 2, by omega⟩).2.2.1 (by dsimp only; omega)
    simpa [Esnacc.gUTF8Masks] using lead
  rw [if_neg three, if_pos small] at size
  rw [size, if_neg three]
  have lead := (leads ⟨wc.toNat / 64 ^ 3, by omega⟩).2.2.2 (by dsimp only; omega)
  simpa [Esnacc.gUTF8Masks] using lead

/-- No shortest form has more octets than are put, and behind the fourth row it has fewer. -/
theorem length_utf8Form_le (wc : WChar) :
    (followingOf wc < 6 → (utf8Form wc.toNat).length ≤ (encodedOf wc).length) ∧
      (followingOf wc < 6 → 0x1FFFF < wc.toNat →
        (utf8Form wc.toNat).length < (encodedOf wc).length) := by
  have forms : (utf8Form wc.toNat).length =
      if wc.toNat ≤ 0x7F then 1 else if wc.toNat ≤ 0x7FF then 2 else
        if wc.toNat ≤ 0xFFFF then 3 else 4 := by
    unfold utf8Form
    split_ifs <;> simp
  constructor
  all_goals
    intro fits
    rw [(isSequence_encodedOf fits).2.2, forms, followingOf_eq]
    split_ifs <;> omega

theorem small_of_utf8Form {str : List WChar} (fits : ∀ wc ∈ str, followingOf wc < 6)
    (same : str.flatMap encodedOf = str.flatMap fun wc => utf8Form wc.toNat) :
    ∀ wc ∈ str, wc.toNat ≤ 0x1FFFF := by
  have lengths := congrArg List.length same
  rw [List.length_flatMap, List.length_flatMap] at lengths
  intro wc isIn
  by_contra large
  have less := List.sum_lt_sum (fun wc : WChar => (utf8Form wc.toNat).length)
    (fun wc => (encodedOf wc).length) (fun wc isIn => (length_utf8Form_le wc).1 (fits wc isIn))
    ⟨wc, isIn, (length_utf8Form_le wc).2 (fits wc isIn) (by omega)⟩
  omega

/-! ## Round trips of all types -/

/-- The types of strings of wide characters. -/
inductive WideType where
  | bmpString
  | universalString
  | utf8String

/-- A character that a type has. -/
def WideType.InRange : WideType → WChar → Prop
  | bmpString, wc => wc.toNat < 2 ^ 16
  | universalString, wc => wc.toNat < 2 ^ 31
  | utf8String, wc => wc.toNat ≤ 0x10FFFF

def WideType.bEncContent : WideType → List WChar → BufM AsnLen
  | bmpString => BMPString.bEncContent
  | universalString => UniversalString.bEncContent
  | utf8String => UTF8String.bEncContent

def WideType.bDecContent : WideType → Nat → AsnTag → AsnLen → AsnLen → BufM (List WChar × AsnLen)
  | bmpString => BMPString.bDecContent
  | universalString => UniversalString.bDecContent
  | utf8String => UTF8String.bDecContent

/-- A string comes back from primitive contents, and UTF-8 has the shortest form of it. -/
def WideTrips (type : WideType) (str : List WChar) : Prop :=
  (∀ turns tagId, tagIsCons tagId = false →
    ContentTrips (type.bEncContent str) (type.bDecContent turns tagId) str) ∧
  (type = .utf8String →
    WritesFront (type.bEncContent str) (str.flatMap fun wc => utf8Form wc.toNat))

theorem followingOf_of_le {wc : WChar} (range : wc.toNat ≤ 0x10FFFF) : followingOf wc < 6 := by
  rw [followingOf_eq]
  split_ifs <;> omega

theorem utf8_writes {str : List WChar} (fits : ∀ wc ∈ str, followingOf wc < 6) :
    WritesFront (UTF8String.bEncContent str) (str.flatMap encodedOf) := by
  have writes := writesFront_putSegRvs (str.flatMap encodedOf)
  rw [UTF8String.bEncContent, getAsUTF8_eq fits, ofExcept_ok, pure_bind]
  exact writes

/-- Octets of primitive contents are converted up to the first zero. -/
theorem utf8_reads (turns : Nat) {tagId : AsnTag} (primitive : tagIsCons tagId = false) {b : AsnBuf}
    {octets data : List UInt8} (sound : b.Sound) (unread : b.unread = octets ++ data) (n : AsnLen) :
    ∃ b', b'.unread = data ∧
      ∀ str b'', (UTF8String.bDecContent turns tagId (.ofNat octets.length) n).run b =
          .ok (str, n + .ofNat octets.length) b'' ↔
        setWide (octets.takeWhile (· != 0)) = .ok str ∧ b'' = b' := by
  obtain ⟨b', ran, left⟩ := wideContent_reads "UTF8String" turns primitive sound unread n
  refine ⟨b', left, fun str b'' => ?_⟩
  rw [UTF8String.bDecContent, run_bind_of_ok ran]
  dsimp only
  cases converted : setWide (octets.takeWhile (· != 0)) with
  | error e => exact iff_of_false nofun nofun
  | ok chars =>
    constructor
    · intro same
      cases same
      exact ⟨rfl, rfl⟩
    · rintro ⟨same, rfl⟩
      cases same
      rfl

theorem encodedOf_zero {wc : WChar} (zero : wc = 0) : encodedOf wc = [0] := by
  subst zero
  decide

/-- Characters are converted back from their octets exactly if none of them is a zero and an
`unsigned int` counts the octets. -/
theorem setWide_encodedOf {str : List WChar} (fits : ∀ wc ∈ str, followingOf wc < 6) :
    setWide ((str.flatMap encodedOf).takeWhile (· != 0)) = .ok str ↔
      (∀ wc ∈ str, wc ≠ 0) ∧ (str.flatMap encodedOf).length < 2 ^ 32 := by
  have each : ∀ s ∈ str.map encodedOf, IsSequence s := by
    intro s isIn
    obtain ⟨wc, inside, rfl⟩ := List.mem_map.1 isIn
    exact (isSequence_encodedOf (fits wc inside)).1
  rw [setWide_iff, List.flatMap_def]
  constructor
  · rintro ⟨seqs, those, split, same⟩
    -- The sequences that are read are the first ones, and there are as many of them.
    have begins : seqs.flatten <+: (str.map encodedOf).flatten := by
      rw [← split]
      exact (List.take_prefix ..).trans (List.takeWhile_prefix _)
    have count : seqs.length = (str.map encodedOf).length := by
      rw [same, List.length_map, List.length_map]
    have all := eq_of_flatten_prefix IsSequence.eq_of_prefix those each count begins
    rw [all] at split
    have lengths := congrArg List.length split
    have whole := (List.takeWhile_prefix (· != 0) (l := (str.map encodedOf).flatten)).length_le
    have less := Nat.mod_lt (((str.map encodedOf).flatten.takeWhile (· != 0)).length)
      (show 0 < 2 ^ 32 by decide)
    rw [List.length_take] at lengths
    have uncut : (str.map encodedOf).flatten.takeWhile (· != 0) = (str.map encodedOf).flatten :=
      (List.takeWhile_prefix _).eq_of_length (by omega)
    refine ⟨fun wc isIn zero => ?_, by omega⟩
    have octet : (0 : UInt8) ∈ (str.map encodedOf).flatten :=
      List.mem_flatten_of_mem (List.mem_map_of_mem isIn) (by rw [encodedOf_zero zero]; simp)
    rw [← uncut] at octet
    simpa using List.mem_takeWhile_imp octet
  · rintro ⟨nonzero, counted⟩
    have uncut : (str.map encodedOf).flatten.takeWhile (· != 0) = (str.map encodedOf).flatten := by
      refine List.takeWhile_eq_self_iff.mpr fun c isIn => ?_
      obtain ⟨s, isIn, among⟩ := List.mem_flatten.1 isIn
      obtain ⟨wc, inside, rfl⟩ := List.mem_map.1 isIn
      simpa using ne_zero_of_mem_encodedOf (fits wc inside) (nonzero wc inside) among
    refine ⟨str.map encodedOf, each, ?_, ?_⟩
    · rw [uncut, Nat.mod_eq_of_lt counted, List.take_length]
    · rw [List.map_map]
      refine (List.map_id str).symm.trans (List.map_congr_left fun wc isIn => ?_)
      rw [Function.comp_apply, (isSequence_encodedOf (fits wc isIn)).2.1]
      exact UInt32.ofNat_toNat.symm

/-- A string makes the trip exactly if its octets are converted back. -/
theorem utf8_trips_iff {str : List WChar} (fits : ∀ wc ∈ str, followingOf wc < 6)
    (held : (str.flatMap encodedOf).length < 2 ^ 63) :
    (∀ turns tagId, tagIsCons tagId = false →
      ContentTrips (UTF8String.bEncContent str) (UTF8String.bDecContent turns tagId) str) ↔
    setWide ((str.flatMap encodedOf).takeWhile (· != 0)) = .ok str := by
  have writes := utf8_writes fits
  constructor
  · intro trips
    obtain ⟨b, b'', sound, unread, ran⟩ := (trips 0 0 rfl).decoded writes held
    rw [← List.append_nil (str.flatMap encodedOf)] at unread
    have primitive : tagIsCons 0 = false := rfl
    obtain ⟨b', -, reads⟩ := utf8_reads 0 primitive sound unread 0
    rw [UInt64.zero_add] at reads
    exact ((reads str b'').1 ran).1
  · intro converted turns tagId primitive
    refine writes.trips fun b data n sound unread => ?_
    obtain ⟨b', left, reads⟩ := utf8_reads turns primitive sound unread n
    exact ⟨b', (reads str b').2 ⟨converted, rfl⟩, left⟩

/--
Strings of wide characters come back, and UTF-8 is in its shortest form, exactly if a string of
UTF-8 has no zero and no character that the table gives five octets, and an `unsigned int` counts
its octets.
-/
theorem wideTrips_iff (type : WideType) (str : List WChar) (range : ∀ wc ∈ str, type.InRange wc)
    (held : type = .utf8String → 6 * str.length < 2 ^ 63) :
    WideTrips type str ↔ (type = .utf8String →
      (∀ wc ∈ str, wc ≠ 0 ∧ wc.toNat ≤ 0x1FFFF) ∧
        (str.flatMap fun wc => utf8Form wc.toNat).length < 2 ^ 32) := by
  cases type with
  | bmpString =>
    refine iff_of_true ⟨fun turns tagId primitive => ?_, nofun⟩ nofun
    refine wide_trips "BMPString" (by decide) turns primitive fun wc isIn => ?_
    have small : wc.toNat < 2 ^ 16 := range wc isIn
    exact ⟨by omega, by omega⟩
  | universalString =>
    refine iff_of_true ⟨fun turns tagId primitive => ?_, nofun⟩ nofun
    refine wide_trips "UniversalString" (by decide) turns primitive fun wc isIn => ?_
    have small : wc.toNat < 2 ^ 31 := range wc isIn
    exact ⟨small, by omega⟩
  | utf8String =>
    have fits : ∀ wc ∈ str, followingOf wc < 6 := fun wc isIn => followingOf_of_le (range wc isIn)
    have most := (length_flatMap_encodedOf fits).2
    have room := held rfl
    have trips := utf8_trips_iff fits (by omega)
    rw [setWide_encodedOf fits] at trips
    constructor
    · rintro ⟨back, form⟩ -
      obtain ⟨nonzero, counted⟩ := trips.1 back
      have same := (utf8_writes fits).unique (form rfl)
      have small := small_of_utf8Form fits same
      exact ⟨fun wc isIn => ⟨nonzero wc isIn, small wc isIn⟩, same ▸ counted⟩
    · intro condition
      obtain ⟨each, counted⟩ := condition rfl
      have same : str.flatMap encodedOf = str.flatMap fun wc => utf8Form wc.toNat :=
        List.flatMap_congr fun wc isIn => encodedOf_eq_utf8Form (each wc isIn).2
      rw [← same] at counted
      exact ⟨trips.2 ⟨fun wc isIn => (each wc isIn).1, counted⟩,
        fun _ => same ▸ utf8_writes fits⟩

theorem wideTrips_iff_euro : WideTrips .utf8String [0x65, 0x20AC, 0x1D11E] :=
  (wideTrips_iff .utf8String [0x65, 0x20AC, 0x1D11E] (by simp [WideType.InRange])
    fun _ => by decide).2 fun _ => ⟨by simp, by decide⟩

/-- The first character behind the fourth row is given five octets. -/
theorem not_wideTrips :
    ¬ ∀ (type : WideType) (str : List WChar), (∀ wc ∈ str, type.InRange wc) →
      WideTrips type str := by
  intro trips
  obtain ⟨-, form⟩ := trips .utf8String [0x20000] (by simp [WideType.InRange])
  have fits : ∀ wc ∈ ([0x20000] : List WChar), followingOf wc < 6 :=
    List.forall_mem_singleton.2 (by decide)
  have same := (utf8_writes fits).unique (form rfl)
  exact absurd (congrArg List.length same) (by decide)

end Esnacc.Cxx
