import Esnacc.Ber.Oids

/-! Relative object identifiers, and the reads of all routines that walk along encoded arcs. -/

namespace Esnacc

open Lib

/-- A relative identifier is kept encoded, too. -/
abbrev AsnRelativeOid := AsnOcts

/-- Read the contents of a RELATIVE-OID. -/
def bDecAsnRelativeOidContent {β : Type} [GenBuf β] : ContentDecoder β AsnRelativeOid :=
  fun _tagId len bytesDecoded =>
    if len == INDEFINITE_LEN then
      asn1Error "BDecAsnRelativeOidContent: ERROR - indefinite length on primitive\n" (-66)
    else do
      let size ← asn1Alloc len
      let octs ← bufCopy size len
      if ← bufReadError then
        asn1Error "BDecAsnRelativeOidContent: ERROR - decoded past end of data\n" (-21)
      else return (⟨len, octs.take len.toNat⟩, bytesDecoded + len)

/-- The length of the encoded identifier; a null pointer has none. -/
def encodedRelativeOidLen (oid : List Int64) : AsnLen :=
  arcsLen 0 oid

/-- Fill an allocated identifier; nothing is written for a single arc here either. -/
def buildEncodedRelativeOid : List Int64 → AsnRelativeOid → Option AsnRelativeOid
  | [], _ => none
  | [_], result => some result
  | oid, result => writeOcts result (oid.flatMap writeArc)

/-- Decode the octets to linked arcs. The numbers are read as `int`s. -/
def unbuildEncodedRelativeOid (eoid : AsnRelativeOid) : Option OID := do
  let (arcNum, _, _) ← readArc eoid.octetLen eoid.octs 0 0
  -- The loop starts over at the second octet, wherever the first arc ended.
  let arcs ← readArcs eoid.octetLen (eoid.octs.drop 1) 1
  let next := if arcs.isEmpty then OID.fresh else .linked arcs
  return .node arcNum.toInt32.toInt64 next

/-- Print the arcs of an identifier. The numbers are read as `unsigned int`s. -/
def printAsnRelativeOid (v : AsnRelativeOid) : Option (List Printed) := do
  let arcs ← readArcs v.octetLen v.octs 0
  return .text "\x7b" :: arcs.flatMap (fun arcNum => [.text " ", .unsigned arcNum.toNat]) ++
    [.text "\x7d"]

/-! ## Round trips -/

/-- The octets of a relative identifier, as they are measured, written and decoded. -/
structure RelativeOidCoded (oid : List Int64) (written : List UInt8) : Prop where
  exactly : written.length = (encodedRelativeOidLen oid).toNat
  built : ∀ result : AsnRelativeOid, (encodedRelativeOidLen oid).toNat ≤ result.octs.length →
    buildEncodedRelativeOid oid result = some ⟨encodedRelativeOidLen oid,
      written ++ result.octs.drop (encodedRelativeOidLen oid).toNat⟩
  decoded : unbuildEncodedRelativeOid ⟨encodedRelativeOidLen oid, written⟩ = some (.ofArcs oid)

/-- A relative identifier comes back as it was. -/
def RelativeOidRoundTrips (oid : List Int64) : Prop :=
  ∃ written, RelativeOidCoded oid written

/-- What the routines for relative identifiers can deal with. -/
structure RelativeOidHandled (first : Int64) (rest : List Int64) : Prop where
  /-- Two arcs are asked for, as in other identifiers. -/
  several : rest ≠ []
  /-- The second arc is read from the second octet. -/
  short : first.toInt < 128
  /-- Octets are counted by an `int`. -/
  length : groupsLength ((first :: rest).map (·.toInt.toNat)) < 2 ^ 31

section

variable {first : Int64} {rest : List Int64}

theorem relative_written {oid : List Int64} (nonneg : ∀ arc ∈ oid, 0 ≤ arc.toInt) :
    oid.flatMap writeArc = (oid.map (·.toInt.toNat)).flatMap groupOctets := by
  rw [List.flatMap_map]
  apply List.flatMap_congr
  intro arc among
  exact writeArc_eq (nonneg arc among)

theorem build_two (first second : Int64) (further : List Int64) (result : AsnRelativeOid) :
    buildEncodedRelativeOid (first :: second :: further) result =
      writeOcts result ((first :: second :: further).flatMap writeArc) := rfl

/-- A relative identifier that can be dealt with comes back as it was. -/
theorem RelativeOidHandled.roundTrips
    (domain : ∀ arc ∈ first :: rest, 0 ≤ arc.toInt ∧ arc.toInt < 2 ^ 31)
    (handled : RelativeOidHandled first rest) : RelativeOidRoundTrips (first :: rest) := by
  have nonneg : ∀ arc ∈ first :: rest, 0 ≤ arc.toInt := fun arc among => (domain arc among).1
  have written := relative_written nonneg
  have few := handled.length
  have count : ((first :: rest).flatMap writeArc).length =
      groupsLength ((first :: rest).map (·.toInt.toNat)) := by
    rw [written, length_flatMap_groupOctets]
  have zero : (0 : UInt64).toNat = 0 := rfl
  have measured : (encodedRelativeOidLen (first :: rest)).toNat =
      groupsLength ((first :: rest).map (·.toInt.toNat)) := by
    rw [encodedRelativeOidLen, toNat_arcsLen _ nonneg, zero]
    omega
  obtain ⟨second, further, rfl⟩ := List.exists_cons_of_ne_nil handled.several
  refine ⟨(first :: second :: further).flatMap writeArc, count.trans measured.symm, ?_, ?_⟩
  · intro result room
    rw [measured, ← count] at room
    rw [build_two, writeOcts, if_pos room, measured, ← count, count, ← measured,
      UInt64.ofNat_toNat]
  · -- The first arc is one octet, so the others stand where the loop looks for them.
    have covered := toInt_intOf_of_lt (n := encodedRelativeOidLen (first :: second :: further))
      (by omega)
    have small := handled.short
    have lower := nonneg first List.mem_cons_self
    have single := leadOctets_of_lt (n := first.toInt.toNat) (by omega)
    have one : (groupOctets first.toInt.toNat).length = 1 := by
      rw [length_groupOctets, single]
      rfl
    have split : groupsLength ((first :: second :: further).map (·.toInt.toNat)) =
        1 + groupsLength ((second :: further).map (·.toInt.toNat)) := by
      rw [← one]
      rfl
    have head := readArc_groupOctets (encodedRelativeOidLen (first :: second :: further)) 0
      first.toInt.toNat (((second :: further).map (·.toInt.toNat)).flatMap groupOctets) (by omega)
    have tail := readArcs_flatMap (encodedRelativeOidLen (first :: second :: further))
      ((second :: further).map (·.toInt.toNat)) 1 (by omega)
    have behind : (groupOctets first.toInt.toNat ++
        ((second :: further).map (·.toInt.toNat)).flatMap groupOctets).drop 1 =
          ((second :: further).map (·.toInt.toNat)).flatMap groupOctets := by
      rw [← one, List.drop_left]
    have whole := map_toInt64_ofNat nonneg fun arc among => (domain arc among).2
    rw [List.map_cons, List.map_cons, List.map_cons, List.cons.injEq] at whole
    rw [written, List.map_cons, List.flatMap_cons]
    simp only [unbuildEncodedRelativeOid, head, behind, tail, Option.bind_eq_bind,
      Option.bind_some, Option.pure_def, Option.some.injEq, OID.ofArcs, OID.node.injEq]
    refine ⟨whole.1, ?_⟩
    exact congrArg OID.ofArcs whole.2

/-- The arcs of a relative identifier that are read back, and what the length is then. -/
theorem RelativeOidCoded.read {written : List UInt8}
    (domain : ∀ arc ∈ first :: rest, 0 ≤ arc.toInt ∧ arc.toInt < 2 ^ 31)
    (coded : RelativeOidCoded (first :: rest) written) :
    rest ≠ [] ∧ written = (first :: rest).flatMap writeArc ∧ ∃ arcs, arcs ≠ [] ∧
      readArcs (encodedRelativeOidLen (first :: rest)) (written.drop 1) 1 = some arcs ∧
      arcs.map (·.toNat) = rest.map (·.toInt.toNat) := by
  have several : rest ≠ [] := by
    intro single
    subst single
    -- For a single arc the length is left as it was.
    have kept := coded.built ⟨encodedRelativeOidLen [first] + 1,
      List.replicate (encodedRelativeOidLen [first]).toNat 0⟩ (by rw [List.length_replicate])
    rw [buildEncodedRelativeOid, Option.some.injEq, AsnOcts.mk.injEq] at kept
    have one := congrArg UInt64.toNat kept.1
    have bound := UInt64.toNat_lt (encodedRelativeOidLen [first])
    rw [UInt64.toNat_add] at one
    change ((encodedRelativeOidLen [first]).toNat + 1) % 2 ^ 64 = _ at one
    omega
  obtain ⟨second, further, rfl⟩ := List.exists_cons_of_ne_nil several
  refine ⟨several, ?_, ?_⟩
  · have built := coded.built ⟨0, List.replicate (encodedRelativeOidLen _).toNat 0⟩
      (by rw [List.length_replicate])
    rw [build_two] at built
    exact eq_of_writeOcts coded.exactly built
  · have decoded := coded.decoded
    simp only [unbuildEncodedRelativeOid, Option.bind_eq_bind, Option.bind_eq_some_iff,
      Option.pure_def, Option.some.injEq, OID.ofArcs, OID.node.injEq, Prod.exists] at decoded
    obtain ⟨v, i, more, -, arcs, tail, -, linked⟩ := decoded
    obtain ⟨third, others, rfl⟩ : ∃ third others, arcs = third :: others := by
      cases arcs with
      | nil => cases linked
      | cons third others => exact ⟨third, others, rfl⟩
    refine ⟨_, List.cons_ne_nil _ _, tail, ?_⟩
    have same : (third :: others).map (fun a => a.toInt32.toInt64) = second :: further :=
      ofArcs_injective linked
    exact map_toNat_of_linked (fun arc among => (domain arc (List.mem_cons_of_mem _ among)).1) same

/-- A relative identifier that comes back as it was could be dealt with. -/
theorem RelativeOidRoundTrips.handled
    (domain : ∀ arc ∈ first :: rest, 0 ≤ arc.toInt ∧ arc.toInt < 2 ^ 31)
    (back : RelativeOidRoundTrips (first :: rest)) : RelativeOidHandled first rest := by
  obtain ⟨written, coded⟩ := back
  obtain ⟨several, rfl, arcs, some_arc, tail, numbers⟩ := coded.read domain
  have nonneg : ∀ arc ∈ first :: rest, 0 ≤ arc.toInt := fun arc among => (domain arc among).1
  have octets := relative_written nonneg
  have small := domain first List.mem_cons_self
  have count : (encodedRelativeOidLen (first :: rest)).toNat =
      (groupOctets first.toInt.toNat).length + groupsLength (rest.map (·.toInt.toNat)) := by
    rw [← coded.exactly, octets, length_flatMap_groupOctets]
    rfl
  have inside : ((1 : Nat) : Int) < (intOf (encodedRelativeOidLen (first :: rest))).toInt := by
    by_contra outside
    rw [readArcs, if_neg outside] at tail
    cases tail
    exact some_arc rfl
  have five := length_groupOctets_le (n := first.toInt.toNat) (k := 5) (by decide) (by omega)
  have most := groupsLength_of_readArcs (by omega) tail
  rw [numbers] at most
  -- A length that does not fit an `int` is a smaller one there.
  have narrowed := toInt_intOf (encodedRelativeOidLen (first :: rest))
  have bound := UInt64.toNat_lt (encodedRelativeOidLen (first :: rest))
  have length : (encodedRelativeOidLen (first :: rest)).toNat < 2 ^ 31 := by
    rw [Int.bmod_def] at narrowed
    split at narrowed <;> omega
  have covered := toInt_intOf_of_lt length
  refine ⟨several, ?_, ?_⟩
  · by_contra long
    -- The loop over the other arcs then starts inside the first one, and finds one more.
    obtain ⟨c, lead, leads⟩ : ∃ c lead, leadOctets first.toInt.toNat = c :: lead := by
      rw [leadOctets_of_le (by omega)]
      exact List.exists_cons_of_ne_nil (by simp)
    have set : ∀ c ∈ lead, 128 ≤ c.toNat := fun c' among =>
      le_of_mem_leadOctets (n := first.toInt.toNat) (by
        rw [leads]
        exact List.mem_cons_of_mem _ among)
    have clear : (UInt8.ofNat (first.toInt.toNat % 128)).toNat < 128 := by
      rw [toNat_lastGroup]
      omega
    have behind : ((first :: rest).flatMap writeArc).drop 1 =
        lead ++ UInt8.ofNat (first.toInt.toNat % 128) ::
          (rest.map (·.toInt.toNat)).flatMap groupOctets := by
      rw [octets, List.map_cons, List.flatMap_cons, groupOctets, leads]
      simp
    rw [length_groupOctets, leads, List.length_cons] at count
    have head := readArc_leads (encodedRelativeOidLen (first :: rest)) 1 lead set clear
      ((rest.map (·.toInt.toNat)).flatMap groupOctets) 0 (by omega)
    have others := readArcs_flatMap (encodedRelativeOidLen (first :: rest))
      (rest.map (·.toInt.toNat)) (1 + lead.length + 1) (by push_cast; omega)
    rw [behind, readArcs_of_some inside head, others, Option.map_some, Option.some.injEq] at tail
    have more := congrArg List.length numbers
    rw [← tail] at more
    simp at more
  · rw [List.map_cons, groupsLength, List.map_cons, List.sum_cons]
    rw [count, groupsLength] at length
    exact length

/-- A relative identifier is measured, written and decoded as what it is exactly when it has two arcs
or more, the first one is below 128, and its length fits an `int`. -/
theorem relativeOid_roundTrips_iff
    (domain : ∀ arc ∈ first :: rest, 0 ≤ arc.toInt ∧ arc.toInt < 2 ^ 31) :
    RelativeOidRoundTrips (first :: rest) ↔ RelativeOidHandled first rest :=
  ⟨fun back => back.handled domain, fun handled => handled.roundTrips domain⟩

end

theorem relativeOid_roundTrips_iff_two : RelativeOidRoundTrips [5, 8571] := by
  have one := length_groupOctets_le (n := 5) (k := 1) (by decide) (by decide)
  have two := length_groupOctets_le (n := 8571) (k := 2) (by decide) (by decide)
  have length : groupsLength ([(5 : Int64), 8571].map (·.toInt.toNat)) < 2 ^ 31 := by
    change (groupOctets 5).length + ((groupOctets 8571).length + 0) < 2 ^ 31
    omega
  have domain : ∀ arc ∈ [(5 : Int64), 8571], 0 ≤ arc.toInt ∧ arc.toInt < 2 ^ 31 :=
    List.forall_mem_cons.mpr ⟨by decide, List.forall_mem_singleton.mpr (by decide)⟩
  exact (relativeOid_roundTrips_iff domain).mpr ⟨List.cons_ne_nil _ _, by decide, length⟩

/-- Nothing is written for a single arc. -/
theorem not_relativeOid_roundTrips : ¬ ∀ first rest,
    (∀ arc ∈ first :: rest, 0 ≤ arc.toInt ∧ arc.toInt < 2 ^ 31) →
      RelativeOidRoundTrips (first :: rest) := by
  intro back
  have domain : ∀ arc ∈ [(1 : Int64)], 0 ≤ arc.toInt ∧ arc.toInt < 2 ^ 31 := by
    intro arc among
    rw [List.mem_singleton.mp among]
    decide
  exact ((back 1 [] domain).handled domain).several rfl

/-! ## Walking along decoded octets -/

/-- The last octet is there, and its top bit is clear. -/
def EndsClear (octs : List UInt8) : Prop :=
  ∃ c, octs.getLast? = some c ∧ c < 0x80

/-- Every routine that walks along the arcs reads only octets that are there. -/
structure WalksInside (v : AsnOcts) : Prop where
  unbuild : (unbuildEncodedOid v).isSome
  print : (printAsnOid v).isSome
  unbuildRelative : (unbuildEncodedRelativeOid v).isSome
  printRelative : (printAsnRelativeOid v).isSome

section

variable {octetLen : UInt64} {octs : List UInt8} {i : Nat} {acc : UInt32}

theorem endsClear_append {lead octs : List UInt8} (some : octs ≠ []) :
    EndsClear (lead ++ octs) ↔ EndsClear octs := by
  rw [EndsClear, EndsClear, List.getLast?_append_of_ne_nil _ some]

variable (acc) in
/-- An arc is read up to the first octet whose top bit is clear, and nothing is read without one. -/
theorem readArc_whole (whole : (i : Int) + octs.length = (intOf octetLen).toInt) :
    (readArc octetLen octs i acc = none ∧ ∀ c ∈ octs, 128 ≤ c.toNat) ∨
      ∃ lead last rest v, octs = lead ++ last :: rest ∧ last.toNat < 128 ∧
        readArc octetLen octs i acc = some (v, i + lead.length + 1, rest) := by
  induction octs generalizing i acc with
  | nil => exact .inl ⟨rfl, fun c among => absurd among List.not_mem_nil⟩
  | cons oct octs ih =>
    rw [List.length_cons] at whole
    by_cases more : oct &&& 0x80 ≠ 0
    · have step : readArc octetLen (oct :: octs) i acc =
          readArc octetLen octs (i + 1) ((acc <<< 7) + (oct &&& 0x7f).toUInt32) := by
        rw [readArc, if_pos ⟨by omega, more⟩]
      rcases ih ((acc <<< 7) + (oct &&& 0x7f).toUInt32) (i := i + 1)
        (by push_cast; omega) with ⟨none, set⟩ | ⟨lead, last, rest, v, rfl, clear, read⟩
      · left
        refine ⟨step.trans none, fun c among => ?_⟩
        rcases List.mem_cons.mp among with rfl | behind
        · exact and_top_ne_zero.mp more
        · exact set c behind
      · right
        refine ⟨oct :: lead, last, rest, v, rfl, clear, ?_⟩
        rw [step, read, List.length_cons, Nat.add_right_comm i 1]
        rfl
    · right
      refine ⟨[], oct, octs, _, rfl, ?_, by rw [readArc, if_neg (fun both => more both.2)]; rfl⟩
      rw [and_top_ne_zero] at more
      omega

theorem endsClear_behind {lead rest : List UInt8} {last : UInt8} (clear : last.toNat < 128) :
    EndsClear (lead ++ last :: rest) ↔ rest = [] ∨ EndsClear rest := by
  cases rest with
  | nil =>
    rw [endsClear_append (List.cons_ne_nil _ _)]
    exact iff_of_true ⟨last, rfl, clear⟩ (.inl rfl)
  | cons c rest =>
    rw [List.append_cons, endsClear_append (List.cons_ne_nil _ _)]
    simp

theorem not_endsClear (set : ∀ c ∈ octs, 128 ≤ c.toNat) : ¬ EndsClear octs := by
  rintro ⟨c, last, clear⟩
  have above := set c (List.mem_of_getLast? last)
  rw [UInt8.lt_iff_toNat_lt] at clear
  change c.toNat < 128 at clear
  omega

/-- The arcs are read inside the octets exactly when the last octet is clear. -/
theorem readArcs_whole (whole : (i : Int) + octs.length = (intOf octetLen).toInt) :
    (readArcs octetLen octs i).isSome ↔ octs = [] ∨ EndsClear octs := by
  fun_induction readArcs octetLen octs i with
  | case1 octs i inside failed =>
    rcases readArc_whole 0 whole with ⟨-, set⟩ | ⟨lead, last, rest, v, -, -, read⟩
    · have some : octs ≠ [] := by
        rintro rfl
        rw [List.length_nil] at whole
        omega
      exact iff_of_false (by simp) (not_or.mpr ⟨some, not_endsClear set⟩)
    · rw [failed] at read
      cases read
  | case2 octs i inside v i' rest found ih =>
    rcases readArc_whole 0 whole with ⟨none, -⟩ | ⟨lead, last, rest', v', rfl, clear, read⟩
    · rw [found] at none
      cases none
    · rw [found] at read
      cases read
      rw [List.length_append, List.length_cons] at whole
      rw [Option.isSome_map, ih (by push_cast at whole ⊢; omega), endsClear_behind clear]
      simp
  | case3 octs i outside =>
    have none : octs = [] := List.length_eq_zero_iff.mp (by omega)
    exact iff_of_true rfl (.inl none)

/-- A first arc and those behind it are read inside the octets exactly when the last is clear. -/
theorem readArc_readArcs_whole {v : UInt32} {i' : Nat} {rest : List UInt8}
    (whole : (octs.length : Int) = (intOf octetLen).toInt)
    (read : readArc octetLen octs 0 0 = some (v, i', rest)) :
    (readArcs octetLen rest i').isSome ↔ EndsClear octs := by
  have start : ((0 : Nat) : Int) + octs.length = (intOf octetLen).toInt := by omega
  rcases readArc_whole 0 start with
    ⟨none, -⟩ | ⟨lead, last, rest', v', rfl, clear, read'⟩
  · rw [none] at read
    cases read
  · rw [read'] at read
    cases read
    rw [List.length_append, List.length_cons] at whole
    rw [readArcs_whole (by push_cast at whole ⊢; omega), endsClear_behind clear]

theorem readArc_of_endsClear (whole : (octs.length : Int) = (intOf octetLen).toInt)
    (ends : EndsClear octs) : ∃ v i rest, readArc octetLen octs 0 0 = some (v, i, rest) := by
  have start : ((0 : Nat) : Int) + octs.length = (intOf octetLen).toInt := by omega
  rcases readArc_whole 0 start with
    ⟨-, set⟩ | ⟨lead, last, rest, v, -, -, read⟩
  · exact absurd ends (not_endsClear set)
  · exact ⟨_, _, _, read⟩

/-- The walks stay inside octets of any number exactly when the last one is clear. -/
theorem walksInside_iff_endsClear {v : AsnOcts}
    (whole : (v.octs.length : Int) = (intOf v.octetLen).toInt) :
    WalksInside v ↔ EndsClear v.octs := by
  constructor
  · intro inside
    have unbuilt := inside.unbuild
    rw [unbuildEncodedOid] at unbuilt
    cases head : readArc v.octetLen v.octs 0 0 with
    | none =>
      rw [head] at unbuilt
      cases unbuilt
    | some read =>
      obtain ⟨arc, i, rest⟩ := read
      rw [← readArc_readArcs_whole whole head]
      rw [head] at unbuilt
      cases tail : readArcs v.octetLen rest i with
      | none =>
        simp [tail] at unbuilt
      | some => rfl
  · intro ends
    obtain ⟨arc, i, rest, head⟩ := readArc_of_endsClear whole ends
    obtain ⟨arcs, tail⟩ := Option.isSome_iff_exists.mp
      ((readArc_readArcs_whole whole head).mpr ends)
    have start : ((0 : Nat) : Int) + v.octs.length = (intOf v.octetLen).toInt := by omega
    have all := (readArcs_whole start).mpr (.inr ends)
    have behind : (readArcs v.octetLen v.octs.tail 1).isSome := by
      obtain ⟨c, last, clear⟩ := ends
      cases octets : v.octs with
      | nil =>
        rw [octets] at last
        cases last
      | cons first others =>
        rw [octets] at whole last
        rw [List.length_cons] at whole
        rw [List.tail_cons, readArcs_whole (by push_cast at whole ⊢; omega)]
        cases others with
        | nil => exact .inl rfl
        | cons second others => exact .inr ⟨c, last, clear⟩
    obtain ⟨arcs', all⟩ := Option.isSome_iff_exists.mp all
    obtain ⟨others, behind⟩ := Option.isSome_iff_exists.mp behind
    exact ⟨by simp [unbuildEncodedOid, head, tail], by simp [printAsnOid, head, tail],
      by simp [unbuildEncodedRelativeOid, head, behind], by simp [printAsnRelativeOid, all]⟩

variable {β : Type} [GenBuf β] {tag : AsnTag} {len n m : AsnLen} {s s' : DecState β}

/-- The octets of a decoded identifier are as many as its length says. -/
theorem oid_whole {v : AsnOid} (accepted : (bDecAsnOidContent tag len n).run s = .ok (v, m) s') :
    (v.octs.length : Int) = (intOf v.octetLen).toInt := by
  unfold bDecAsnOidContent at accepted
  split at accepted
  · simp at accepted
  · obtain ⟨size, t, allocated, accepted⟩ := run_bind_eq_ok.mp accepted
    obtain ⟨octs, u, copied, accepted⟩ := run_bind_eq_ok.mp accepted
    obtain ⟨-, -, same⟩ := checked_eq_ok.mp accepted
    simp only [Prod.mk.injEq] at same
    obtain ⟨rfl, -⟩ := same
    have nonneg := asn1Alloc_nonneg allocated
    have block := asn1Alloc_size allocated
    have filled := bufCopy_size copied
    have narrowed := toInt_intOf len
    have below : (len.toNat : Int).bmod (2 ^ 32) ≤ len.toNat := by
      rw [Int.bmod_def]
      split <;> omega
    change ((octs.take len.toNat).length : Int) = (intOf len).toInt
    rw [List.length_take]
    omega

/-- The contents of both kinds of identifiers are decoded alike. -/
theorem oid_accepted_of_relativeOid {v : AsnOcts}
    (accepted : (bDecAsnRelativeOidContent tag len n).run s = .ok (v, m) s') :
    (bDecAsnOidContent tag len n).run s = .ok (v, m) s' := by
  unfold bDecAsnRelativeOidContent at accepted
  unfold bDecAsnOidContent
  split at accepted
  · simp at accepted
  · rename_i definite
    rw [if_neg definite]
    obtain ⟨size, t, allocated, accepted⟩ := run_bind_eq_ok.mp accepted
    obtain ⟨octs, u, copied, accepted⟩ := run_bind_eq_ok.mp accepted
    -- Only what is reported for a failed read differs.
    exact run_bind_eq_ok.mpr ⟨size, t, allocated,
      run_bind_eq_ok.mpr ⟨octs, u, copied, checked_eq_ok.mpr (checked_eq_ok.mp accepted)⟩⟩

/-- Walking along a decoded identifier stays inside its octets exactly when the last octet is there
and its top bit is clear. -/
theorem walksInside_iff {v : AsnOcts}
    (accepted : (bDecAsnOidContent tag len n).run s = .ok (v, m) s' ∨
      (bDecAsnRelativeOidContent tag len n).run s = .ok (v, m) s') :
    WalksInside v ↔ EndsClear v.octs :=
  walksInside_iff_endsClear (accepted.elim oid_whole fun relative =>
    oid_whole (oid_accepted_of_relativeOid relative))

end

theorem walksInside_iff_one_octet : ∃ v m s',
    (bDecAsnOidContent 0 1 0).run
      (⟨sBufInstallData (fun _ => 42) 4096 1, initialGlobals⟩ : DecState SBuf) = .ok (v, m) s' ∧
      (WalksInside v ↔ EndsClear v.octs) := by
  obtain ⟨v, m, s', accepted⟩ : ∃ v m s', (bDecAsnOidContent 0 1 0).run
      (⟨sBufInstallData (fun _ => 42) 4096 1, initialGlobals⟩ : DecState SBuf) =
        .ok (v, m) s' := ⟨_, _, _, rfl⟩
  exact ⟨v, m, s', accepted, walksInside_iff (.inl accepted)⟩

/-- An identifier without octets is accepted, and its first octet is read. -/
theorem not_walksInside : ¬ ∀ (s s' : DecState SBuf) (len m : AsnLen) (v : AsnOid),
    (bDecAsnOidContent 0 len 0).run s = .ok (v, m) s' → WalksInside v := by
  intro inside
  have empty := inside ⟨sBufInstallData (fun _ => 42) 4096 0, initialGlobals⟩ _ 0 _ _ rfl
  obtain ⟨c, last, -⟩ := (walksInside_iff_endsClear rfl).mp empty
  cases last

end Esnacc
