import Esnacc.Lib.TwosComplement
import Esnacc.Python.Tlv

/-! The contents of integers of the Python library, of any size. -/

namespace Esnacc.Python

open Lib

/-! ## Peeling octets off -/

/-- The octets that a number is peeled to stand for it, and the first one is the sign. -/
theorem intOctets_eq (value : Int) (octets : List Nat) :
    ∃ (front : List UInt8) (last : Int), intOctets value octets =
        (last, front.map UInt8.toNat ++ octets) ∧ front ≠ [] ∧ signedOf front = value ∧
      (last = 0 → front.headD 0 = 0) := by
  -- The induction is on the shifts; each of them puts one octet in front.
  fun_induction intOctets value octets with
  | case1 value octets low ends =>
    rcases ends with rfl | rfl
    · exact ⟨[0], 0, rfl, List.cons_ne_nil _ _, rfl, fun _ => rfl⟩
    · exact ⟨[0xFF], -1, rfl, List.cons_ne_nil _ _, rfl, fun zero => absurd zero (by decide)⟩
  | case2 value octets low more ih =>
    obtain ⟨front, last, ran, some, number, sign⟩ := ih
    have digit : (UInt8.ofNat (value % 256).toNat).toNat = (value % 256).toNat :=
      UInt8.toNat_ofNat_of_lt' (by rw [UInt8.size]; omega)
    refine ⟨front ++ [.ofNat (value % 256).toNat], last, ?_, by simp, ?_, fun zero => ?_⟩
    · rw [ran, List.map_append, List.map_singleton, digit, List.append_assoc]
      rfl
    · rw [signedOf_concat some, number, digit]
      omega
    · obtain ⟨first, rest, rfl⟩ := List.exists_cons_of_ne_nil some
      exact sign zero

/-! ## Leaving octets out -/

theorem signBit_iff (c : UInt8) : c.toNat &&& 0x80 = 0 ↔ c < 0x80 :=
  (moreBit_iff c).trans (UInt8.lt_iff_toNat_lt (b := 0x80)).symm

/-- What is left of octets stands for the same number, and its first nine bits differ. -/
theorem trimOctets_eq {octets : List UInt8} (some : octets ≠ []) :
    ∃ kept : List UInt8, trimOctets (octets.map UInt8.toNat) = kept.map UInt8.toNat ∧
      signedOf kept = signedOf octets ∧ NineBits kept := by
  induction octets with
  | nil => exact absurd rfl some
  | cons first rest ih =>
    cases rest with
    | nil => exact ⟨[first], rfl, rfl, trivial⟩
    | cons second rest =>
      rw [List.map_cons, List.map_cons, trimOctets]
      have zero : first.toNat = 0 ↔ first = 0 := UInt8.toNat_inj (b := 0)
      have ones : first.toNat = 0xff ↔ first = 0xFF := UInt8.toNat_inj (b := 0xFF)
      have repeats : (first.toNat = 0 ∧ second.toNat &&& 0x80 = 0 ∨
          first.toNat = 0xff ∧ second.toNat &&& 0x80 ≠ 0) ↔
            (first = 0 ∧ second < 0x80 ∨ first = 0xFF ∧ 0x80 ≤ second) := by
        rw [ne_eq, signBit_iff, zero, ones, UInt8.not_lt]
      by_cases sign : first = 0 ∧ second < 0x80 ∨ first = 0xFF ∧ 0x80 ≤ second
      · -- The first octet only repeats the sign.
        obtain ⟨kept, trimmed, number, nine⟩ := ih (List.cons_ne_nil _ _)
        rw [if_pos (repeats.mpr sign)]
        exact ⟨kept, trimmed, by rw [number, signedOf_cons sign], nine⟩
      · rw [if_neg (mt repeats.mp sign)]
        exact ⟨first :: second :: rest, rfl, rfl, not_or.mp sign⟩

/-! ## Contents -/

theorem ints2octs_toNat (octets : List UInt8) :
    ints2octs (octets.map UInt8.toNat) = octets.map PyObj.chr := by
  rw [ints2octs, List.map_map]
  apply List.map_congr_left
  intro c _
  rw [Function.comp, UInt8.ofNat_toNat]

/-- The shortest octets of a number are put in front of the buffer. -/
theorem run_intBEncContent (value : Int) (buf : List PyObj) :
    ∃ octets : List UInt8, ShortestSigned value octets ∧
      (intBEncContent value).run buf = .ok octets.length (octets.map .chr ++ buf) := by
  obtain ⟨front, last, peeled, some, number, sign⟩ := intOctets_eq value []
  obtain ⟨kept, trimmed, same, nine⟩ := trimOctets_eq some
  -- At zero, the first octet has no bit set.
  have noSign : ¬ (last = 0 ∧ (front.map UInt8.toNat).headD 0 &&& 0x80 ≠ 0) := by
    rintro ⟨zero, set⟩
    obtain ⟨first, rest, rfl⟩ := List.exists_cons_of_ne_nil some
    have none : first = 0 := sign zero
    rw [none, List.map_cons, List.headD_cons] at set
    exact set rfl
  have shortest := nine.shortestSigned
  rw [same, number] at shortest
  refine ⟨kept, shortest, ?_⟩
  rw [List.append_nil] at peeled
  rw [intBEncContent, peeled]
  dsimp only
  rw [if_neg noSign, trimmed, ints2octs_toNat, List.length_map]
  rfl

/-- The octets of a number are joined to those in front of them. -/
theorem run_intBDecLoop (octets : List UInt8) (result : Int) (rest : List PyObj) :
    (intBDecLoop octets.length result).run (octets.map .chr ++ rest) =
      .ok (result * 256 ^ octets.length + ofOctets octets) rest := by
  induction octets generalizing result with
  | nil => simp [intBDecLoop]
  | cons c octets ih =>
    have got : getByte.run ((c :: octets).map PyObj.chr ++ rest) =
        .ok (.chr c) (octets.map .chr ++ rest) := rfl
    rw [List.length_cons, intBDecLoop, run_bind_of_ok got, run_bind_of_ok (run_ord_chr _ _), ih,
      ofOctets_cons, Int.pow_succ]
    congr 1
    push_cast
    ring

/-- The number that octets stand for is taken from them, whatever comes behind them. -/
theorem run_intBDecContent {octets : List UInt8} (some : octets ≠ []) (rest : List PyObj) :
    (intBDecContent octets.length).run (octets.map .chr ++ rest) =
      .ok (signedOf octets) rest := by
  obtain ⟨first, others, rfl⟩ := List.exists_cons_of_ne_nil some
  have there : (bufferAt 0).run ((first :: others).map PyObj.chr ++ rest) =
      .ok (.chr first) ((first :: others).map .chr ++ rest) := run_bufferAt rfl
  rw [intBDecContent, run_bind_of_ok there, run_bind_of_ok (run_ord_chr _ _), run_intBDecLoop,
    signedOf]
  by_cases positive : first < 0x80
  · rw [if_pos positive, if_neg (not_not.mpr ((signBit_iff first).mpr positive))]
    simp
  · rw [if_neg positive, if_pos (mt (signBit_iff first).mp positive)]
    congr 1
    ring

/-- An integer is written as its shortest octets, which are counted and read back, and any octets
are read as the number that they stand for. -/
theorem int_contents_trip :
    (∀ (value : Int) (buf rest : List PyObj), ∃ octets : List UInt8,
      ShortestSigned value octets ∧
      (intBEncContent value).run buf = .ok octets.length (octets.map .chr ++ buf) ∧
      (intBDecContent octets.length).run (octets.map .chr ++ rest) = .ok value rest) ∧
    ∀ (octets : List UInt8) (rest : List PyObj), octets ≠ [] →
      (intBDecContent octets.length).run (octets.map .chr ++ rest) =
        .ok (signedOf octets) rest := by
  constructor
  · intro value buf rest
    obtain ⟨octets, shortest, written⟩ := run_intBEncContent value buf
    have read := run_intBDecContent shortest.some rest
    rw [shortest.signed] at read
    exact ⟨octets, shortest, written, read⟩
  · intro octets rest some
    exact run_intBDecContent some rest

/-- Minus one hundred and twenty-nine takes two octets, and two octets are read as it. -/
theorem int_contents_trip_two :
    (∃ octets : List UInt8, ShortestSigned (-129) octets ∧
      (intBEncContent (-129)).run [] = .ok octets.length (octets.map .chr ++ [])) ∧
    (intBDecContent 2).run [.chr 0xFF, .chr 0x7F] = .ok (signedOf [0xFF, 0x7F]) [] := by
  obtain ⟨all, any⟩ := int_contents_trip
  obtain ⟨octets, shortest, written, -⟩ := all (-129) [] []
  exact ⟨⟨octets, shortest, written⟩, any [0xFF, 0x7F] [] (List.cons_ne_nil _ _)⟩

end Esnacc.Python
