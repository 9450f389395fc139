import Esnacc.Lib.Run
import Esnacc.Tbl.TagStack

/-! What failed calls of the table decoder leave on the stack of tags, over runs of calls. -/

namespace Esnacc

open Lib

namespace TblCall

section

variable {β : Type} [GenBuf β] {glob glob' : Globals}

/-- The call gives a value, or fails with none of its own tags on the stack. -/
def Unwinds (glob : Globals) (call : TblCall β) : Prop :=
  ∀ glob', call.step glob = some (glob', none) → glob'.tlStkG = glob.tlStkG

/-- A call that gives a value leaves the stack as it was; one that fails leaves it below. -/
theorem stack_of_step {call : TblCall β} {out : Option (AVal × AsnLen)}
    (stepped : call.step glob = some (glob', out)) :
    glob.tlStkG <:+ glob'.tlStkG ∧ (out ≠ none → glob'.tlStkG = glob.tlStkG) := by
  rw [step, result, EStateM.run, tblDecode] at stepped
  cases found : tblFindTypeDef call.tbl call.modName call.typeName with
  | none =>
    simp only [found] at stepped
    cases stepped
    exact ⟨List.suffix_refl _, fun _ => rfl⟩
  | some tblTd =>
    have balanced := balanced_tblDecodeType call.tbl call.turns tblTd.type false 0 ⟨call.b, glob⟩
    -- What the program goes on with depends on how the decoding ends.
    cases ran : (tblDecodeType call.tbl call.turns tblTd.type false 0).run ⟨call.b, glob⟩ with
    | ok r s =>
      rw [ran] at balanced
      simp only [found, ran] at stepped
      cases stepped
      exact ⟨⟨[], balanced.symm⟩, fun _ => balanced⟩
    | error e s =>
      rw [ran] at balanced
      simp only [found, ran] at stepped
      cases e with
      | longjmp text val =>
        cases stepped
        exact ⟨balanced, fun some => absurd rfl some⟩
      | _ => cases stepped

/-- The stack ends as it was exactly where every call of a run unwinds it. -/
theorem along_unwinds_iff {calls : List (TblCall β)} {outs : List (Option (AVal × AsnLen))}
    (ran : run step glob calls = some (glob', outs)) :
    glob.tlStkG <:+ glob'.tlStkG ∧
      (Along step Unwinds glob calls ↔ glob'.tlStkG = glob.tlStkG) := by
  -- The induction is on the calls; none of them shortens the stack.
  induction calls generalizing glob outs with
  | nil =>
    cases ran
    exact ⟨List.suffix_refl _, fun _ => rfl, fun _ => trivial⟩
  | cons call calls ih =>
    obtain ⟨mid, out, rest, stepped, ran, -⟩ := run_cons_eq_some.mp ran
    obtain ⟨grown, value⟩ := stack_of_step stepped
    obtain ⟨grown', later⟩ := ih ran
    refine ⟨grown.trans grown', ?_, ?_⟩
    · intro along
      obtain ⟨here, along⟩ := along
      have same : mid.tlStkG = glob.tlStkG := by
        cases out with
        | none => exact here mid stepped
        | some r => exact value (Option.some_ne_none r)
      exact (later.1 (along mid out stepped)).trans same
    · intro same
      -- Between two equal stacks there is no longer one.
      have back : mid.tlStkG <:+ glob.tlStkG := by
        rw [← same]
        exact grown'
      have between : mid.tlStkG = glob.tlStkG := back.eq_of_length_le grown.length_le
      refine ⟨fun glob1 stepped1 => ?_, fun glob1 out1 stepped1 => ?_⟩
      · rw [stepped] at stepped1
        cases stepped1
        exact between
      · rw [stepped] at stepped1
        cases stepped1
        exact later.2 (same.trans between.symm)

end

end TblCall

/-- A call for a type that the table does not have. -/
def unknownCall : TblCall SBuf :=
  ⟨tblOf bitsType, none, "Other", bufferOf [], 1⟩

/-- A BOOLEAN. -/
def boolType : TBLType :=
  .primType .BOOLEAN false [⟨.UNIVERSAL, 1, .PRIM, makeTagId UNIV PRIM 1⟩]

/-- A call that decodes a BOOLEAN. -/
def boolCall (octets : List UInt8) : TblCall SBuf :=
  ⟨tblOf boolType, none, "Type", bufferOf octets, 1⟩

end Esnacc
