import Mathlib.Tactic.Common

/-! The exceptions that the C++ library throws. -/

namespace Esnacc.Cxx

/-- How a C++ routine ends when it does not return. -/
inductive Thrown where
  | snaccException (whatStr : String) (errorCode : Int)
  | invalidTagException (type : String) (tagId : UInt32)
  /-- An access outside an object, after which nothing is known. -/
  | fault
  /-- An allocation of more than any object can have. -/
  | badAlloc
  /-- The turns granted to a loop ran out. -/
  | outOfTurns
  deriving DecidableEq, Repr

/-- A length that is not one of an object. -/
def boundsException (whatStr : String) : Thrown :=
  .snaccException whatStr 6002

/-- Memory that cannot be had for a variable. -/
def memoryException (memorySize : Int64) (variableName : String) : Thrown :=
  .snaccException ("Error allocating " ++ toString memorySize.toInt ++ " bytes for " ++ variableName)
    6001

/-- A buffer that cannot serve a request. -/
def bufferException (whatStr : String) : Thrown :=
  .snaccException whatStr 6011

end Esnacc.Cxx
