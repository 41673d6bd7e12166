import Dalvik.Instruction.Printer

/-!
What can be wrong with a listing, a method or a run, by cause, and the wording of each cause.
-/

namespace Dalvik

/-- What is wrong with a line of a listing, or with a method as a whole. -/
inductive Complaint where
  | unexpected (line : String)
  | missingClassName
  | methodBeforeClass
  | missingEnd
  | missingClass
  | missingMethodName
  | unknownFlag (word : String)
  | badLocals
  | registersDirective
  | badCatch
  | duplicateLabel (line : String)
  | undefinedLabel (name : String)
  | notRegister (text : String)
  | registerOutOfRange (text : String)
  | notRegisterList (text : String)
  | notLabel (text : String)
  | notCaseList (text : String)
  | badCase (text : String)
  | badCaseKey (text : String)
  | notElementList (text : String)
  | operandCount (opcode : String) (expected given : Nat)
  | unknownOpcode (opcode : String)
  | literal (e : LiteralError)
  | malformed (e : Malformed)
  deriving DecidableEq, Repr

/-- The wording of a complaint. -/
def Complaint.message : Complaint → String
  | unexpected line => "unexpected `" ++ line ++ "`"
  | missingClassName => "missing class name"
  | methodBeforeClass => "`.method` before `.class`"
  | missingEnd => "missing `.end method`"
  | missingClass => "missing `.class`"
  | missingMethodName => "missing method name"
  | unknownFlag word => "unknown access flag `" ++ word ++ "`"
  | badLocals => "bad `.locals` count"
  | registersDirective => "use `.locals`"
  | badCatch => "malformed `.catch`"
  | duplicateLabel line => "duplicate label `" ++ line ++ "`"
  | undefinedLabel name => "undefined label `:" ++ name ++ "`"
  | notRegister text => "expected a register, got `" ++ text ++ "`"
  | registerOutOfRange text => "register `" ++ text ++ "` out of range"
  | notRegisterList text => "expected a register list, got `" ++ text ++ "`"
  | notLabel text => "expected a label, got `" ++ text ++ "`"
  | notCaseList text => "expected a case list, got `" ++ text ++ "`"
  | badCase text => "malformed case `" ++ text ++ "`"
  | badCaseKey text => "bad case key in `" ++ text ++ "`"
  | notElementList text => "expected an element list, got `" ++ text ++ "`"
  | operandCount opcode expected given =>
    "`" ++ opcode ++ "` takes " ++ toString expected ++ " operands, got " ++ toString given
  | unknownOpcode opcode => "unknown opcode `" ++ opcode ++ "`"
  | literal e => e.message
  | malformed e => e.message

/-- Why a text is not read, a method is not accepted or a run does not go on. -/
inductive Error where
  | malformed (e : Malformed)
  | register (r : Register) (count : Nat)
  | address (a : Address)
  | listing (method : String) (line : Nat) (complaint : Complaint)
  /-- An item beyond the end of a list is asked for: an argument that a call does not pass, an
  element that an array of a greater length does not hold, or instructions after the last one. So is
  a register beyond all those that can be numbered. -/
  | outOfBounds
  deriving DecidableEq, Repr

/-- The wording of an error. -/
def Error.message : Error → String
  | malformed e => e.message
  | register r count =>
    "register " ++ Register.plainName r ++ " is out of range for a method with " ++
      toString count ++ " registers"
  | address a => "no instruction at address " ++ toString a
  | listing method line complaint =>
    method ++ ": " ++ complaint.message ++ " (line " ++ toString line ++ ")"
  | outOfBounds => "index out of range"

/-- Whether an error ends the whole program, because it is none of what is being read or run but a
place beyond the end of a list or of a text. -/
def Error.isFatal : Error → Bool
  | outOfBounds => true
  | listing _ _ (.literal (.wideSuffix _)) => true
  | _ => false

end Dalvik
