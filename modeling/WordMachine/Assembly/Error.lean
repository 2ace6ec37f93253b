import WordMachine.Opcode

namespace WordMachine

/-!
# Assembly errors

`AssemblyError` lists the causes that stop assembly, each with the number of the line at fault
where there is one, and `AssemblyError.message` is their wording.
-/

/-- Why a source text does not assemble. -/
inductive AssemblyError where
  /-- White space other than spaces and tabs stands between tokens. -/
  | untokenizable (line : Nat) (text : String)
  | unknownMnemonic (line : Nat) (mnemonic : String)
  | wrongOperandCount (line : Nat) (opcode : Opcode) (found : Nat)
  | undeclaredConstant (line : Nat) (name : String)
  | undeclaredSubroutine (line : Nat) (name : String)
  | undeclaredLabel (line : Nat) (name : String)
  | duplicateConstant (line : Nat) (name : String)
  | duplicateSubroutine (line : Nat) (name : String)
  | duplicateLabel (line : Nat) (name : String)
  | invalidHex (line : Nat) (token : String)
  | invalidInteger (line : Nat) (token : String)
  | invalidConstantValue (line : Nat) (token : String)
  | unknownOperand (line : Nat) (token : String)
  | invalidName (line : Nat) (token : String)
  | instructionOutsideSubroutine (line : Nat)
  | labelOutsideSubroutine (line : Nat) (name : String)
  | constantInSubroutine (line : Nat) (name : String)
  | addressSpaceExhausted (line : Nat)
  | missingMain
  | misnamedMain (found : String)
  deriving DecidableEq, Repr

namespace AssemblyError

/-- The number of the line at fault, if the error lies in one line. -/
def line? : AssemblyError → Option Nat
  | untokenizable line _ | unknownMnemonic line _ | wrongOperandCount line _ _
  | undeclaredConstant line _ | undeclaredSubroutine line _ | undeclaredLabel line _
  | duplicateConstant line _ | duplicateSubroutine line _ | duplicateLabel line _
  | invalidHex line _ | invalidInteger line _ | invalidConstantValue line _
  | unknownOperand line _ | invalidName line _ | instructionOutsideSubroutine line
  | labelOutsideSubroutine line _ | constantInSubroutine line _
  | addressSpaceExhausted line => some line
  | missingMain | misnamedMain _ => none

/-- What is wrong, without the line. -/
def cause : AssemblyError → String
  | untokenizable _ text => s!"cannot tokenize `{text}`"
  | unknownMnemonic _ mnemonic => s!"{mnemonic} is not an operation"
  | wrongOperandCount _ opcode found =>
    s!"{opcode.mnemonic} requires {opcode.operandCount} operands but was given {found}"
  | undeclaredConstant _ name => s!"constant [{name}] is not declared"
  | undeclaredSubroutine _ name => s!"subroutine \x7b{name}\x7d is not declared"
  | undeclaredLabel _ name => s!"label &{name} is not declared in this subroutine"
  | duplicateConstant _ name => s!"constant {name} is already declared"
  | duplicateSubroutine _ name => s!"subroutine {name} is already declared"
  | duplicateLabel _ name => s!"label &{name} is already declared in this subroutine"
  | invalidHex _ token => s!"`{token}` is not a valid hex literal"
  | invalidInteger _ token => s!"`{token}` is not a valid 16 bit integer"
  | invalidConstantValue _ token => s!"`{token}` is not a valid constant value"
  | unknownOperand _ token => s!"`{token}` is not an operand"
  | invalidName _ token => s!"`{token}` is not a valid symbol name"
  | instructionOutsideSubroutine _ => "instruction outside of any subroutine"
  | labelOutsideSubroutine _ name => s!"label &{name} outside of any subroutine"
  | constantInSubroutine _ name => s!"constant {name} declared inside a subroutine"
  | addressSpaceExhausted _ => "program does not fit below address ffff"
  | missingMain => "no subroutines; the last subroutine must be main"
  | misnamedMain found => s!"the last subroutine must be main, found {found}"

/-- The wording of an error, which begins with its line if it has one. -/
def message (e : AssemblyError) : String :=
  match e.line? with
  | some line => s!"line {line}: {e.cause}"
  | none => e.cause

end AssemblyError

end WordMachine
