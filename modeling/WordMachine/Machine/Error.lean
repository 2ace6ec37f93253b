import WordMachine.Layout
import WordMachine.Opcode

namespace WordMachine

/-!
# Machine errors

* `MachineError` — why a machine is not built or refuses what it is to load.
* `Fault` — why an instruction cannot be executed.
-/

/-- Why a machine cannot be built or loaded. -/
inductive MachineError where
  | screenTooLarge (screen : Screen)
  | programTooLarge (size available : Nat)
  | heapOverflow (needed available : Nat)
  deriving DecidableEq, Repr

/-- The wording of an error. -/
def MachineError.message : MachineError → String
  | screenTooLarge s =>
    s!"a {s.width}x{s.height} text buffer leaves no room for the stack and a program"
  | programTooLarge size available =>
    s!"program of {size} words does not fit in the {available} words above the stack"
  | heapOverflow needed available =>
    s!"arguments need {needed} words of heap but only {available} are free"

/-- Why the instruction at an address cannot be executed. -/
inductive Fault where
  | unknownOpcode (opcode address : Word)
  | invalidRegister (operand : Word) (opcode : Opcode) (address : Word)
  | divisionByZero (opcode : Opcode) (address : Word)
  deriving DecidableEq, Repr

namespace Fault

/-- The address of the instruction at fault. -/
def address : Fault → Word
  | unknownOpcode _ address | invalidRegister _ _ address | divisionByZero _ address => address

/-- The wording of a fault. -/
def message : Fault → String
  | unknownOpcode opcode address => s!"unknown opcode {opcode.hex} at {address.hex}"
  | invalidRegister operand opcode address =>
    s!"operand {operand.hex} of {opcode.mnemonic} at {address.hex} is not a register"
  | divisionByZero opcode address => s!"{opcode.mnemonic} at {address.hex} divides by zero"

end Fault

end WordMachine
