import WordMachine.Opcode

namespace WordMachine

/-!
# Binary errors

`BinaryError` lists why a program has no binary form or bytes are not the binary form of a
program, and `BinaryError.message` is the wording. Offsets count words behind the magic number.
-/

/-- The parts of a binary that may be cut short. -/
inductive BinaryPart where
  | constantSection | constantPair | subroutineHeader | subroutineBody
  deriving DecidableEq, Repr

/-- The wording for a part. -/
def BinaryPart.name : BinaryPart → String
  | constantSection => "the constant section"
  | constantPair => "a constant pair"
  | subroutineHeader => "a subroutine header"
  | subroutineBody => "a subroutine body"

/-- Why encoding or decoding fails. -/
inductive BinaryError where
  | invalidMagic
  /-- The number of bytes behind the magic number is odd. -/
  | oddLength (length : Nat)
  | truncated (offset : Nat) (part : BinaryPart)
  | unknownOpcode (opcode : Word) (offset : Nat)
  | instructionOverrun (opcode : Opcode) (address : Word)
  | missingEntryPoint
  | reservedAddress
  | subroutineTooLarge (address : Word)
  deriving DecidableEq, Repr

/-- The wording of an error. -/
def BinaryError.message : BinaryError → String
  | invalidMagic => "missing SVCB magic number"
  | oddLength length =>
    s!"binary has an odd number of bytes ({length}); the payload must be whole words"
  | truncated offset part => s!"binary ends in the middle of {part.name} at word {offset}"
  | unknownOpcode opcode offset => s!"opcode {opcode.hex} at word {offset} does not exist"
  | instructionOverrun opcode address =>
    s!"{opcode.mnemonic} at {address.hex} runs past the end of its subroutine"
  | missingEntryPoint => "binary has no subroutines, so it has no entry point"
  | reservedAddress => "address ffff is reserved and cannot hold program data"
  | subroutineTooLarge address => s!"subroutine at {address.hex} is too large to encode"

end WordMachine
