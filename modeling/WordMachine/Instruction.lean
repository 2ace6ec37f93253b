import WordMachine.Opcode

namespace WordMachine

/-!
# Instructions

* `Instruction` — an opcode with its operand words.
* `Instruction.WellFormed` — as many operands as the opcode takes.
* `Instruction.words` — the encoded words; `Instruction.size` — their number by the table.
* `Instruction.text` — the disassembled form, `cpl 0005 0003`.
-/

/-- An opcode with its operand words. -/
structure Instruction where
  opcode : Opcode
  operands : List Word
  deriving DecidableEq, Repr, Inhabited

namespace Instruction

/-- Whether an instruction carries exactly the operands that its opcode takes. -/
def WellFormed (i : Instruction) : Prop :=
  i.operands.length = i.opcode.operandCount

instance (i : Instruction) : Decidable i.WellFormed :=
  inferInstanceAs (Decidable (_ = _))

/-- The number of words that the instruction table gives an instruction. -/
def size (i : Instruction) : Nat :=
  i.opcode.size

/-- The encoded words, the opcode first. -/
def words (i : Instruction) : List Word :=
  i.opcode.code :: i.operands

/-- The mnemonic and the operands in hexadecimal. -/
def text (i : Instruction) : String :=
  " ".intercalate (i.opcode.mnemonic :: i.operands.map Word.hex)

theorem WellFormed.length_words {i : Instruction} (h : i.WellFormed) :
    i.words.length = i.size := by
  simp only [words, size, Opcode.size, List.length_cons, show i.operands.length = _ from h]
  omega

end Instruction

end WordMachine
