import WordMachine.Assembly.Error
import WordMachine.Program
import WordMachine.SymbolTable

namespace WordMachine

/-!
# Drafts

While a text is read, an operand that names a label holds zero and the name is kept aside, since
the label may stand further down in the same subroutine.

* `DraftInstruction` and `DraftSubroutine` — with the references that are still to be resolved.
* `DraftSubroutine.resolve` — puts the addresses of labels in place.
-/

/-- An operand that names a label: its position among the operands and the line it stands in. -/
structure LabelReference where
  position : Nat
  line : Nat
  name : String
  deriving DecidableEq, Repr

/-- An instruction whose operands at the positions of the references are zero. -/
structure DraftInstruction where
  instruction : Instruction
  references : List LabelReference
  deriving DecidableEq, Repr

/-- A subroutine whose labels are not resolved. -/
structure DraftSubroutine where
  name : String
  address : Word
  /-- The scope of its labels in the symbol table. -/
  scope : Nat
  /-- The latest instruction comes first. -/
  instructions : List DraftInstruction
  deriving DecidableEq, Repr

/-- An operand as far as it is known when its line is read. -/
inductive DraftOperand where
  | word (w : Word)
  | label (name : String)
  deriving DecidableEq, Repr

/-- The word that holds the place of an operand. -/
def DraftOperand.placeholder : DraftOperand → Word
  | word w => w
  | label _ => 0

/-- The reference of an operand at a position. -/
def DraftOperand.reference? (line position : Nat) : DraftOperand → Option LabelReference
  | word _ => none
  | label name => some ⟨position, line, name⟩

namespace DraftInstruction

/-- The draft of an instruction in a line. -/
def ofOperands (line : Nat) (opcode : Opcode) (operands : List DraftOperand) :
    DraftInstruction where
  instruction := ⟨opcode, operands.map DraftOperand.placeholder⟩
  references := operands.zipIdx.filterMap fun (operand, i) => operand.reference? line i

/-- Puts the address of one label into its place. -/
def resolveReference (symbols : SymbolTable) (scope : Nat) (i : Instruction) (r : LabelReference) :
    Except AssemblyError Instruction :=
  match symbols.label? scope r.name with
  | some address => .ok { i with operands := i.operands.set r.position address }
  | none => .error (.undeclaredLabel r.line r.name)

/-- The instruction with the addresses of its labels in a scope. -/
def resolve (symbols : SymbolTable) (scope : Nat) (d : DraftInstruction) :
    Except AssemblyError Instruction :=
  d.references.foldlM (resolveReference symbols scope) d.instruction

end DraftInstruction

namespace DraftSubroutine

/-- The number of words of all instructions. -/
def size (d : DraftSubroutine) : Nat :=
  d.instructions.foldr (fun i n => i.instruction.size + n) 0

/-- The number of references to labels. -/
def referenceCount (d : DraftSubroutine) : Nat :=
  d.instructions.foldr (fun i n => i.references.length + n) 0

/-- The subroutine with the addresses of its labels; the error is that of the first reference
without a label. -/
def resolve (symbols : SymbolTable) (d : DraftSubroutine) : Except AssemblyError Subroutine := do
  let instructions ← d.instructions.reverse.mapM (DraftInstruction.resolve symbols d.scope)
  return ⟨some d.name, d.address, instructions⟩

end DraftSubroutine

end WordMachine
