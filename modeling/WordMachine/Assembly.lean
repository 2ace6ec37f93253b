import WordMachine.Assembly.Draft
import WordMachine.Source.Statement

namespace WordMachine

/-!
# Assembly

Assembly reads the lines of a text in order, lays constants and instructions out one behind the
other, and then resolves labels. Names of constants and subroutines are declared before they are
used; a subroutine may name itself, and a label may stand behind its use.

* `Assembly` — what is known between two lines.
* `Assembly.step` — one more line.
* `Assembly.finish` — the program, once all lines are read.
* `assemble` and `assembleText` — the program of lines, and of a text.
-/

/-- The state between two lines. -/
structure Assembly where
  /-- The next free address, which may be one past the last word. -/
  cursor : Nat
  symbols : SymbolTable
  constants : Array Constant
  /-- The subroutines so far, the open one first. -/
  drafts : List DraftSubroutine

namespace Assembly

open Source (Line Operand Statement)

/-- The state before the first line of a program that starts at an address. -/
def start (base : Word) : Assembly :=
  ⟨base.toNat, .empty, #[], []⟩

/-- The next free address as a word. -/
def address (s : Assembly) : Word :=
  UInt16.ofNat s.cursor

/-- Takes the next `size` words. They must end below `haltAddress`, and even no words must start
below it. -/
def reserve (s : Assembly) (line size : Nat) : Except AssemblyError Assembly :=
  if s.cursor < haltAddress.toNat ∧ s.cursor + size ≤ haltAddress.toNat then
    .ok { s with cursor := s.cursor + size }
  else .error (.addressSpaceExhausted line)

/-! ### Declarations -/

/-- The words of a constant from an address on, of which the first carries the name. -/
def constantsOf (name : String) (address : Word) (words : List Word) : List Constant :=
  match placed address words with
  | [] => []
  | (a, w) :: rest => ⟨some name, a, w⟩ :: rest.map fun (a, w) => ⟨none, a, w⟩

/-- Lays out a constant. All constants stand before the first subroutine. -/
def declareConstant (s : Assembly) (line : Nat) (name value : String) :
    Except AssemblyError Assembly :=
  match s.drafts with
  | _ :: _ => .error (.constantInSubroutine line name)
  | [] => do
    let words ← Source.constantWords line value
    let next ← s.reserve line words.length
    -- The words start where the cursor stood before it moved.
    match s.symbols.insertConstant? name s.address with
    | some symbols =>
      .ok { next with symbols, constants := s.constants ++ constantsOf name s.address words }
    | none => .error (.duplicateConstant line name)

/-- Opens a subroutine at the next free address. -/
def openSubroutine (s : Assembly) (line : Nat) (name : String) :
    Except AssemblyError Assembly := do
  -- A head takes no words, but it must stand below `haltAddress`.
  let next ← s.reserve line 0
  match s.symbols.insertSubroutine? name s.address with
  | some (scope, symbols) =>
    .ok { next with symbols, drafts := ⟨name, s.address, scope, []⟩ :: s.drafts }
  | none => .error (.duplicateSubroutine line name)

/-- Gives the next free address a name in the open subroutine. -/
def declareLabel (s : Assembly) (line : Nat) (name : String) : Except AssemblyError Assembly :=
  match s.drafts with
  | [] => .error (.labelOutsideSubroutine line name)
  | draft :: _ => do
    let next ← s.reserve line 0
    match s.symbols.insertLabel? draft.scope name s.address with
    | some symbols => .ok { next with symbols }
    | none => .error (.duplicateLabel line name)

/-! ### Instructions -/

/-- What an operand stands for, given the names declared so far. -/
def draftOperand (symbols : SymbolTable) (line : Nat) : Operand → Except AssemblyError DraftOperand
  | .literal word => .ok (.word word)
  | .register register => .ok (.word register.id)
  -- A label may be declared further down, so it is looked up when all lines are read.
  | .label name => .ok (.label name)
  | .constant name =>
    match symbols.constant? name with
    | some address => .ok (.word address)
    | none => .error (.undeclaredConstant line name)
  | .subroutine name =>
    match symbols.subroutine? name with
    | some address => .ok (.word address)
    | none => .error (.undeclaredSubroutine line name)

/-- What an operand token stands for. -/
def draftToken (symbols : SymbolTable) (line : Nat) (token : String) :
    Except AssemblyError DraftOperand := do
  draftOperand symbols line (← Operand.parse line token)

/-- The draft of an instruction in a line. -/
def draftInstruction (symbols : SymbolTable) (line : Nat) (mnemonic : String)
    (tokens : List String) : Except AssemblyError DraftInstruction :=
  match Opcode.ofMnemonic? mnemonic with
  | none => .error (.unknownMnemonic line mnemonic)
  | some opcode =>
    if tokens.length = opcode.operandCount then do
      let operands ← tokens.mapM (draftToken symbols line)
      return .ofOperands line opcode operands
    else .error (.wrongOperandCount line opcode tokens.length)

/-- Appends an instruction to the open subroutine. -/
def emit (s : Assembly) (line : Nat) (mnemonic : String) (tokens : List String) :
    Except AssemblyError Assembly :=
  match s.drafts with
  | [] => .error (.instructionOutsideSubroutine line)
  | draft :: rest => do
    let instruction ← draftInstruction s.symbols line mnemonic tokens
    let next ← s.reserve line instruction.instruction.size
    return { next with
      drafts := { draft with instructions := instruction :: draft.instructions } :: rest }

/-! ### Whole programs -/

/-- The state after a statement. -/
def execute (s : Assembly) (line : Nat) : Statement → Except AssemblyError Assembly
  | .constant name value => s.declareConstant line name value
  | .subroutine name => s.openSubroutine line name
  | .label name => s.declareLabel line name
  | .instruction mnemonic operands => s.emit line mnemonic operands

/-- The state after a line. -/
def step (s : Assembly) (line : Line) : Except AssemblyError Assembly := do
  s.execute line.number (← Statement.ofLine line)

/-- The subroutines in the order of the text with their labels resolved. -/
def resolve (s : Assembly) : Except AssemblyError (List Subroutine) :=
  s.drafts.reverse.mapM (DraftSubroutine.resolve s.symbols)

/-- The program of all lines read. Its last subroutine must be named `main`. -/
def finish (s : Assembly) : Except AssemblyError Program := do
  -- Missing labels are reported before a missing `main`.
  let subroutines ← s.resolve
  match s.drafts with
  | [] => .error .missingMain
  | last :: _ =>
    if last.name = mainName then .ok ⟨s.constants.toList, subroutines, last.address⟩
    else .error (.misnamedMain last.name)

end Assembly

/-- The program of lines of tokens, laid out from an address on. -/
def assemble (lines : List Source.Line) (base : Word) : Except AssemblyError Program := do
  (← lines.foldlM Assembly.step (Assembly.start base)).finish

/-- The program of a source text, laid out from an address on. -/
def assembleText (text : String) (base : Word) : Except AssemblyError Program := do
  assemble (← Source.Line.ofSource text) base

end WordMachine
