import WordMachine.Machine

namespace WordMachine

/-!
# Executing an instruction

* `Machine.instructionAt` — the instruction that memory holds at an address.
* `Machine.fetch` — the same, with the words it reads mapped.
* `Machine.step` — one instruction: it is fetched, `lc` and `pc` move, its operands and its divisor
  are checked, and only then it takes effect. A fault leaves `pc` on the instruction.
-/

/-- Whether a machine goes on. -/
inductive Status where
  | running | halted
  deriving DecidableEq, Repr

/-- What is drawn: a screen, and the memory that begins with its words. -/
structure Frame where
  screen : Screen
  memory : Memory

/-- The words of a frame, row by row. -/
def Frame.words (f : Frame) : List Word :=
  f.memory.firstWords f.screen.size

/-- What an observer of a machine can see happen. -/
inductive Event where
  /-- An instruction is about to take effect; `lc` and `pc` have moved. -/
  | executed (address : Word) (instruction : Instruction) (registers : RegisterFile)
  /-- The screen is drawn. -/
  | redrawn (frame : Frame)
  /-- A session's own step has halted the machine. -/
  | halted (cycles : Nat)

/-- What a step leaves and shows. -/
structure Transition where
  machine : Machine
  result : Except Fault Status
  events : List Event

namespace Machine

/-! ### Fetching -/

/-- The instruction that memory holds at an address, whose words may wrap around the address
space. -/
def instructionAt (m : Machine) (a : Word) : Except Fault Instruction :=
  match Opcode.ofCode? (m.memory.peek a) with
  | none => .error (.unknownOpcode (m.memory.peek a) a)
  | some opcode =>
    .ok ⟨opcode, (List.range opcode.operandCount).map fun k =>
      m.memory.peek (a + UInt16.ofNat (k + 1))⟩

/-- Maps `n` addresses from `a` on. -/
def touchFrom (m : Machine) (a : Word) (n : Nat) : Machine :=
  { m with memory := m.memory.touchFrom a n }

/-- Reads an instruction and maps the words read: all of its own, or the opcode word alone if
that is unknown. -/
def fetch (m : Machine) (a : Word) : Machine × Except Fault Instruction :=
  match m.instructionAt a with
  | .error fault => (m.touch a, .error fault)
  | .ok i => (m.touchFrom a i.size, .ok i)

/-! ### Stepping -/

/-- Whether a machine is halted. -/
def status (m : Machine) : Status :=
  if m.halted then .halted else .running

/-- Whether an operation divides by zero. -/
def dividesByZero (m : Machine) : Operation → Bool
  | .divide _ r => m.get r == 0
  | _ => false

/-- The operation of the instruction at an address, unless it cannot be executed. -/
def operationOf (m : Machine) (a : Word) (i : Instruction) : Except Fault Operation :=
  match i.operation with
  | .error operand => .error (.invalidRegister operand i.opcode a)
  | .ok op => if m.dividesByZero op then .error (.divisionByZero i.opcode a) else .ok op

/-- What the screen shows of an operation. -/
def redraws (m : Machine) : Operation → List Event
  | .redraw => [.redrawn ⟨m.layout.screen, m.memory⟩]
  | _ => []

/-- Executes the instruction at an address. Its words have been mapped. -/
def execute (m : Machine) (a : Word) (i : Instruction) : Transition :=
  let m := (m.set .lc a).set .pc (a + UInt16.ofNat i.size)
  -- The observer sees the registers before the instruction takes effect.
  let executed := Event.executed a i m.registers
  match m.operationOf a i with
  | .error fault => ⟨m.set .pc a, .error fault, [executed]⟩
  | .ok op =>
    -- Nothing can fail from here on.
    let redraws := m.redraws op
    let m := m.perform op
    let status := m.status
    ⟨m, .ok status, executed :: redraws⟩

/-- Executes one instruction. A halted machine stays as it is. -/
def step (m : Machine) : Transition :=
  if m.halted then ⟨m, .ok .halted, []⟩
  else
    let a := m.get .pc
    match m.fetch a with
    | (m, .error fault) => ⟨m, .error fault, []⟩
    | (m, .ok i) => m.execute a i

end Machine

/-! ### The log -/

/-- The record of an event; drawing the screen has none. -/
def Event.record? : Event → Option Log.Record
  | executed a i registers =>
    let fill := String.ofList (List.replicate (16 - i.text.length) ' ')
    some ⟨.trace, .machine, s!"{a.hex}: {i.text}{fill} {registers.listing}"⟩
  | redrawn _ => none
  | halted cycles => some ⟨.debug, .session, s!"halted after {cycles} cycles"⟩

end WordMachine
