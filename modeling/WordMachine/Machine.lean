import WordMachine.Layout
import WordMachine.Log
import WordMachine.Machine.Error
import WordMachine.Machine.Operation
import WordMachine.Memory

namespace WordMachine

/-!
# The machine

* `Machine` — registers, memory, and the layout of the address space.
* `Machine.ofScreen` — a machine with nothing loaded.
* `Machine.push`, `Machine.pop`, `Machine.call` — the stack, which grows downwards.
* `Machine.perform` — the effect of an operation that is free of faults.
-/

/-- A machine at rest between two instructions. -/
structure Machine where
  registers : RegisterFile
  memory : Memory
  layout : Layout

namespace Machine

/-- A machine with a screen and nothing loaded, whose stack is empty. -/
def ofScreen (s : Screen) : Except MachineError Machine :=
  if s.Fits then
    let layout := Layout.empty s
    .ok ⟨RegisterFile.zero.set .sp layout.stackTop, Memory.blank, layout⟩
  else .error (.screenTooLarge s)

/-! ### Registers and memory -/

/-- The word in a register. -/
def get (m : Machine) (r : Register) : Word :=
  m.registers.get r

/-- Puts a word into a register. -/
def set (m : Machine) (r : Register) (w : Word) : Machine :=
  { m with registers := m.registers.set r w }

/-- Replaces the word in a register by a function of it. -/
def update (m : Machine) (r : Register) (g : Word → Word) : Machine :=
  { m with registers := m.registers.update r g }

/-- Writes a word into memory. -/
def poke (m : Machine) (a w : Word) : Machine :=
  { m with memory := m.memory.set a w }

/-- Maps an address. -/
def touch (m : Machine) (a : Word) : Machine :=
  { m with memory := m.memory.touch a }

/-- A machine is halted while its program counter is `haltAddress`. -/
def halted (m : Machine) : Bool :=
  m.get .pc == haltAddress

/-- The words of the screen. -/
def screenWords (m : Machine) : List Word :=
  m.memory.firstWords m.layout.screen.size

@[simp]
theorem get_set_self (m : Machine) (r : Register) (w : Word) : (m.set r w).get r = w :=
  RegisterFile.get_set_self ..

theorem get_set (m : Machine) (r s : Register) (w : Word) :
    (m.set r w).get s = if r = s then w else m.get s :=
  RegisterFile.get_set ..

@[simp]
theorem memory_set (m : Machine) (r : Register) (w : Word) : (m.set r w).memory = m.memory := rfl

@[simp]
theorem layout_set (m : Machine) (r : Register) (w : Word) : (m.set r w).layout = m.layout := rfl

@[simp]
theorem get_poke (m : Machine) (a w : Word) (r : Register) : (m.poke a w).get r = m.get r := rfl

@[simp]
theorem layout_poke (m : Machine) (a w : Word) : (m.poke a w).layout = m.layout := rfl

@[simp]
theorem get_touch (m : Machine) (a : Word) (r : Register) : (m.touch a).get r = m.get r := rfl

@[simp]
theorem layout_touch (m : Machine) (a : Word) : (m.touch a).layout = m.layout := rfl

/-! ### The stack -/

/-- Lowers the stack pointer by one and writes a word there. -/
def push (m : Machine) (w : Word) : Machine :=
  let sp := m.get .sp - 1
  (m.set .sp sp).poke sp w

/-- The word at the stack pointer. -/
def top (m : Machine) : Word :=
  m.memory.peek (m.get .sp)

/-- Reads the word at the stack pointer, which then rises by one. -/
def drop (m : Machine) : Machine :=
  let sp := m.get .sp
  (m.touch sp).set .sp (sp + 1)

/-- Pushes the program counter and goes to an address. -/
def call (m : Machine) (target : Word) : Machine :=
  let next := m.get .pc
  (m.push next).set .pc target

/-! ### Operations -/

/-- Whether a condition holds by the branch indicator. -/
def holds (m : Machine) : Condition → Bool
  | .always => true
  | .equal => m.get .bi == branchTrue
  | .different => m.get .bi != branchTrue

/-- The effect of an operation, once the program counter stands behind its instruction. -/
def perform (m : Machine) : Operation → Machine
  | .nop | .redraw => m
  | .copy target source => m.set target (m.get source)
  | .put target w => m.set target w
  | .store address value => m.poke (m.get address) (m.get value)
  | .load target address =>
    let a := m.get address
    let w := m.memory.peek a
    (m.touch a).set target w
  | .accumulate f r =>
    let w := m.get r
    m.update .ac (f.apply · w)
  | .divide signed r =>
    -- Both registers are read before either result is written.
    let (quotient, remainder) := Word.divide signed (m.get .ac) (m.get r)
    (m.set .ex remainder).set .ac quotient
  | .change f r => m.update r f.apply
  | .shift left target amount =>
    let w := m.get amount
    m.update target (Word.shift left · w)
  | .push r => m.push (m.get r)
  | .pop target =>
    let w := m.top
    -- A pop into the stack pointer itself leaves the word read there.
    m.drop.set target w
  | .ret =>
    let w := m.top
    m.drop.set .pc w
  | .call condition target => if m.holds condition then m.call target else m
  | .compare r s => m.set .bi (if m.get r = m.get s then branchTrue else branchFalse)
  | .jump condition r => if m.holds condition then m.set .pc (m.get r) else m
  | .storeHeap offset value => m.poke (m.layout.heapStart + m.get offset) (m.get value)
  | .loadHeap target offset =>
    let a := m.layout.heapStart + m.get offset
    let w := m.memory.peek a
    (m.touch a).set target w

end Machine

end WordMachine
