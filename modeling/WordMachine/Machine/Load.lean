import WordMachine.Machine
import WordMachine.Program
import WordMachine.Text.Utf16

namespace WordMachine

/-!
# Loading

What is loaded is written into a machine word by word, and a refusal leaves the machine as it stands
at that moment.

* `Machine.InPlace` — computations that change a machine and may be stopped by an error.
* `Machine.copyProgram` — copies a program into memory and prepares a run of it.
* `Machine.copyArguments` — copies texts to the start of the heap, where the program finds them.
* `Machine.load` and `Machine.loadArguments` — the machines that these yield if nothing is refused.
-/

/-- Holds the start of the heap once a program is loaded. -/
def heapStartAddress : Word := 0xFFFF

/-- Holds the number of words of all arguments. -/
def argumentLengthAddress : Word := 0xFFFE

/-- Holds the number of arguments. -/
def argumentCountAddress : Word := 0xFFFD

namespace Machine

/-! ### Changes in place -/

/-- A computation that changes a machine in place. An error stops it, but takes back nothing of what
it has changed by then. -/
abbrev InPlace := EStateM MachineError Machine

namespace InPlace

/-- The machine that is left behind, whether the computation is stopped or not. -/
def after (c : InPlace Unit) (m : Machine) : Machine :=
  match c.run m with
  | .ok _ n => n
  | .error _ n => n

/-- The machine that is left behind, unless the computation is stopped. -/
def accepted (c : InPlace Unit) (m : Machine) : Except MachineError Machine :=
  match c.run m with
  | .ok _ n => .ok n
  | .error e _ => .error e

/-- Writes pairs of an address and a word in their order. -/
def write (cells : List (Word × Word)) : InPlace Unit :=
  cells.forM fun (a, w) => modify fun m => m.poke a w

@[simp]
theorem run_getThe (m : Machine) : (getThe Machine : InPlace Machine).run m = .ok m m := rfl

/-- Words are written one by one, as into the memory by itself. -/
@[simp]
theorem run_write (cells : List (Word × Word)) (m : Machine) :
    (write cells).run m = .ok () { m with memory := m.memory.write cells } := by
  induction cells generalizing m with
  | nil => rfl
  | cons cell cells ih => exact ih (m.poke cell.1 cell.2)

section Result

variable {c d : InPlace Unit} {m n : Machine} {e : MachineError}

theorem accepted_eq_ok_iff : c.accepted m = .ok n ↔ c.run m = .ok () n := by
  unfold accepted
  cases c.run m with
  | ok _ n' => simp
  | error e n' => simp

theorem accepted_eq_error_iff : c.accepted m = .error e ↔ ∃ n, c.run m = .error e n := by
  unfold accepted
  cases c.run m with
  | ok _ n' => simp
  | error e' n' => simp

theorem accepted_congr (h : c.run m = d.run m) : c.accepted m = d.accepted m := by
  rw [accepted, accepted, h]

theorem after_of_ok (h : c.run m = .ok () n) : c.after m = n := by
  rw [after, h]

theorem after_of_error (h : c.run m = .error e n) : c.after m = n := by
  rw [after, h]

end Result

end InPlace

/-! ### Programs -/

/-- Copies a program into memory. The heap starts where `size` words from the start of the program
region end, the stack holds `haltAddress` alone, so that a return from the last subroutine halts,
and the program counter is the entry. A program larger than its region is refused. -/
def copyProgram (p : Program) : InPlace Unit := do
  let layout := (← getThe Machine).layout
  let available := (haltAddress - layout.programStart).toNat
  if p.size > available then
    throw (.programTooLarge p.size available)
  -- A program that is not laid out for this machine may write anywhere, but not last.
  InPlace.write p.image
  let heapStart := layout.programStart + UInt16.ofNat p.size
  modify fun m => { m with layout := { m.layout with heapStart } }
  modify fun m => m.poke heapStartAddress heapStart
  modify fun m => m.set .sp m.layout.stackTop
  modify fun m => m.push haltAddress
  modify fun m => m.set .pc p.entry

/-- The machine with a program loaded. -/
def load (m : Machine) (p : Program) : Except MachineError Machine :=
  (copyProgram p).accepted m

/-! ### Arguments -/

/-- The words of arguments: the code units of each, and a zero behind it. -/
def argumentWords (arguments : List String) : List Word :=
  arguments.flatMap fun argument => Text.Utf16.encode argument ++ [0]

/-- Copies arguments to the start of the heap and their numbers behind it. Arguments that would
reach `argumentCountAddress` are refused. -/
def copyArguments (arguments : List String) : InPlace Unit := do
  let words := argumentWords arguments
  let heapStart := (← getThe Machine).layout.heapStart
  let available := argumentCountAddress.toNat - heapStart.toNat
  if words.length > available then
    throw (.heapOverflow words.length available)
  InPlace.write (placed heapStart words)
  modify fun m => m.poke argumentLengthAddress (UInt16.ofNat words.length)
  modify fun m => m.poke argumentCountAddress (UInt16.ofNat arguments.length)
  modify fun m => m.poke heapStartAddress heapStart

/-- The machine with arguments loaded. -/
def loadArguments (m : Machine) (arguments : List String) : Except MachineError Machine :=
  (copyArguments arguments).accepted m

/-! ### The log -/

/-- The record of a program just loaded into a machine. -/
def loadedRecord (m : Machine) (p : Program) : Log.Record :=
  ⟨.debug, .machine, s!"loaded {p.size} words, heap at {m.layout.heapStart.hex}, " ++
    s!"entry at {p.entry.hex}"⟩

/-- The record of arguments just loaded. -/
def argumentsRecord (arguments : List String) : Log.Record :=
  ⟨.debug, .machine, s!"loaded {arguments.length} argument(s) into " ++
    s!"{(argumentWords arguments).length} heap words"⟩

end Machine

end WordMachine
