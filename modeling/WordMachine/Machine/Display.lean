import WordMachine.Machine.Step
import WordMachine.Text.Grid

namespace WordMachine.Machine

/-!
# The picture of a machine

`display` shows the state, the layout, and grids of the registers and of the top of the stack.
-/

open Text (Cell Grid)

/-- The most words of the stack that are shown. -/
def shownStackWords : Nat := 8

/-- The registers with their words; an arrow marks the program counter. -/
def registerGrid (m : Machine) : Grid where
  titles := [.right "Register", .left "Contents"]
  rows := Register.all.map fun r =>
    let arrow := if r = .pc then "* --> " else ""
    [.right (arrow ++ r.name ++ " ="), .left (m.get r).hex]

/-- The words from the stack pointer up to the bottom of the stack. -/
def stackGrid (m : Machine) : Grid where
  titles := [.right "Address", .left "Contents"]
  rows :=
    let sp := m.get .sp
    let depth := m.layout.stackTop.toNat - sp.toNat
    (List.range (min depth shownStackWords)).map fun i =>
      let a := sp + UInt16.ofNat i
      [.right (a.hex ++ " ="), .left (m.memory.peek a).hex]

/-- Registers and stack side by side. -/
def grid (m : Machine) : Grid where
  titles := [.left "Registers", .left "Stack"]
  rows := [[.ofLines m.registerGrid.lines, .ofLines m.stackGrid.lines]]

/-- The state and the layout on one line, and below it the registers and the stack. -/
def display (m : Machine) : String :=
  let state := if m.halted then "Halted." else "Running."
  String.join ((s!"{state}\t{m.layout.text}" :: m.grid.lines).map fun line => line ++ "\n")

end WordMachine.Machine
