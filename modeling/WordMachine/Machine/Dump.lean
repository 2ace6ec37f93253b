import WordMachine.Machine

namespace WordMachine

/-!
# The contents of a machine on one line

* `dumpText` — the form of a record: its name, and in braces its fields behind their names.
* `Machine.dump` — every register, the number of mapped words, and the layout.
-/

/-- A record on one line. -/
def dumpText (name : String) (fields : List (String × String)) : String :=
  let fieldTexts := fields.map fun (field, value) => field ++ ": " ++ value
  name ++ " \x7b " ++ ", ".intercalate fieldTexts ++ " \x7d"

/-- The words of the registers. -/
def RegisterFile.dump (f : RegisterFile) : String :=
  let cells := ", ".intercalate (Register.all.map fun r => s!"{f.get r}")
  dumpText "RegisterFile" [("cells", s!"[{cells}]")]

/-- The number of mapped words. -/
def Memory.dump (m : Memory) : String :=
  dumpText "Memory" [("mapped", s!"{m.mappedAddresses.length} words")]

/-- The boundaries of the layout. -/
def Layout.dump (l : Layout) : String :=
  dumpText "Layout"
    [("video_width", s!"{l.screen.width}"), ("video_height", s!"{l.screen.height}"),
      ("stack_min", s!"{l.stackMin}"), ("stack_max", s!"{l.stackMax}"),
      ("program_offset", s!"{l.programStart}"), ("heap_offset", s!"{l.heapStart}")]

/-- Registers, memory and layout. -/
def Machine.dump (m : Machine) : String :=
  dumpText "Cpu"
    [("registers", m.registers.dump), ("memory", m.memory.dump), ("layout", m.layout.dump)]

end WordMachine
