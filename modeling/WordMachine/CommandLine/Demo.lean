namespace WordMachine.CommandLine

/-!
# The demonstration program

`demo` writes a text to the top left of the screen, and then adds up the numbers from 1 to 10 by
counting down.
-/

/-- The source text that runs when no file is named. -/
def demo : String :=
  "\n".intercalate
    ["",
    "greeting = \"Hello from svc\"",
    "",
    "print:                        ; aa points at a string",
    "  cpl bb 0                    ; screen position",
    "  cpl dd 0",
    "  cpl cc &loop",
    "  cpl ex &done",
    "&loop",
    "  ldr ac aa",
    "  cmp ac dd",
    "  gte ex",
    "  str bb ac",
    "  inc aa",
    "  inc bb",
    "  gto cc",
    "&done",
    "  vga",
    "  ret",
    "",
    "main:",
    "  cpl aa [greeting]",
    "  cal \x7bprint\x7d",
    "  cpl ac 0",
    "  cpl bb 10",
    "  cpl dd 0",
    "  cpl cc &sum",
    "  cpl aa &end",
    "&sum",
    "  cmp bb dd",
    "  gte aa",
    "  add bb",
    "  dec bb",
    "  gto cc",
    "&end",
    "  ret",
    ""]

end WordMachine.CommandLine
