import WordMachine.Assembly
import WordMachine.Log

namespace WordMachine

/-!
# The log of an assembly

A subroutine is committed when the next one opens, even if that fails, and the last one when all
lines are read. The number of label references is reported once all of them are resolved.
-/

namespace Assembly

open Log (Record)
open Source (Line Statement)

/-- A record about a part of the assembly. -/
private def debug (message : String) : Record :=
  ⟨.debug, .assembler, message⟩

/-- The record of a subroutine that is complete. -/
def commitRecord (d : DraftSubroutine) : Record :=
  debug s!"committed subroutine {d.name} at {d.address.hex} ({d.size} words)"

/-- The number of references to labels in all subroutines. -/
def referenceCount (s : Assembly) : Nat :=
  s.drafts.foldr (fun d n => d.referenceCount + n) 0

/-- The record of resolved labels, none if a label is missing. -/
def resolveRecords (s : Assembly) : List Record :=
  match s.resolve with
  | .ok _ => [debug s!"patched {s.referenceCount} label references"]
  | .error _ => []

/-- Whether a line is the head of a subroutine. -/
def opensSubroutine (line : Line) : Bool :=
  match Statement.ofLine line with
  | .ok (.subroutine _) => true
  | _ => false

/-- The records of the lines that follow a state. -/
def records (s : Assembly) : List Line → List Record
  | [] => s.drafts.reverse.map commitRecord ++ s.resolveRecords
  | line :: lines =>
    match s.step line with
    | .ok next => next.records lines
    | .error _ =>
      let committed := if opensSubroutine line then s.drafts else s.drafts.drop 1
      committed.reverse.map commitRecord

end Assembly

/-- The log of `assemble`. -/
def assembleRecords (lines : List Source.Line) (base : Word) : List Log.Record :=
  (Assembly.start base).records lines

/-- The log of `assembleText`; splitting a text into tokens reports nothing. -/
def assembleTextRecords (text : String) (base : Word) : List Log.Record :=
  match Source.Line.ofSource text with
  | .ok lines => assembleRecords lines base
  | .error _ => []

end WordMachine
