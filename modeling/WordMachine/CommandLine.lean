import WordMachine.Assembly
import WordMachine.Binary.Decode
import WordMachine.CommandLine.Demo
import WordMachine.Machine.Display
import WordMachine.Machine.Load
import WordMachine.Machine.Session
import WordMachine.Screen

namespace WordMachine.CommandLine

/-!
# The command line

The first argument names a source file and the others are handed to the program; without
arguments the demonstration runs. The text is assembled, printed, encoded, decoded again and run
on a machine with the standard screen.

* `Input` — the source text as the outside world supplies it.
* `Failure` — what may stop a run.
* `run` — everything that is printed, and the exit code.
-/

/-- Why a file cannot be read as text. -/
inductive Unreadable where
  | missing | directory | notText
  /-- Any other reason, in the words of the outside world. -/
  | other (reason : String)
  deriving DecidableEq, Repr

/-- The wording of a reason. -/
def Unreadable.reason : Unreadable → String
  | missing => "No such file or directory (os error 2)"
  | directory => "Is a directory (os error 21)"
  | notText => "stream did not contain valid UTF-8"
  | other reason => reason

/-- The source text. -/
inductive Input where
  | demonstration
  | file (path : String) (content : Except Unreadable String)

/-- What stops a run of a source text. -/
inductive Failure where
  | assembly (e : AssemblyError)
  | binary (e : BinaryError)
  | machine (e : MachineError)
  | fault (f : Fault)
  deriving DecidableEq, Repr

/-- The wording of a failure, which begins with the phase that failed. -/
def Failure.message : Failure → String
  | assembly e => "assembly error: " ++ e.message
  | binary e => "binary error: " ++ e.message
  | machine e => "cpu error: " ++ e.message
  | fault f => "cpu error: " ++ f.message

/-- A line of the log on the terminal; the level takes five characters. -/
def logLine (level : Log.Level) (message : String) : String :=
  let fill := String.ofList (List.replicate (5 - level.name.length) ' ')
  s!"{level.name}{fill} [svc] {message}\n"

/-! ### The phases of a run

Each phase answers with the text that it and the later phases print, and with what stopped them.
-/

/-- The rows of a frame that are not blank, behind a bar and without trailing space. -/
def frameText (frame : Frame) : String :=
  String.join ((frame.screen.rows frame.words).filterMap fun row =>
    match Text.trimRight (Screen.rowText row) with
    | [] => none
    | text => some ("│ " ++ String.ofList text ++ "\n"))

/-- Prints what an event shows. -/
def watch (printed : String) : Event → String
  | .redrawn frame => printed ++ frameText frame
  | _ => printed

/-- Runs a loaded machine until it halts, and shows it. -/
def runMachine (m : Machine) : String × Option Failure :=
  let outcome := m.run watch ""
  match outcome.result with
  | .error fault => (outcome.seen, some (.fault fault))
  | .ok _ =>
    let halted := logLine .info s!"halted after {outcome.session.cycles} cycles"
    (outcome.seen ++ halted ++ outcome.machine.display ++ "\n", none)

/-- A machine with the standard screen, a program and its arguments. -/
def loadMachine (p : Program) (arguments : List String) : Except MachineError Machine := do
  let m ← Machine.ofScreen .standard
  let m ← m.load p
  m.loadArguments arguments

/-- Decodes, loads and runs a binary. -/
def runBinary (bytes : List UInt8) (arguments : List String) : String × Option Failure :=
  match Binary.decode bytes with
  | .error e => ("", some (.binary e))
  | .ok p =>
    match loadMachine p arguments with
    | .error e => ("", some (.machine e))
    | .ok m => runMachine m

/-- Encodes and runs a program. -/
def runProgram (p : Program) (arguments : List String) : String × Option Failure :=
  match Binary.encode p with
  | .error e => ("", some (.binary e))
  | .ok bytes =>
    let (text, failure) := runBinary bytes arguments
    (logLine .info s!"encoded {bytes.length} bytes of SVB" ++ text, failure)

/-- Assembles, prints and runs a source text. -/
def runText (source : String) (arguments : List String) : String × Option Failure :=
  match assembleText source (Layout.empty .standard).programStart with
  | .error e => ("", some (.assembly e))
  | .ok p =>
    let (text, failure) := runProgram p arguments
    (s!"# Program\n{p.listing}\n\n" ++ text, failure)

/-! ### The whole -/

/-- The text of standard output, and the exit code. -/
def run (input : Input) (arguments : List String) : String × UInt32 :=
  let greeting := logLine .info "Computation Tracing ENABLED"
  let source : Except String String :=
    match input with
    | .demonstration => .ok demo
    | .file path content => content.mapError fun why => s!"cannot read {path}: {why.reason}"
  match source with
  | .error message => (greeting ++ logLine .error message, 1)
  | .ok source =>
    match runText source arguments with
    | (text, none) => (greeting ++ text, 0)
    | (text, some failure) => (greeting ++ text ++ logLine .error failure.message, 1)

end WordMachine.CommandLine
