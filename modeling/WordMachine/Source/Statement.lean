import WordMachine.Source.Line
import WordMachine.Source.Operand

namespace WordMachine.Source

/-!
# Statements

`Statement.ofLine` tells what a line of tokens declares or does.
-/

/-- What a line says. -/
inductive Statement where
  /-- A declaration `name = value`. -/
  | constant (name value : String)
  /-- The head `name:` of a subroutine. -/
  | subroutine (name : String)
  /-- A label `&name`. -/
  | label (name : String)
  /-- A mnemonic with its operands. -/
  | instruction (mnemonic : String) (operands : List String)
  deriving DecidableEq, Repr

namespace Statement

/-- The statement of a line with one token. A colon at its end makes it the head of a subroutine,
and an ampersand at its front a label. -/
def ofToken (line : Nat) (token : String) : Except AssemblyError Statement :=
  let cs := token.toList
  if cs.length > 1 ∧ cs.getLast? = some ':' then
    (parseName line (String.ofList cs.dropLast)).map subroutine
  else if cs.head? = some '&' then
    (parseName line (String.ofList cs.tail)).map label
  else .ok (.instruction token [])

/-- The statement of a line. An equals sign as the second token makes it a declaration of a
constant, before all else. -/
def ofLine (l : Line) : Except AssemblyError Statement :=
  match l.tokens with
  | [] => .error (.untokenizable l.number "")
  | [token] => ofToken l.number token
  | first :: second :: rest =>
    if second = "=" then
      match rest with
      | [value] => (parseName l.number first).map fun name => constant name value
      | _ => .error (.invalidConstantValue l.number (" ".intercalate rest))
    else .ok (.instruction first (second :: rest))

end Statement

end WordMachine.Source
