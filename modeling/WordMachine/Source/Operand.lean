import WordMachine.Assembly.Error
import WordMachine.Register
import WordMachine.Source.Literal
import WordMachine.Text.Utf16

namespace WordMachine.Source

/-!
# Names, operands and constant values

* `parseName` — a symbol name of ASCII letters, digits, underscores and points.
* `Operand.parse` — an operand token: a literal, a reference to a symbol, or a register.
* `constantWords` — the words that the right-hand side of a declaration stands for.
-/

/-! ### Names -/

/-- The characters of symbol names. -/
def isSymbolChar (c : Char) : Bool :=
  c.isAlphanum || c == '_' || c == '.'

/-- The symbol name that characters spell. -/
def name? (cs : List Char) : Option String :=
  if cs ≠ [] ∧ cs.all isSymbolChar then some (String.ofList cs) else none

/-- A token that is a symbol name. -/
def parseName (line : Nat) (token : String) : Except AssemblyError String :=
  match name? token.toList with
  | some name => .ok name
  | none => .error (.invalidName line token)

/-! ### Operands -/

/-- An operand by its form. -/
inductive Operand where
  | literal (word : Word)
  /-- A label of the same subroutine, `&name`. -/
  | label (name : String)
  /-- The address of a constant, `[name]`. -/
  | constant (name : String)
  /-- The address of a subroutine, its name in braces. -/
  | subroutine (name : String)
  | register (register : Register)
  deriving DecidableEq, Repr

namespace Operand

/-- The name in front of a closing bracket at the end. -/
def enclosed? (close : Char) (cs : List Char) : Option String :=
  if cs.getLast? = some close then name? cs.dropLast else none

/-- The operand that characters spell. -/
def ofChars? : List Char → Option Operand
  | '&' :: cs => (name? cs).map label
  | '[' :: cs => (enclosed? ']' cs).map constant
  | '\x7b' :: cs => (enclosed? '\x7d' cs).map subroutine
  | cs =>
    ((Register.ofName? (String.ofList cs)).map register)
      <|> ((hexLiteral? cs).map literal)
      <|> ((decimalLiteral? cs).map literal)

/-- Why a token is no operand: the cause follows from how it begins. -/
def fault (line : Nat) (token : String) : AssemblyError :=
  if startsHex token.toList then .invalidHex line token
  else if startsDecimal token.toList then .invalidInteger line token
  else .unknownOperand line token

/-- The operand that a token spells. -/
def parse (line : Nat) (token : String) : Except AssemblyError Operand :=
  match ofChars? token.toList with
  | some operand => .ok operand
  | none => .error (fault line token)

end Operand

/-! ### Constant values -/

/-- The text between the double quotes at both ends, if there are such quotes. -/
def quoted? : List Char → Option (List Char)
  | '"' :: cs => if cs.getLast? = some '"' then some cs.dropLast else none
  | _ => none

/-- The words of a constant: the code units of a string and a zero, or one number. -/
def constantWords (line : Nat) (token : String) : Except AssemblyError (List Word) :=
  let cs := token.toList
  -- Quotes come first: between them any text is a string.
  match quoted? cs with
  | some text => .ok (Text.Utf16.encode (String.ofList text) ++ [0])
  | none =>
    if startsHex cs then
      match hexLiteral? cs with
      | some word => .ok [word]
      | none => .error (.invalidHex line token)
    else if startsDecimal cs then
      match decimalLiteral? cs with
      | some word => .ok [word]
      | none => .error (.invalidInteger line token)
    else .error (.invalidConstantValue line token)

end WordMachine.Source
