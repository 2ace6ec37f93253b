import WordMachine.Word

namespace WordMachine.Source

/-!
# Numeric literals

* `hexLiteral?` — `0x` and one to four hexadecimal digits.
* `decimalLiteral?` — decimal digits behind an optional minus sign, for a value from -32768 to
  65535, which is taken modulo `2 ^ 16`.
-/

/-- Whether a character is a hexadecimal digit of either case. -/
def isHexDigit (c : Char) : Bool :=
  c.isDigit || ('a' ≤ c && c ≤ 'f') || ('A' ≤ c && c ≤ 'F')

/-- The value of a hexadecimal digit. -/
def digitValue (c : Char) : Nat :=
  if c.isDigit then c.toNat - 48 else if c ≤ 'F' then c.toNat - 55 else c.toNat - 87

/-- The number that digits write, the most significant digit first. -/
def numeral (base : Nat) (digits : List Char) : Nat :=
  digits.foldl (fun n c => n * base + digitValue c) 0

/-- The word of a hexadecimal literal. -/
def hexLiteral? : List Char → Option Word
  | '0' :: 'x' :: digits =>
    if digits ≠ [] ∧ digits.length ≤ 4 ∧ digits.all isHexDigit then
      some (UInt16.ofNat (numeral 16 digits))
    else none
  | _ => none

/-- The number that a nonempty run of decimal digits writes. -/
def decimalDigits? (cs : List Char) : Option Nat :=
  if cs ≠ [] ∧ cs.all Char.isDigit then some (numeral 10 cs) else none

/-- The integer that a decimal literal writes, whatever its size. -/
def integer? : List Char → Option Int
  | '-' :: digits => (decimalDigits? digits).map fun n => -(n : Int)
  | digits => (decimalDigits? digits).map fun n => (n : Int)

/-- The word of a decimal literal. -/
def decimalLiteral? (cs : List Char) : Option Word :=
  (integer? cs).bind fun v => if -32768 ≤ v ∧ v ≤ 65535 then some (Word.ofInt v) else none

/-- Whether a token begins as a hexadecimal literal does. -/
def startsHex : List Char → Bool
  | '0' :: 'x' :: _ => true
  | _ => false

/-- Whether a token begins as a decimal literal does. -/
def startsDecimal : List Char → Bool
  | c :: _ => c == '-' || c.isDigit
  | [] => false

end WordMachine.Source
