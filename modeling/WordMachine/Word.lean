namespace WordMachine

/-!
# Words

Registers, memory cells, opcodes, operands and addresses are all one 16-bit word.

* `haltAddress` — the address that no program word occupies and that stops a machine.
* `Word.hex` — the four lower-case hexadecimal digits of a word.
* `Word.bytes`, `Word.ofBytes` — the big-endian byte pair of a word.
* `Word.negate`, `Word.isNegative`, `Word.magnitude` — two's complement.

Arithmetic on words wraps modulo `2 ^ 16`.
-/

/-- One 16-bit word. -/
abbrev Word := UInt16

/-- A machine whose program counter equals this address is halted. -/
def haltAddress : Word := 0xFFFF

namespace Word

/-! ### Hexadecimal text -/

/-- The lower-case hexadecimal digit of a number below sixteen. -/
def hexDigit (n : Nat) : Char :=
  if n < 10 then Char.ofNat (48 + n) else Char.ofNat (87 + n)

/-- The four hexadecimal digits of a word, the most significant first. -/
def hexDigits (w : Word) : List Char :=
  [hexDigit (w.toNat / 4096), hexDigit (w.toNat / 256 % 16), hexDigit (w.toNat / 16 % 16),
    hexDigit (w.toNat % 16)]

/-- A word as four lower-case hexadecimal digits. -/
def hex (w : Word) : String :=
  String.ofList w.hexDigits

theorem length_hexDigits (w : Word) : w.hexDigits.length = 4 := rfl

/-! ### Bytes -/

/-- The high byte and the low byte of a word. -/
def bytes (w : Word) : List UInt8 :=
  [UInt8.ofNat (w.toNat / 256), UInt8.ofNat w.toNat]

/-- The word with the given high and low bytes. -/
def ofBytes (high low : UInt8) : Word :=
  UInt16.ofNat (high.toNat * 256 + low.toNat)

theorem ofBytes_bytes (w : Word) :
    ofBytes (UInt8.ofNat (w.toNat / 256)) (UInt8.ofNat w.toNat) = w := by
  have hw : w.toNat < 65536 := w.toNat_lt
  apply UInt16.toNat_inj.1
  simp only [ofBytes, UInt16.toNat_ofNat', UInt8.toNat_ofNat']
  omega

theorem bytes_ofBytes (high low : UInt8) : (ofBytes high low).bytes = [high, low] := by
  have hh : high.toNat < 256 := high.toNat_lt
  have hl : low.toNat < 256 := low.toNat_lt
  simp only [bytes, ofBytes, UInt16.toNat_ofNat', List.cons.injEq, and_true]
  constructor <;> apply UInt8.toNat_inj.1 <;> simp only [UInt8.toNat_ofNat'] <;> omega

/-! ### Two's complement -/

/-- Two's complement negation, `~w + 1`. -/
def negate (w : Word) : Word :=
  ~~~w + 1

/-- Whether the sign bit is set. -/
def isNegative (w : Word) : Bool :=
  w &&& 0x8000 != 0

/-- The absolute value of a two's complement word; that of `0x8000` is `0x8000`. -/
def magnitude (w : Word) : Word :=
  if w.isNegative then w.negate else w

/-- The word that represents an integer modulo `2 ^ 16`. -/
def ofInt (i : Int) : Word :=
  UInt16.ofInt i

/-- Negation is subtraction from zero. -/
theorem negate_eq_neg (w : Word) : w.negate = -w := by
  simp only [negate, UInt16.neg_eq_not_add]

end Word

end WordMachine
