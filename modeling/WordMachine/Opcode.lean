import WordMachine.Word

namespace WordMachine

/-!
# Opcodes

The instruction table. An instruction is an opcode word followed by a fixed number of operand
words, and the number depends on the opcode alone.

* `Opcode.code` and `Opcode.ofCode?` — the opcode word.
* `Opcode.mnemonic` and `Opcode.ofMnemonic?` — the name in assembly text.
* `Opcode.operandCount` and `Opcode.size` — the number of operands, and of all words.

`ofCode?_eq_some_iff` and `ofMnemonic?_eq_some_iff` make reading the inverse of writing.
-/

/-- The operations of the machine in the order of their codes. -/
inductive Opcode where
  | nop | cop | cpl | str | ldr
  | add | sub | twc | inc | dec | mul | div | dvc
  | xor | and | orr | not | shr | shl
  | vga
  | psh | pop | ret | cal | cmp | cle | cln | gto | gte | gtn
  | sth | ldh
  deriving DecidableEq, Repr, Inhabited

namespace Opcode

/-- Every opcode in the order of codes. -/
def all : List Opcode :=
  [nop, cop, cpl, str, ldr, add, sub, twc, inc, dec, mul, div, dvc, xor, and, orr, not, shr, shl,
    vga, psh, pop, ret, cal, cmp, cle, cln, gto, gte, gtn, sth, ldh]

/-- The word that encodes an opcode. -/
def code : Opcode → Word
  | nop => 0x00 | cop => 0x01 | cpl => 0x02 | str => 0x03 | ldr => 0x04
  | add => 0x05 | sub => 0x06 | twc => 0x07 | inc => 0x08 | dec => 0x09
  | mul => 0x0a | div => 0x0b | dvc => 0x0c
  | xor => 0x0d | and => 0x0e | orr => 0x0f | not => 0x10 | shr => 0x11 | shl => 0x12
  | vga => 0x13
  | psh => 0x14 | pop => 0x15 | ret => 0x16 | cal => 0x17 | cmp => 0x18
  | cle => 0x19 | cln => 0x1a | gto => 0x1b | gte => 0x1c | gtn => 0x1d
  | sth => 0x1e | ldh => 0x1f

/-- The name of an opcode in assembly text. -/
def mnemonic : Opcode → String
  | nop => "nop" | cop => "cop" | cpl => "cpl" | str => "str" | ldr => "ldr"
  | add => "add" | sub => "sub" | twc => "twc" | inc => "inc" | dec => "dec"
  | mul => "mul" | div => "div" | dvc => "dvc"
  | xor => "xor" | and => "and" | orr => "orr" | not => "not" | shr => "shr" | shl => "shl"
  | vga => "vga"
  | psh => "psh" | pop => "pop" | ret => "ret" | cal => "cal" | cmp => "cmp"
  | cle => "cle" | cln => "cln" | gto => "gto" | gte => "gte" | gtn => "gtn"
  | sth => "sth" | ldh => "ldh"

/-- The number of operand words. -/
def operandCount : Opcode → Nat
  | nop | vga | ret => 0
  | cop | cpl | str | ldr | shr | shl | cmp | sth | ldh => 2
  | _ => 1

/-- The number of words of an instruction, its opcode word included. -/
def size (o : Opcode) : Nat :=
  1 + o.operandCount

/-- The opcode with the given code, if there is one. -/
def ofCode? (w : Word) : Option Opcode :=
  all[w.toNat]?

/-- The opcode with the given mnemonic, if there is one. -/
def ofMnemonic? (s : String) : Option Opcode :=
  all.find? fun o => o.mnemonic == s

theorem mem_all (o : Opcode) : o ∈ all := by
  cases o <;> decide

@[simp]
theorem ofCode?_code (o : Opcode) : ofCode? o.code = some o := by
  cases o <;> rfl

theorem ofCode?_eq_some_iff {w : Word} {o : Opcode} : ofCode? w = some o ↔ o.code = w := by
  constructor
  · intro h
    have key : ∀ n < 32, all[n]?.map code = some (UInt16.ofNat n) := by decide
    have hw := (List.getElem?_eq_some_iff.1 h).1
    simpa [show all[w.toNat]? = some o from h] using key w.toNat hw
  · rintro rfl
    exact ofCode?_code o

theorem code_injective {o p : Opcode} (h : o.code = p.code) : o = p := by
  have := ofCode?_code o
  rw [h, ofCode?_code] at this
  exact (Option.some.inj this).symm

theorem ofCode?_eq_none_iff {w : Word} : ofCode? w = none ↔ 32 ≤ w.toNat :=
  List.getElem?_eq_none_iff

theorem ofMnemonic?_eq_some_iff {s : String} {o : Opcode} :
    ofMnemonic? s = some o ↔ o.mnemonic = s := by
  constructor
  · intro h
    simpa using List.find?_some h
  · rintro rfl
    cases o <;> decide

theorem one_le_size (o : Opcode) : 1 ≤ o.size :=
  Nat.le_add_right 1 _

theorem size_le_three (o : Opcode) : o.size ≤ 3 := by
  cases o <;> decide

end Opcode

end WordMachine
