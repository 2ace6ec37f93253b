import WordMachine.Instruction
import WordMachine.Register

namespace WordMachine

/-!
# Operations

An instruction holds bare operand words; only its opcode tells which of them name registers. An
`Operation` is an instruction whose operand words have been read in that way.

* `Instruction.operation` — the operation of an instruction, or the operand word that should name
  a register and does not.
* `Accumulation.apply`, `Change.apply`, `Word.divide`, `Word.shift` — the arithmetic.
-/

/-- When a call or a jump is taken: always, or by what the last comparison found. -/
inductive Condition where
  | always | equal | different
  deriving DecidableEq, Repr

/-- The operations that combine the accumulator with a register. -/
inductive Accumulation where
  | add | sub | mul | xor | and | orr
  deriving DecidableEq, Repr

/-- The operations that change one register. -/
inductive Change where
  | twc | inc | dec | not
  deriving DecidableEq, Repr

/-- What an instruction does. -/
inductive Operation where
  | nop
  | copy (target source : Register)
  | put (target : Register) (value : Word)
  | store (address value : Register)
  | load (target address : Register)
  | accumulate (f : Accumulation) (operand : Register)
  | divide (signed : Bool) (divisor : Register)
  | change (f : Change) (target : Register)
  | shift (left : Bool) (target amount : Register)
  | redraw
  | push (source : Register)
  | pop (target : Register)
  | ret
  | call (condition : Condition) (target : Word)
  | compare (first second : Register)
  | jump (condition : Condition) (target : Register)
  /-- A store at an offset from the start of the heap. -/
  | storeHeap (offset value : Register)
  /-- A load from an offset from the start of the heap. -/
  | loadHeap (target offset : Register)
  deriving DecidableEq, Repr

/-! ### Arithmetic -/

/-- The new accumulator, from the old one and an operand. -/
def Accumulation.apply : Accumulation → Word → Word → Word
  | add, a, w => a + w
  | sub, a, w => a + w.negate
  | mul, a, w => a * w
  | xor, a, w => a ^^^ w
  | and, a, w => a &&& w
  | orr, a, w => a ||| w

/-- The new word in a register, from the old one. -/
def Change.apply : Change → Word → Word
  | twc, w => w.negate
  | inc, w => w + 1
  | dec, w => w + Word.negate 1
  | not, w => ~~~w

namespace Word

/-- Quotient and remainder. In signed division the quotient is rounded toward zero and the
remainder is that of the magnitudes. -/
def divide (signed : Bool) (a d : Word) : Word × Word :=
  if signed then
    let q := a.magnitude / d.magnitude
    (if a.isNegative = d.isNegative then q else q.negate, a.magnitude % d.magnitude)
  else (a / d, a % d)

/-- A word shifted by an amount; sixteen places or more leave nothing. -/
def shift (left : Bool) (w amount : Word) : Word :=
  if amount < 16 then (if left then w <<< amount else w >>> amount) else 0

end Word

/-! ### The operation of an instruction -/

namespace Instruction

/-- An operand word; an operand that is missing counts as zero. -/
def operand (i : Instruction) (k : Nat) : Word :=
  i.operands.getD k 0

/-- The register that an operand names. -/
def registerAt (i : Instruction) (k : Nat) : Except Word Register :=
  match Register.ofId? (i.operand k) with
  | some r => .ok r
  | none => .error (i.operand k)

/-- An operation on the register that the only operand names. -/
def onOne (i : Instruction) (f : Register → Operation) : Except Word Operation := do
  return f (← i.registerAt 0)

/-- An operation on the registers that both operands name, the first of which is read first. -/
def onBoth (i : Instruction) (f : Register → Register → Operation) : Except Word Operation := do
  let first ← i.registerAt 0
  let second ← i.registerAt 1
  return f first second

/-- An operation on the registers that both operands name, the second of which is read first. -/
def onBothReversed (i : Instruction) (f : Register → Register → Operation) :
    Except Word Operation := do
  let second ← i.registerAt 1
  let first ← i.registerAt 0
  return f first second

/-- The operation of an instruction, or the first operand word that should name a register and
does not. -/
def operation (i : Instruction) : Except Word Operation :=
  match i.opcode with
  | .nop => .ok .nop
  | .cop => i.onBothReversed .copy
  | .cpl => i.onOne fun target => .put target (i.operand 1)
  | .str => i.onBoth .store
  | .ldr => i.onBoth .load
  | .add => i.onOne (.accumulate .add)
  | .sub => i.onOne (.accumulate .sub)
  | .twc => i.onOne (.change .twc)
  | .inc => i.onOne (.change .inc)
  | .dec => i.onOne (.change .dec)
  | .mul => i.onOne (.accumulate .mul)
  | .div => i.onOne (.divide false)
  | .dvc => i.onOne (.divide true)
  | .xor => i.onOne (.accumulate .xor)
  | .and => i.onOne (.accumulate .and)
  | .orr => i.onOne (.accumulate .orr)
  | .not => i.onOne (.change .not)
  | .shr => i.onBothReversed (.shift false)
  | .shl => i.onBothReversed (.shift true)
  | .vga => .ok .redraw
  | .psh => i.onOne .push
  | .pop => i.onOne .pop
  | .ret => .ok .ret
  | .cal => .ok (.call .always (i.operand 0))
  | .cmp => i.onBoth .compare
  | .cle => .ok (.call .equal (i.operand 0))
  | .cln => .ok (.call .different (i.operand 0))
  | .gto => i.onOne (.jump .always)
  | .gte => i.onOne (.jump .equal)
  | .gtn => i.onOne (.jump .different)
  | .sth => i.onBoth .storeHeap
  | .ldh => i.onBoth .loadHeap

end Instruction

end WordMachine
