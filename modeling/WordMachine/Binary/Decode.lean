import WordMachine.Binary.Format
import WordMachine.Log

namespace WordMachine.Binary

/-!
# Decoding

`decode` reads the binary form of a program. Every opcode must be in the instruction table, every
instruction must end within the frame of its subroutine, and every frame below `haltAddress`.
Nothing but the last subroutine, which is `main`, has a name.

The readers of the sections count the offset of their first word along, since errors tell it.
-/

/-- Constants up to the sentinel, behind those in `done`, which holds the latest first. Answers
with the words behind the sentinel and their offset. -/
def constantsFrom (done : List Constant) (offset : Nat) :
    List Word → Except BinaryError (List Constant × Nat × List Word)
  | [] => .error (.truncated offset .constantSection)
  | address :: rest =>
    -- A value may well be the sentinel: it is looked for at addresses only.
    if address = sentinel then .ok (done.reverse, offset + 1, rest)
    else
      match rest with
      | [] => .error (.truncated (offset + 1) .constantPair)
      | value :: rest => constantsFrom (⟨none, address, value⟩ :: done) (offset + 2) rest

/-- The instructions of a frame, behind those in `done`, which holds the latest first. The words
start at an address and an offset. -/
def instructionsFrom (done : List Instruction) (address : Word) (offset : Nat) (ws : List Word) :
    Except BinaryError (List Instruction) :=
  match ws with
  | [] => .ok done.reverse
  | code :: rest =>
    match Opcode.ofCode? code with
    | none => .error (.unknownOpcode code offset)
    | some opcode =>
      let operands := rest.take opcode.operandCount
      -- Fewer words are left in the frame than the opcode takes.
      if operands.length < opcode.operandCount then .error (.instructionOverrun opcode address)
      else
        instructionsFrom (⟨opcode, operands⟩ :: done) (address + UInt16.ofNat opcode.size)
          (offset + opcode.size) (rest.drop opcode.operandCount)
termination_by ws.length
decreasing_by
  simp only [List.length_drop, List.length_cons]
  omega

/-- Subroutines up to the last word, behind those in `done`, which holds the latest first. -/
def subroutinesFrom (done : List Subroutine) (offset : Nat) (ws : List Word) :
    Except BinaryError (List Subroutine) :=
  match ws with
  | [] => .ok done.reverse
  | [_] => .error (.truncated (offset + 1) .subroutineHeader)
  | address :: size :: rest =>
    -- The header is checked before the body is looked at.
    if ¬ frameFits address size.toNat then .error .reservedAddress
    else
      let body := rest.take size.toNat
      if body.length < size.toNat then
        .error (.truncated (offset + 2 + body.length) .subroutineBody)
      else
        match instructionsFrom [] address (offset + 2) body with
        | .error e => .error e
        | .ok instructions =>
          subroutinesFrom (⟨none, address, instructions⟩ :: done) (offset + 2 + size.toNat)
            (rest.drop size.toNat)
termination_by ws.length
decreasing_by
  simp only [List.length_drop, List.length_cons]
  omega

/-! ### The readers from the front of their input -/

theorem constantsFrom_eq (done : List Constant) (offset : Nat) (ws : List Word) :
    constantsFrom done offset ws =
      (constantsFrom [] offset ws).map fun (cs, o, rest) => (done.reverse ++ cs, o, rest) := by
  match ws with
  | [] => rfl
  | [address] =>
    simp only [constantsFrom]
    split <;> simp [Except.map]
  | address :: value :: rest =>
    simp only [constantsFrom]
    split
    · simp [Except.map]
    · rw [constantsFrom_eq (_ :: done), constantsFrom_eq [_]]
      cases constantsFrom [] (offset + 2) rest with
      | error e => rfl
      | ok r => simp [Except.map]

theorem instructionsFrom_eq (done : List Instruction) (address : Word) (offset : Nat)
    (ws : List Word) :
    instructionsFrom done address offset ws =
      (instructionsFrom [] address offset ws).map (done.reverse ++ ·) := by
  match ws with
  | [] => simp [instructionsFrom, Except.map]
  | code :: rest =>
    rw [instructionsFrom, instructionsFrom]
    cases Opcode.ofCode? code with
    | none => rfl
    | some opcode =>
      simp only
      split
      · rfl
      · rw [instructionsFrom_eq (_ :: done), instructionsFrom_eq [_]]
        cases instructionsFrom [] (address + UInt16.ofNat opcode.size) (offset + opcode.size)
          (rest.drop opcode.operandCount) with
        | error e => rfl
        | ok is => simp [Except.map]
termination_by ws.length
decreasing_by
  all_goals
    simp only [List.length_drop, List.length_cons]
    omega

theorem subroutinesFrom_eq (done : List Subroutine) (offset : Nat) (ws : List Word) :
    subroutinesFrom done offset ws = (subroutinesFrom [] offset ws).map (done.reverse ++ ·) := by
  match ws with
  | [] => simp [subroutinesFrom, Except.map]
  | [_] => simp [subroutinesFrom, Except.map]
  | address :: size :: rest =>
    rw [subroutinesFrom, subroutinesFrom]
    simp only
    split
    · rfl
    · split
      · rfl
      · cases instructionsFrom [] address (offset + 2) (rest.take size.toNat) with
        | error e => rfl
        | ok is =>
          simp only
          rw [subroutinesFrom_eq (_ :: done), subroutinesFrom_eq [_]]
          cases subroutinesFrom [] (offset + 2 + size.toNat) (rest.drop size.toNat) with
          | error e => rfl
          | ok ss => simp [Except.map]
termination_by ws.length
decreasing_by
  all_goals
    simp only [List.length_drop, List.length_cons]
    omega

/-! ### Whole programs -/

/-- The program that the words behind the magic number spell. -/
def decodeWords (ws : List Word) : Except BinaryError Program := do
  let (constants, offset, rest) ← constantsFrom [] 0 ws
  let subroutines ← subroutinesFrom [] offset rest
  match subroutines.getLast? with
  | some last => return ⟨constants, Program.onlyMainNamed subroutines, last.address⟩
  | none => throw .missingEntryPoint

/-- The program whose binary form the bytes are. -/
def decode (bytes : List UInt8) : Except BinaryError Program :=
  if bytes.take magic.length ≠ magic then .error .invalidMagic
  else
    let payload := bytes.drop magic.length
    match words? payload with
    | some ws => decodeWords ws
    | none => .error (.oddLength payload.length)

/-! ### The log -/

/-- The record of a program just decoded. -/
def decodedRecord (p : Program) : Log.Record :=
  ⟨.debug, .codec, s!"decoded {p.constants.length} constant words and " ++
    s!"{p.subroutines.length} subroutines, entry at {p.entry.hex}"⟩

/-- The log of `decode`, which reports success alone. -/
def decodeRecords (bytes : List UInt8) : List Log.Record :=
  match decode bytes with
  | .ok p => [decodedRecord p]
  | .error _ => []

end WordMachine.Binary
