import WordMachine.Assembly

namespace WordMachine

open Source

/-!
# Assembly by indices

A draft keeps its references to labels with it. An assembler that writes instructions at once keeps
them in one list for the whole text, each with the scope of its label and with the indices of the
operand that waits for it, which the list of subroutines may have or not. Here an index that is not
there is an outcome of its own, and a refusal tells the state that it leaves behind.

* `Slot` — the indices of an operand; `Slot.word?` and `Slot.fill?` — what is there.
* `Patch` and `Assembler` — an operand that waits, and the state between two lines.
* `Assembler.read` — the first pass, over the lines.
* `Assembler.patchLabels` — the second pass, over the patches.
* `Assembler.assemble` — both passes, and the program behind them.
-/

/-! ### Slots -/

/-- The place of an operand, by indices. -/
structure Slot where
  subroutine : Nat
  instruction : Nat
  operand : Nat
  deriving DecidableEq, Repr

section Index

variable {α : Type} {as bs : List α} {f : α → Option α} {i : Nat}

/-- The list with the element at an index changed, if there is such an element. -/
def changeAt? (as : List α) (i : Nat) (f : α → Option α) : Option (List α) :=
  as[i]?.bind fun a => (f a).map (as.set i)

theorem changeAt?_eq_some_iff :
    changeAt? as i f = some bs ↔ ∃ a b, as[i]? = some a ∧ f a = some b ∧ bs = as.set i b := by
  simp only [changeAt?, Option.bind_eq_some_iff, Option.map_eq_some_iff, eq_comm (b := bs)]
  constructor
  · rintro ⟨a, ha, b, hb, rfl⟩
    exact ⟨a, b, ha, hb, rfl⟩
  · rintro ⟨a, b, ha, hb, rfl⟩
    exact ⟨a, ha, b, hb, rfl⟩

/-- The element behind some others. -/
theorem changeAt?_append (before : List α) (a : α) (after : List α) (f : α → Option α) :
    changeAt? (before ++ a :: after) before.length f =
      (f a).map fun b => before ++ b :: after := by
  have hget : (before ++ a :: after)[before.length]? = some a := by simp
  rw [changeAt?, hget, Option.bind_some]
  congr 1
  funext b
  simp

theorem length_of_changeAt? (h : changeAt? as i f = some bs) : bs.length = as.length := by
  obtain ⟨a, b, -, -, rfl⟩ := changeAt?_eq_some_iff.1 h
  exact List.length_set

theorem getElem?_of_changeAt? (h : changeAt? as i f = some bs) (j : Nat) :
    bs[j]? = if j = i then as[i]?.bind f else as[j]? := by
  obtain ⟨a, b, ha, hb, rfl⟩ := changeAt?_eq_some_iff.1 h
  obtain ⟨hlt, -⟩ := List.getElem?_eq_some_iff.1 ha
  by_cases hj : j = i
  · subst hj
    rw [List.getElem?_set_self hlt, if_pos rfl, ha, Option.bind_some, hb]
  · rw [List.getElem?_set_ne (Ne.symm hj), if_neg hj]

end Index

namespace Slot

variable {ss ts : List Subroutine} {slot : Slot} {w : Word}

/-- The word that a slot holds, if it is there. -/
def word? (ss : List Subroutine) (slot : Slot) : Option Word :=
  ss[slot.subroutine]?.bind fun s =>
    s.instructions[slot.instruction]?.bind fun i => i.operands[slot.operand]?

/-- The subroutines with another word in a slot, if it is there. -/
def fill? (ss : List Subroutine) (slot : Slot) (w : Word) : Option (List Subroutine) :=
  changeAt? ss slot.subroutine fun s =>
    (changeAt? s.instructions slot.instruction fun i =>
      (changeAt? i.operands slot.operand fun _ => some w).map
        fun operands => { i with operands }).map
      fun instructions => { s with instructions }

/-- The subroutines with one more instruction at the end of one of them, if it is there. -/
def emit? (ss : List Subroutine) (k : Nat) (i : Instruction) : Option (List Subroutine) :=
  changeAt? ss k fun s => some { s with instructions := s.instructions ++ [i] }

/-- A slot that is there can be filled. -/
theorem exists_fill? (h : slot.word? ss = some w) (v : Word) : ∃ ts, slot.fill? ss v = some ts := by
  obtain ⟨s, hs, h⟩ := Option.bind_eq_some_iff.1 h
  obtain ⟨i, hi, hw⟩ := Option.bind_eq_some_iff.1 h
  simp [fill?, changeAt?, hs, hi, hw]

/-- Filling a slot changes no other one. -/
theorem word?_of_fill? (h : slot.fill? ss w = some ts) (other : Slot) :
    other.word? ts = if other = slot then some w else other.word? ss := by
  obtain ⟨k, n, m⟩ := slot
  obtain ⟨k', n', m'⟩ := other
  obtain ⟨s, s', hs, hs', -⟩ := changeAt?_eq_some_iff.1 h
  obtain ⟨is, his, -⟩ := Option.map_eq_some_iff.1 hs'
  obtain ⟨i, i', hi, hi', -⟩ := changeAt?_eq_some_iff.1 his
  obtain ⟨ws, hws, -⟩ := Option.map_eq_some_iff.1 hi'
  obtain ⟨v, -, hv, -, -⟩ := changeAt?_eq_some_iff.1 hws
  dsimp only at hs his hi hws hv
  simp only [word?, getElem?_of_changeAt? h, Slot.mk.injEq]
  by_cases hk : k' = k
  · subst hk
    simp only [hs, his, if_true, Option.bind_some, Option.map_some, true_and,
      getElem?_of_changeAt? his]
    by_cases hn : n' = n
    · subst hn
      simp only [hi, hws, hv, if_true, Option.bind_some, Option.map_some, true_and,
        getElem?_of_changeAt? hws]
    · simp only [hn, if_false, false_and]
  · simp only [hk, if_false, false_and]

theorem exists_emit? {k : Nat} (hk : k < ss.length) (i : Instruction) :
    ∃ ts, emit? ss k i = some ts := by
  simp [emit?, changeAt?, List.getElem?_eq_getElem hk]

theorem word?_append (h : slot.word? ss = some w) (s : Subroutine) :
    slot.word? (ss ++ [s]) = some w := by
  obtain ⟨t, ht, h⟩ := Option.bind_eq_some_iff.1 h
  obtain ⟨hlt, -⟩ := List.getElem?_eq_some_iff.1 ht
  rw [word?, List.getElem?_append_left hlt, ht]
  exact h

/-- One more instruction changes no slot that is there. -/
theorem word?_of_emit? {k : Nat} {i : Instruction} (h : emit? ss k i = some ts)
    (hw : slot.word? ss = some w) : slot.word? ts = some w := by
  obtain ⟨s, hs, hrest⟩ := Option.bind_eq_some_iff.1 hw
  rw [word?, getElem?_of_changeAt? h]
  by_cases hk : slot.subroutine = k
  · rw [if_pos hk, ← hk, hs, Option.bind_some, Option.bind_some]
    obtain ⟨j, hj, hrest⟩ := Option.bind_eq_some_iff.1 hrest
    obtain ⟨hlt, -⟩ := List.getElem?_eq_some_iff.1 hj
    rw [List.getElem?_append_left hlt, hj]
    exact hrest
  · rw [if_neg hk]
    exact hw

/-- The slots of a new instruction are its operands. -/
theorem word?_new_of_emit? {k : Nat} {i : Instruction} {s : Subroutine}
    (h : emit? ss k i = some ts) (hs : ss[k]? = some s) (operand : Nat) :
    word? ts ⟨k, s.instructions.length, operand⟩ = i.operands[operand]? := by
  simp [word?, getElem?_of_changeAt? h, hs]

/-- They were not there before. -/
theorem word?_new {k : Nat} {s : Subroutine} (hs : ss[k]? = some s) (operand : Nat) :
    word? ss ⟨k, s.instructions.length, operand⟩ = none := by
  simp [word?, hs]

end Slot

/-! ### The two passes -/

/-- A slot that waits for the address of a label. -/
structure Patch where
  line : Nat
  /-- The scope of the label. -/
  scope : Nat
  slot : Slot
  name : String
  deriving DecidableEq, Repr

/-- The patch of a reference in an instruction. -/
def LabelReference.patch (r : LabelReference) (scope subroutine instruction : Nat) : Patch :=
  ⟨r.line, scope, ⟨subroutine, instruction, r.position⟩, r.name⟩

/-- The state between two lines, with subroutines and patches in the order of the text. -/
structure Assembler where
  cursor : Nat
  symbols : SymbolTable
  constants : List Constant
  subroutines : List Subroutine
  /-- The scope of the open subroutine. -/
  scope? : Option Nat
  patches : List Patch
  deriving DecidableEq, Repr

namespace Assembler

/-- Why an assembler stops. -/
inductive Stop where
  /-- An index is not there. -/
  | outOfBounds
  | refused (e : AssemblyError)
  deriving DecidableEq, Repr

/-- A result, or a stop with the state that it leaves behind. -/
abbrev Outcome (α : Type) : Type :=
  Except (Stop × Assembler) α

/-- The state that a pass leaves behind, however it ends. -/
def Outcome.state : Outcome Assembler → Assembler
  | .ok s => s
  | .error (_, s) => s

section Stops

variable {α : Type}

/-- A refusal. -/
def refuse (s : Assembler) (e : AssemblyError) : Outcome α :=
  .error (.refused e, s)

/-- What a computation yields that may be refused. -/
def attempt (s : Assembler) : Except AssemblyError α → Outcome α
  | .ok a => .ok a
  | .error e => s.refuse e

/-- What an index yields, which must be there. -/
def demand (s : Assembler) : Option α → Outcome α
  | some a => .ok a
  | none => .error (.outOfBounds, s)

end Stops

/-- The state before the first line. -/
def start (base : Word) : Assembler :=
  ⟨base.toNat, .empty, [], [], none, []⟩

/-- The next free address as a word. -/
def address (s : Assembler) : Word :=
  UInt16.ofNat s.cursor

/-- Takes the next `size` words. -/
def reserve (s : Assembler) (line size : Nat) : Outcome Assembler :=
  if s.cursor < haltAddress.toNat ∧ s.cursor + size ≤ haltAddress.toNat then
    .ok { s with cursor := s.cursor + size }
  else s.refuse (.addressSpaceExhausted line)

/-- The state without an open subroutine. -/
def close (s : Assembler) : Assembler :=
  { s with scope? := none }

/-- Lays out a constant in front of the first subroutine. -/
def declareConstant (s : Assembler) (line : Nat) (name value : String) : Outcome Assembler :=
  if s.subroutines ≠ [] then s.refuse (.constantInSubroutine line name)
  else do
    let words ← s.attempt (constantWords line value)
    let next ← s.reserve line words.length
    match s.symbols.insertConstant? name s.address with
    | some symbols =>
      .ok { next with
        symbols
        constants := s.constants ++ Assembly.constantsOf name s.address words }
    | none => next.refuse (.duplicateConstant line name)

/-- Opens a subroutine. The one before it is closed even if this one is refused. -/
def openSubroutine (s : Assembler) (line : Nat) (name : String) : Outcome Assembler := do
  let next ← s.close.reserve line 0
  match s.symbols.insertSubroutine? name s.address with
  | some (scope, symbols) =>
    .ok { next with
      symbols
      subroutines := s.subroutines ++ [⟨some name, s.address, []⟩]
      scope? := some scope }
  | none => next.refuse (.duplicateSubroutine line name)

/-- Gives the next free address a name in the open scope. -/
def declareLabel (s : Assembler) (line : Nat) (name : String) : Outcome Assembler :=
  match s.scope? with
  | none => s.refuse (.labelOutsideSubroutine line name)
  | some scope => do
    let next ← s.reserve line 0
    match s.symbols.insertLabel? scope name s.address with
    | some symbols => .ok { next with symbols }
    | none => next.refuse (.duplicateLabel line name)

/-- The state with some more patches. -/
def record (s : Assembler) (patches : List Patch) : Assembler :=
  { s with patches := s.patches ++ patches }

/-- One more operand of an instruction that is not written yet. A label leaves a patch and a
zero. -/
def takeOperand (line scope subroutine instruction : Nat) (taken : Assembler × List Word)
    (token : String × Nat) : Outcome (Assembler × List Word) :=
  match Assembly.draftToken taken.1.symbols line token.1 with
  | .error e => taken.1.refuse e
  | .ok (.word w) => .ok (taken.1, taken.2 ++ [w])
  | .ok (.label name) =>
    .ok (taken.1.record [⟨line, scope, ⟨subroutine, instruction, token.2⟩, name⟩], taken.2 ++ [0])

/-- Writes an instruction at the end of the last subroutine. -/
def emit (s : Assembler) (line : Nat) (mnemonic : String) (tokens : List String) :
    Outcome Assembler :=
  match s.scope? with
  | none => s.refuse (.instructionOutsideSubroutine line)
  | some scope =>
    match Opcode.ofMnemonic? mnemonic with
    | none => s.refuse (.unknownMnemonic line mnemonic)
    | some opcode =>
      if tokens.length = opcode.operandCount then do
        -- Without subroutines there is no last one, and nothing at this index either.
        let last := s.subroutines.length - 1
        let subroutine ← s.demand s.subroutines[last]?
        let (taken, operands) ←
          tokens.zipIdx.foldlM (takeOperand line scope last subroutine.instructions.length) (s, [])
        let next ← taken.reserve line opcode.size
        let subroutines ← next.demand (Slot.emit? next.subroutines last ⟨opcode, operands⟩)
        return { next with subroutines }
      else s.refuse (.wrongOperandCount line opcode tokens.length)

/-- The state after a line. -/
def step (s : Assembler) (line : Line) : Outcome Assembler := do
  match ← s.attempt (Statement.ofLine line) with
  | .constant name value => s.declareConstant line.number name value
  | .subroutine name => s.openSubroutine line.number name
  | .label name => s.declareLabel line.number name
  | .instruction mnemonic operands => s.emit line.number mnemonic operands

/-- The first pass, which reads all lines. -/
def read (lines : List Line) (base : Word) : Outcome Assembler :=
  lines.foldlM step (start base)

/-- Puts the address of a label into the slot that waits for it. -/
def patchLabel (s : Assembler) (p : Patch) : Outcome Assembler :=
  match s.symbols.label? p.scope p.name with
  | none => s.refuse (.undeclaredLabel p.line p.name)
  | some address => do
    let subroutines ← s.demand (p.slot.fill? s.subroutines address)
    return { s with subroutines }

/-- The second pass, over some patches. -/
def patchLabels (s : Assembler) (patches : List Patch) : Outcome Assembler :=
  patches.foldlM patchLabel s

/-- The program behind both passes. Its last subroutine must be named `main`. -/
def finish (s : Assembler) : Outcome Program :=
  match s.subroutines.getLast? with
  | none => s.refuse .missingMain
  | some last =>
    if last.name? = some mainName then .ok ⟨s.constants, s.subroutines, last.address⟩
    else s.refuse (.misnamedMain (last.name?.getD ""))

/-- The program of lines of tokens, laid out from an address on. -/
def assemble (lines : List Line) (base : Word) : Outcome Program := do
  let s ← read lines base
  let patched ← s.close.patchLabels s.patches
  patched.finish

end Assembler

end WordMachine
