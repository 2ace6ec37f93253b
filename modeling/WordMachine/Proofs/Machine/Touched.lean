import WordMachine.Proofs.Machine.Access
import WordMachine.Proofs.Machine.Step
import WordMachine.Proofs.Sequence

namespace WordMachine

/-!
# What an instruction touches

Tables of what the instructions of each opcode may write and which cell of memory they use, told by
the opcode, the operand words and the registers alone. The registers are those that an instruction
finds: `lc` holds its own address by then, and `pc` that of the next one.

* `Instruction.written`, `Instruction.jumps` — the registers that an instruction writes, and when it
  writes `pc` besides.
* `Instruction.storedCell?`, `Instruction.loadedCell?` — the cell that it writes or reads.
* `Machine.get_perform_of_operation`, `Machine.access?_of_operation` — its operation keeps to them.
* `Machine.Touches`, `Machine.step_touches` — so does a whole step.
-/

namespace Instruction

/-! ### The tables -/

/-- The register that an operand names, if it names one. -/
def register? (i : Instruction) (k : Nat) : Option Register :=
  Register.ofId? (i.operand k)

/-- The registers that an instruction writes, but for a jump. -/
def written (i : Instruction) : List Register :=
  match i.opcode with
  | .nop | .vga | .str | .sth | .gto | .gte | .gtn => []
  | .cop | .cpl | .ldr | .ldh | .twc | .inc | .dec | .not | .shr | .shl => (i.register? 0).toList
  | .add | .sub | .mul | .xor | .and | .orr => [.ac]
  | .div | .dvc => [.ac, .ex]
  | .cmp => [.bi]
  | .psh | .ret | .cal | .cle | .cln => [.sp]
  | .pop => .sp :: (i.register? 0).toList

/-- Whether the branch indicator lets an instruction take effect. -/
def taken (i : Instruction) (f : RegisterFile) : Bool :=
  match i.opcode with
  | .cle | .gte => f.get .bi == branchTrue
  | .cln | .gtn => f.get .bi != branchTrue
  | _ => true

/-- Whether an instruction goes elsewhere than to the next one. -/
def jumps (i : Instruction) (f : RegisterFile) : Bool :=
  match i.opcode with
  | .ret | .cal | .cle | .cln | .gto | .gte | .gtn => i.taken f
  | _ => false

/-- The cell that an instruction writes. -/
def storedCell? (i : Instruction) (f : RegisterFile) (heapStart : Word) : Option Word :=
  match i.opcode with
  | .str => (i.register? 0).map f.get
  | .sth => (i.register? 0).map fun r => heapStart + f.get r
  | .psh | .cal | .cle | .cln => if i.taken f then some (f.get .sp - 1) else none
  | _ => none

/-- The cell that an instruction reads besides its own words. -/
def loadedCell? (i : Instruction) (f : RegisterFile) (heapStart : Word) : Option Word :=
  match i.opcode with
  | .ldr => (i.register? 1).map f.get
  | .ldh => (i.register? 1).map fun r => heapStart + f.get r
  | .pop | .ret => some (f.get .sp)
  | _ => none

/-! ### Reading operands -/

variable {i : Instruction} {op : Operation}

theorem registerAt_eq_ok_iff {k : Nat} {r : Register} :
    i.registerAt k = .ok r ↔ i.register? k = some r := by
  unfold registerAt register?
  split
  · next s hs => simp [hs]
  · next hs => simp [hs]

theorem onOne_eq_ok_iff {f : Register → Operation} :
    i.onOne f = .ok op ↔ ∃ r, i.register? 0 = some r ∧ f r = op := by
  simp only [onOne, Sequence.bind_eq_ok_iff, registerAt_eq_ok_iff, pure, Except.pure,
    Except.ok.injEq]

theorem onBoth_eq_ok_iff {f : Register → Register → Operation} :
    i.onBoth f = .ok op ↔
      ∃ r, i.register? 0 = some r ∧ ∃ s, i.register? 1 = some s ∧ f r s = op := by
  simp only [onBoth, Sequence.bind_eq_ok_iff, registerAt_eq_ok_iff, pure, Except.pure,
    Except.ok.injEq]

theorem onBothReversed_eq_ok_iff {f : Register → Register → Operation} :
    i.onBothReversed f = .ok op ↔
      ∃ s, i.register? 1 = some s ∧ ∃ r, i.register? 0 = some r ∧ f r s = op := by
  simp only [onBothReversed, Sequence.bind_eq_ok_iff, registerAt_eq_ok_iff, pure, Except.pure,
    Except.ok.injEq]

end Instruction

/-- The screen that is drawn, with its words. -/
def Event.drawn? : Event → Option (Screen × List Word)
  | redrawn frame => some (frame.screen, frame.words)
  | _ => none

namespace Machine

/-! ### The stack -/

theorem get_push (m : Machine) (w : Word) (r : Register) :
    (m.push w).get r = if .sp = r then m.get .sp - 1 else m.get r := by
  rw [push, get_poke, get_set]

theorem get_drop (m : Machine) (r : Register) :
    m.drop.get r = if .sp = r then m.get .sp + 1 else m.get r := by
  rw [drop, get_set, get_touch]

theorem get_call (m : Machine) (target : Word) (r : Register) :
    (m.call target).get r =
      if .pc = r then target else if .sp = r then m.get .sp - 1 else m.get r := by
  rw [call, get_set, get_push]

/-! ### Operations keep to the tables -/

variable {i : Instruction} {op : Operation}

/-- A register that is neither written nor moved by a jump keeps its word. -/
theorem get_perform_of_operation (h : i.operation = .ok op) (m : Machine) {r : Register}
    (written : r ∉ i.written) (stays : r = .pc → i.jumps m.registers = false) :
    (m.perform op).get r = m.get r := by
  obtain ⟨opcode, operands⟩ := i
  cases opcode with
  | nop | vga =>
    cases h
    rfl
  | str | sth =>
    obtain ⟨s, -, t, -, rfl⟩ := Instruction.onBoth_eq_ok_iff.1 h
    rfl
  | cop | shr | shl =>
    obtain ⟨s, -, t, ht, rfl⟩ := Instruction.onBothReversed_eq_ok_iff.1 h
    have hne : t ≠ r := by simpa [Instruction.written, ht, eq_comm] using written
    exact RegisterFile.get_set_of_ne _ _ hne
  | cpl | twc | inc | dec | not =>
    obtain ⟨t, ht, rfl⟩ := Instruction.onOne_eq_ok_iff.1 h
    have hne : t ≠ r := by simpa [Instruction.written, ht, eq_comm] using written
    exact RegisterFile.get_set_of_ne _ _ hne
  | ldr | ldh =>
    obtain ⟨t, ht, s, -, rfl⟩ := Instruction.onBoth_eq_ok_iff.1 h
    have hne : t ≠ r := by simpa [Instruction.written, ht, eq_comm] using written
    exact RegisterFile.get_set_of_ne _ _ hne
  | add | sub | mul | xor | and | orr =>
    obtain ⟨s, -, rfl⟩ := Instruction.onOne_eq_ok_iff.1 h
    have hne : .ac ≠ r := by simpa [Instruction.written, eq_comm] using written
    exact RegisterFile.get_set_of_ne _ _ hne
  | div | dvc =>
    obtain ⟨s, -, rfl⟩ := Instruction.onOne_eq_ok_iff.1 h
    obtain ⟨hac, hex⟩ : .ac ≠ r ∧ .ex ≠ r := by
      simpa [Instruction.written, eq_comm] using written
    rw [perform, get_set, if_neg hac, get_set, if_neg hex]
  | cmp =>
    obtain ⟨s, -, t, -, rfl⟩ := Instruction.onBoth_eq_ok_iff.1 h
    have hne : .bi ≠ r := by simpa [Instruction.written, eq_comm] using written
    exact RegisterFile.get_set_of_ne _ _ hne
  | psh =>
    obtain ⟨s, -, rfl⟩ := Instruction.onOne_eq_ok_iff.1 h
    have hsp : .sp ≠ r := by simpa [Instruction.written, eq_comm] using written
    rw [perform, get_push, if_neg hsp]
  | pop =>
    obtain ⟨t, ht, rfl⟩ := Instruction.onOne_eq_ok_iff.1 h
    obtain ⟨hsp, hne⟩ : .sp ≠ r ∧ t ≠ r := by
      simpa [Instruction.written, ht, eq_comm] using written
    rw [perform, get_set, if_neg hne, get_drop, if_neg hsp]
  | ret =>
    cases h
    have hsp : .sp ≠ r := by simpa [Instruction.written, eq_comm] using written
    have hpc : .pc ≠ r := by
      rintro rfl
      cases stays rfl
    rw [perform, get_set, if_neg hpc, get_drop, if_neg hsp]
  | cal | cle | cln =>
    cases h
    have hsp : .sp ≠ r := by simpa [Instruction.written, eq_comm] using written
    rw [perform]
    split
    · next holds =>
      -- A call that is taken goes elsewhere.
      have hpc : .pc ≠ r := by
        rintro rfl
        apply absurd holds
        simpa [Instruction.jumps, Instruction.taken, Machine.holds, get] using stays rfl
      rw [get_call, if_neg hpc, if_neg hsp]
    · rfl
  | gto | gte | gtn =>
    obtain ⟨s, -, rfl⟩ := Instruction.onOne_eq_ok_iff.1 h
    rw [perform]
    split
    · next holds =>
      have hpc : .pc ≠ r := by
        rintro rfl
        apply absurd holds
        simpa [Instruction.jumps, Instruction.taken, Machine.holds, get] using stays rfl
      rw [get_set, if_neg hpc]
    · rfl

/-- An operation accesses the cell of the tables and no other one. -/
theorem access?_of_operation (h : i.operation = .ok op) (m : Machine) (b : Word) :
    (i.storedCell? m.registers m.layout.heapStart = some b ↔
        ∃ w, m.access? op = some (.write b w)) ∧
      (i.loadedCell? m.registers m.layout.heapStart = some b ↔
        m.access? op = some (.read b)) := by
  obtain ⟨opcode, operands⟩ := i
  cases opcode with
  | nop | vga =>
    cases h
    simp [Instruction.storedCell?, Instruction.loadedCell?, access?]
  | cpl | twc | inc | dec | not | add | sub | mul | xor | and | orr | div | dvc | gto | gte | gtn =>
    obtain ⟨s, -, rfl⟩ := Instruction.onOne_eq_ok_iff.1 h
    simp [Instruction.storedCell?, Instruction.loadedCell?, access?]
  | cop | shr | shl =>
    obtain ⟨s, -, t, -, rfl⟩ := Instruction.onBothReversed_eq_ok_iff.1 h
    simp [Instruction.storedCell?, Instruction.loadedCell?, access?]
  | cmp =>
    obtain ⟨s, -, t, -, rfl⟩ := Instruction.onBoth_eq_ok_iff.1 h
    simp [Instruction.storedCell?, Instruction.loadedCell?, access?]
  | str | sth | ldr | ldh =>
    obtain ⟨s, hs, t, ht, rfl⟩ := Instruction.onBoth_eq_ok_iff.1 h
    simp [Instruction.storedCell?, Instruction.loadedCell?, access?, hs, ht, get]
  | psh | pop =>
    obtain ⟨s, -, rfl⟩ := Instruction.onOne_eq_ok_iff.1 h
    simp [Instruction.storedCell?, Instruction.loadedCell?, Instruction.taken, access?, get]
  | ret =>
    cases h
    simp [Instruction.storedCell?, Instruction.loadedCell?, access?, get]
  | cal | cle | cln =>
    cases h
    simp [Instruction.storedCell?, Instruction.loadedCell?, Instruction.taken, access?, get,
      Machine.holds]

/-- An operation draws the screen if its opcode is `vga`. -/
theorem redraws_of_operation (h : i.operation = .ok op) (m : Machine) :
    m.redraws op =
      if i.opcode = .vga then [.redrawn ⟨m.layout.screen, m.memory⟩] else [] := by
  obtain ⟨opcode, operands⟩ := i
  cases opcode with
  | nop | vga | ret | cal | cle | cln =>
    cases h
    rfl
  | cop | shr | shl =>
    obtain ⟨s, -, t, -, rfl⟩ := Instruction.onBothReversed_eq_ok_iff.1 h
    rfl
  | str | sth | ldr | ldh | cmp =>
    obtain ⟨s, -, t, -, rfl⟩ := Instruction.onBoth_eq_ok_iff.1 h
    rfl
  | _ =>
    obtain ⟨s, -, rfl⟩ := Instruction.onOne_eq_ok_iff.1 h
    rfl

/-! ### A whole step -/

/-- The step of an instruction changes no more than the tables say of the registers that the
instruction finds, and it maps the words of the instruction and the cell that it uses. -/
structure Touches (m : Machine) (i : Instruction) (t : Transition) : Prop where
  layout : t.machine.layout = m.layout
  words : ∀ b, i.storedCell? (m.advanced i).registers m.layout.heapStart ≠ some b →
    t.machine.memory.peek b = m.memory.peek b
  mapped : ∀ b, b ∈ t.machine.footprint ↔
    b ∈ m.footprint ∨ (∃ k < i.size, m.get .pc + UInt16.ofNat k = b) ∨
      i.storedCell? (m.advanced i).registers m.layout.heapStart = some b ∨
      i.loadedCell? (m.advanced i).registers m.layout.heapStart = some b
  registers : ∀ r, r ≠ .pc → r ≠ .lc → r ∉ i.written → t.machine.get r = m.get r
  pc : i.jumps (m.advanced i).registers = false → .pc ∉ i.written →
    t.machine.get .pc = m.get .pc + UInt16.ofNat i.size
  lc : .lc ∉ i.written → t.machine.get .lc = m.get .pc
  drawn : t.events.filterMap Event.drawn? =
    if i.opcode = .vga then [(m.layout.screen, m.screenWords)] else []
  /-- The operands are read when `lc` and `pc` have moved. -/
  operands : ∃ op, i.operation = .ok op ∧ t.machine = (m.advanced i).perform op

theorem screenWords_advanced (m : Machine) (i : Instruction) :
    (m.advanced i).screenWords = m.screenWords := by
  rw [screenWords, screenWords, Memory.firstWords, Memory.firstWords]
  simp only [peek_advanced, layout_advanced]

/-- What can be executed is the operation of the instruction. -/
theorem operation_of_operationOf {m : Machine} {a : Word} {i : Instruction} {op : Operation}
    (h : m.operationOf a i = .ok op) : i.operation = .ok op := by
  unfold operationOf at h
  split at h
  · cases h
  · next hop =>
    split at h
    · cases h
    · rw [hop, Except.ok.inj h]

theorem touches_of_operation {m : Machine} {i : Instruction} {op : Operation}
    (h : i.operation = .ok op) {result : Except Fault Status} {registers : RegisterFile} :
    m.Touches i ⟨(m.advanced i).perform op, result,
      .executed (m.get .pc) i registers :: (m.advanced i).redraws op⟩ where
  layout := layout_perform ..
  words := by
    intro b hb
    rw [← peek_advanced m i b]
    apply peek_perform_of_not_write
    intro w hwrite
    exact hb (((access?_of_operation h (m.advanced i) b).1).2 ⟨w, hwrite⟩)
  mapped := by
    intro b
    obtain ⟨hstored, hloaded⟩ := access?_of_operation h (m.advanced i) b
    rw [layout_advanced] at hstored hloaded
    rw [mem_footprint_perform, mem_footprint_advanced, hstored, hloaded]
    -- The cell of an operation is written or read.
    have haccess : (∃ x, (m.advanced i).access? op = some x ∧ x.address = b) ↔
        (∃ w, (m.advanced i).access? op = some (.write b w)) ∨
          (m.advanced i).access? op = some (.read b) := by
      constructor
      · rintro ⟨_ | ⟨_, w⟩, hx, rfl⟩
        · exact .inr hx
        · exact .inl ⟨w, hx⟩
      · rintro (⟨w, hx⟩ | hx)
        · exact ⟨_, hx, rfl⟩
        · exact ⟨_, hx, rfl⟩
    rw [haccess, or_comm, or_comm (b := b ∈ m.footprint), or_assoc]
  registers := by
    intro r hpc hlc hr
    show ((m.advanced i).perform op).get r = _
    rw [get_perform_of_operation h _ hr fun heq => absurd heq hpc, get_advanced,
      if_neg (Ne.symm hpc), if_neg (Ne.symm hlc)]
  pc := by
    intro stays hr
    show ((m.advanced i).perform op).get .pc = _
    rw [get_perform_of_operation h _ hr fun _ => stays, get_advanced, if_pos rfl]
  lc := by
    intro hr
    show ((m.advanced i).perform op).get .lc = _
    rw [get_perform_of_operation h _ hr (by simp), get_advanced, if_neg (by decide), if_pos rfl]
  drawn := by
    rw [redraws_of_operation h, ← screenWords_advanced m i]
    split
    · rfl
    · rfl
  operands := ⟨op, h, rfl⟩

/-- **What one instruction touches.** A machine that is not halted and whose step succeeds executes
the instruction at its program counter, and the step touches nothing but what the tables give for
that. -/
theorem step_touches {m : Machine} {status : Status} (running : m.halted = false)
    (succeeds : m.step.result = .ok status) :
    ∃ i, m.instructionAt (m.get .pc) = .ok i ∧
      (m.advanced i).registers =
        (m.registers.set .lc (m.get .pc)).set .pc (m.get .pc + UInt16.ofNat i.size) ∧
      m.Touches i m.step := by
  generalize hstep : m.step = t at succeeds ⊢
  cases steps_iff.2 hstep with
  | halted halted =>
    rw [running] at halted
    cases halted
  | unknown running fetches => cases succeeds
  | refuses running fetches fails => cases succeeds
  | @performs i op running fetches decodes =>
    exact ⟨i, fetches, registers_advanced m i,
      touches_of_operation (operation_of_operationOf decodes)⟩

/-- A machine in front of `str pc lc` at the last address but one. The instruction wraps around, and
stores its own address where the next one starts. -/
def wrappedStore : Machine where
  registers := RegisterFile.zero.set .pc 0xFFFE
  memory := Memory.blank.write
    (placed 0xFFFE (Instruction.words ⟨.str, [Register.pc.id, Register.lc.id]⟩))
  layout := ⟨⟨0, 0⟩, 0x0130⟩

theorem instructionAt_wrappedStore :
    wrappedStore.instructionAt 0xFFFE = .ok ⟨.str, [Register.pc.id, Register.lc.id]⟩ := by
  exact instructionAt_of_written (show Instruction.WellFormed _ by decide) rfl (by decide)
    (List.Subset.refl _)

theorem step_touches_wrappedStore :
    wrappedStore.halted = false ∧ wrappedStore.step.result = .ok .running ∧
      (∀ b, b ≠ 0x0001 →
        wrappedStore.step.machine.memory.peek b = wrappedStore.memory.peek b) ∧
      0x0001 ∈ wrappedStore.step.machine.footprint ∧
      wrappedStore.step.machine.get .pc = 0x0001 ∧
      wrappedStore.step.machine.get .lc = 0xFFFE := by
  have succeeds : wrappedStore.step.result = .ok .running := by
    rw [step_of_steps (.performs rfl instructionAt_wrappedStore rfl)]
    rfl
  obtain ⟨i, fetches, -, touches⟩ := step_touches rfl succeeds
  obtain rfl := Except.ok.inj (instructionAt_wrappedStore.symm.trans fetches)
  refine ⟨rfl, succeeds, ?_, (touches.mapped _).2 (.inr (.inr (.inl rfl))),
    touches.pc rfl (by decide), touches.lc (by decide)⟩
  intro b hb
  refine touches.words b fun heq => hb ?_
  exact (Option.some.inj heq).symm

end Machine

end WordMachine
