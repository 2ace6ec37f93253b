import WordMachine.Machine.Step

namespace WordMachine.Machine

/-!
# Steps and runs

A step goes one of four ways. `Steps` lists them with everything that is decided on the way and
everything that changes, so that what a step keeps is shown once for each of the four.

* `Machine.advanced` — the machine between the fetch of an instruction and its effect.
* `Machine.Steps` — the four ways; `steps_iff` — `Machine.step` goes just these.
* `Machine.after` — the machine behind several steps.
* `instructionAt_congr` and `operationOf_congr` — what an instruction and its operation depend on.
-/

/-! ### What is decided in a step -/

/-- An instruction depends on its own words alone, and an unknown opcode on one word. -/
theorem instructionAt_congr {m n : Machine} {a : Word} (code : n.memory.peek a = m.memory.peek a)
    (operands : ∀ i, m.instructionAt a = .ok i → ∀ k < i.size,
      n.memory.peek (a + UInt16.ofNat k) = m.memory.peek (a + UInt16.ofNat k)) :
    n.instructionAt a = m.instructionAt a := by
  unfold instructionAt at operands ⊢
  rw [code]
  cases hcode : Opcode.ofCode? (m.memory.peek a) with
  | none => rfl
  | some opcode =>
    rw [hcode] at operands
    have hwords : ∀ k < opcode.operandCount, n.memory.peek (a + UInt16.ofNat (k + 1)) =
        m.memory.peek (a + UInt16.ofNat (k + 1)) := by
      intro k hk
      apply operands _ rfl
      show k + 1 < 1 + opcode.operandCount
      omega
    refine congrArg (fun ws => Except.ok (Instruction.mk opcode ws)) ?_
    exact List.map_congr_left fun k hk => hwords k (List.mem_range.1 hk)

/-- The operation of an instruction and its divisor depend on the registers alone. -/
theorem operationOf_congr {m n : Machine} (registers : n.registers = m.registers) (a : Word)
    (i : Instruction) : n.operationOf a i = m.operationOf a i := by
  have hdivides : ∀ op, n.dividesByZero op = m.dividesByZero op := by
    intro op
    cases op <;> simp only [dividesByZero, get, registers]
  simp only [operationOf, hdivides]

/-- A fault found in an instruction carries the address of the instruction. -/
theorem address_of_operationOf {m : Machine} {a : Word} {i : Instruction} {fault : Fault}
    (h : m.operationOf a i = .error fault) : fault.address = a := by
  unfold operationOf at h
  split at h
  · cases h
    rfl
  · split at h
    · cases h
      rfl
    · cases h

/-- So does an unknown opcode. -/
theorem address_of_instructionAt {m : Machine} {a : Word} {fault : Fault}
    (h : m.instructionAt a = .error fault) : fault.address = a := by
  unfold instructionAt at h
  split at h
  · cases h
    rfl
  · cases h

/-! ### The four ways of a step -/

/-- The machine once an instruction has been fetched from its program counter: the words are mapped,
and `lc` and `pc` have moved. -/
def advanced (m : Machine) (i : Instruction) : Machine :=
  ((m.touchFrom (m.get .pc) i.size).set .lc (m.get .pc)).set .pc (m.get .pc + UInt16.ofNat i.size)

@[simp]
theorem layout_advanced (m : Machine) (i : Instruction) : (m.advanced i).layout = m.layout := rfl

@[simp]
theorem peek_advanced (m : Machine) (i : Instruction) (a : Word) :
    (m.advanced i).memory.peek a = m.memory.peek a :=
  Memory.peek_touchFrom ..

theorem peek_set_advanced (m : Machine) (i : Instruction) (r : Register) (w a : Word) :
    ((m.advanced i).set r w).memory.peek a = m.memory.peek a := by
  rw [memory_set, peek_advanced]

theorem get_advanced (m : Machine) (i : Instruction) (r : Register) :
    (m.advanced i).get r =
      if .pc = r then m.get .pc + UInt16.ofNat i.size
      else if .lc = r then m.get .pc else m.get r := by
  rw [advanced, get_set, get_set]
  rfl

theorem registers_advanced (m : Machine) (i : Instruction) :
    (m.advanced i).registers =
      (m.registers.set .lc (m.get .pc)).set .pc (m.get .pc + UInt16.ofNat i.size) := rfl

/-- A step, by what it finds at the program counter. -/
inductive Steps (m : Machine) : Transition → Prop where
  | halted (halted : m.halted = true) : m.Steps ⟨m, .ok .halted, []⟩
  | unknown {fault : Fault} (running : m.halted = false)
      (fetches : m.instructionAt (m.get .pc) = .error fault) :
      m.Steps ⟨m.touch (m.get .pc), .error fault, []⟩
  | refuses {i : Instruction} {fault : Fault} (running : m.halted = false)
      (fetches : m.instructionAt (m.get .pc) = .ok i)
      (fails : (m.advanced i).operationOf (m.get .pc) i = .error fault) :
      m.Steps ⟨(m.advanced i).set .pc (m.get .pc), .error fault,
        [.executed (m.get .pc) i (m.advanced i).registers]⟩
  | performs {i : Instruction} {op : Operation} (running : m.halted = false)
      (fetches : m.instructionAt (m.get .pc) = .ok i)
      (decodes : (m.advanced i).operationOf (m.get .pc) i = .ok op) :
      m.Steps ⟨(m.advanced i).perform op, .ok ((m.advanced i).perform op).status,
        .executed (m.get .pc) i (m.advanced i).registers :: (m.advanced i).redraws op⟩

/-- Each of the four ways is that of the step. -/
theorem step_of_steps {m : Machine} {t : Transition} (h : m.Steps t) : m.step = t := by
  cases h with
  | halted halted => rw [step, if_pos halted]
  | unknown running fetches => simp [step, running, fetch, fetches]
  | refuses running fetches fails =>
    simp only [step, running, fetch, fetches, Bool.false_eq_true, if_false]
    unfold advanced at fails
    simp only [execute, fails]
    rfl
  | performs running fetches decodes =>
    simp only [step, running, fetch, fetches, Bool.false_eq_true, if_false]
    unfold advanced at decodes
    simp only [execute, decodes]
    rfl

/-- Every step goes one of the four ways. -/
theorem steps_step (m : Machine) : m.Steps m.step := by
  have found : ∃ t, m.Steps t := by
    cases running : m.halted with
    | true => exact ⟨_, .halted running⟩
    | false =>
      cases fetches : m.instructionAt (m.get .pc) with
      | error fault => exact ⟨_, .unknown running fetches⟩
      | ok i =>
        cases decodes : (m.advanced i).operationOf (m.get .pc) i with
        | error fault => exact ⟨_, .refuses running fetches decodes⟩
        | ok op => exact ⟨_, .performs running fetches decodes⟩
  obtain ⟨t, ht⟩ := found
  rw [step_of_steps ht]
  exact ht

theorem steps_iff {m : Machine} {t : Transition} : m.Steps t ↔ m.step = t :=
  ⟨step_of_steps, fun h => h ▸ m.steps_step⟩

/-! ### Runs -/

/-- The machine behind `n` steps, whatever they answer. -/
def after (m : Machine) : Nat → Machine
  | 0 => m
  | n + 1 => m.step.machine.after n

@[simp]
theorem after_zero (m : Machine) : m.after 0 = m := rfl

theorem after_succ (m : Machine) (n : Nat) : m.after (n + 1) = m.step.machine.after n := rfl

/-- The last step of a run. -/
theorem after_succ' (m : Machine) (n : Nat) : m.after (n + 1) = (m.after n).step.machine := by
  induction n generalizing m with
  | zero => rfl
  | succ n ih => rw [after_succ, ih, ← after_succ]

/-- What every step keeps, a run keeps. -/
theorem after_induction {P : Machine → Prop} (hstep : ∀ m, P m → P m.step.machine) {m : Machine}
    (h : P m) (n : Nat) : P (m.after n) := by
  induction n generalizing m with
  | zero => exact h
  | succ n ih => exact ih (hstep m h)

end WordMachine.Machine
