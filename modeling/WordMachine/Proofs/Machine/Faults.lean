import WordMachine.Proofs.Machine.Run
import WordMachine.Proofs.Machine.Step

namespace WordMachine

/-!
# Faults

Everything that can fail in a step is found out before the instruction takes effect. A fault leaves
`pc` where it was, so the next step meets the same words and the same registers again. Only `lc` has
moved, and it moves to the same place again: even a divisor in `lc` or `pc` is zero a second time.

* `Memory.touch_of_isMapped` and `Memory.touchFrom_touchFrom` — mapping twice is mapping once.
* `Machine.step_step_of_error` — the step after a fault is the same step.
* `Machine.faults_are_clean` — what a fault leaves alone, and that it is found again and again.
-/

/-! ### Mapping twice -/

namespace Memory

theorem touch_of_isMapped {m : Memory} {a : Word} (h : m.isMapped a = true) : m.touch a = m := by
  apply ext_view
  · exact peek_touch m a
  · intro b
    rw [isMapped_touch]
    by_cases hb : a = b
    · subst hb
      simp [h]
    · simp [hb]

theorem isMapped_touch_self (m : Memory) (a : Word) : (m.touch a).isMapped a = true := by
  simp [isMapped_touch]

theorem touchFrom_touchFrom (m : Memory) (a : Word) (n : Nat) :
    (m.touchFrom a n).touchFrom a n = m.touchFrom a n := by
  apply ext_view
  · exact fun b => peek_touchFrom ..
  · intro b
    rw [isMapped_touchFrom, isMapped_touchFrom, ← Bool.or_assoc, Bool.or_self]

end Memory

namespace Machine

variable {m : Machine} {fault : Fault}

/-! ### The step after a fault -/

/-- What a fault leaves moves on to where it was found. -/
theorem advanced_of_fault (m : Machine) (i : Instruction) :
    ((m.advanced i).set .pc (m.get .pc)).advanced i = m.advanced i := by
  have hpc : ((m.advanced i).set .pc (m.get .pc)).get .pc = m.get .pc := get_set_self ..
  have hmemory : (((m.advanced i).set .pc (m.get .pc)).advanced i).memory =
      (m.advanced i).memory := by
    show ((m.memory.touchFrom (m.get .pc) i.size).touchFrom _ i.size) = _
    rw [hpc]
    exact Memory.touchFrom_touchFrom ..
  have hregisters : (((m.advanced i).set .pc (m.get .pc)).advanced i).registers =
      (m.advanced i).registers := by
    apply RegisterFile.ext_get
    intro r
    show (((m.advanced i).set .pc (m.get .pc)).advanced i).get r = (m.advanced i).get r
    simp only [get_advanced, get_set]
    -- `pc` and `lc` are set anew, and no other register has been changed.
    split
    · rfl
    · split <;> simp_all
  show Machine.mk _ _ _ = Machine.mk _ _ _
  rw [Machine.mk.injEq]
  exact ⟨hregisters, hmemory, rfl⟩

/-- The step after a fault meets the same instruction and fails in the same way. -/
theorem step_step_of_error (h : m.step.result = .error fault) : m.step.machine.step = m.step := by
  generalize hstep : m.step = t at h ⊢
  cases steps_iff.2 hstep with
  | halted halted => cases h
  | unknown running fetches =>
    have again : (m.touch (m.get .pc)).touch (m.get .pc) = m.touch (m.get .pc) :=
      congrArg (fun memory => { m with memory })
        (Memory.touch_of_isMapped (Memory.isMapped_touch_self ..))
    have hsteps := Steps.unknown (m := m.touch (m.get .pc)) running fetches
    rw [get_touch, again] at hsteps
    exact step_of_steps hsteps
  | @refuses i _ running fetches fails =>
    -- The program counter is back, and so the instruction is fetched again.
    have hpc : ((m.advanced i).set .pc (m.get .pc)).get .pc = m.get .pc := get_set_self ..
    have running' : ((m.advanced i).set .pc (m.get .pc)).halted = false := by
      rw [halted, hpc]
      exact running
    have fetches' : ((m.advanced i).set .pc (m.get .pc)).instructionAt (m.get .pc) = .ok i := by
      rw [← fetches]
      exact instructionAt_congr (peek_set_advanced ..) fun _ _ _ _ => peek_set_advanced ..
    have hsteps := Steps.refuses (m := (m.advanced i).set .pc (m.get .pc)) running'
      (by rw [hpc]; exact fetches') (by rw [hpc, advanced_of_fault]; exact fails)
    rw [hpc, advanced_of_fault] at hsteps
    exact step_of_steps hsteps
  | performs running fetches decodes => cases h

/-- So does every later step. -/
theorem step_after_of_error (h : m.step.result = .error fault) (n : Nat) :
    (m.step.machine.after n).step = m.step := by
  have stays : m.step.machine.after n = m.step.machine := by
    refine after_induction (P := fun k => k = m.step.machine) ?_ rfl n
    rintro _ rfl
    rw [step_step_of_error h]
  rw [stays, step_step_of_error h]

/-! ### What a fault leaves alone -/

theorem unchanged_of_error (h : m.step.result = .error fault) :
    (∀ a, m.step.machine.memory.peek a = m.memory.peek a) ∧
      m.step.machine.layout = m.layout ∧
      (∀ frame, .redrawn frame ∉ m.step.events) ∧
      (∀ r, r ≠ .lc → m.step.machine.get r = m.get r) ∧
      fault.address = m.get .pc := by
  generalize hstep : m.step = t at h ⊢
  cases steps_iff.2 hstep with
  | halted halted => cases h
  | unknown running fetches =>
    cases h
    exact ⟨fun _ => rfl, rfl, by simp, fun _ _ => rfl, address_of_instructionAt fetches⟩
  | @refuses i _ running fetches fails =>
    cases h
    refine ⟨fun _ => peek_set_advanced .., rfl, by simp, ?_, address_of_operationOf fails⟩
    intro r hr
    rw [get_set, get_advanced, if_neg (Ne.symm hr)]
    split
    · next hpc => rw [hpc]
    · rfl
  | performs running fetches decodes => cases h

/-- **Faults are clean and repeatable.** A step that fails changes no word of memory, draws nothing,
and leaves the layout and every register but `lc` as they are; the fault carries the program
counter. From then on, every step fails with the same fault and changes nothing, neither `lc` nor
what is mapped. -/
theorem faults_are_clean (h : m.step.result = .error fault) :
    (∀ a, m.step.machine.memory.peek a = m.memory.peek a) ∧
      m.step.machine.layout = m.layout ∧
      (∀ frame, .redrawn frame ∉ m.step.events) ∧
      (∀ r, r ≠ .lc → m.step.machine.get r = m.get r) ∧
      fault.address = m.get .pc ∧
      ∀ n, (m.step.machine.after n).step.result = .error fault ∧
        (m.step.machine.after n).step.machine = m.step.machine := by
  obtain ⟨memory, layout, drawn, registers, address⟩ := unchanged_of_error h
  refine ⟨memory, layout, drawn, registers, address, ?_⟩
  intro n
  rw [step_after_of_error h]
  exact ⟨h, rfl⟩

/-- A machine in front of `div pc` at the last address but one, where the program counter has
wrapped around to zero by the time the divisor is read. -/
def wrappedDivision : Machine where
  registers := RegisterFile.zero.set .pc 0xFFFE
  memory := Memory.blank.write (placed 0xFFFE (Instruction.words ⟨.div, [Register.pc.id]⟩))
  layout := ⟨⟨0, 0⟩, 0x0130⟩

theorem step_wrappedDivision :
    wrappedDivision.step.result = .error (.divisionByZero .div 0xFFFE) := by
  have fetches : wrappedDivision.instructionAt 0xFFFE = .ok ⟨.div, [Register.pc.id]⟩ := by
    exact instructionAt_of_written (show Instruction.WellFormed _ by decide) rfl (by decide)
      (List.Subset.refl _)
  have fails : (wrappedDivision.advanced ⟨.div, [Register.pc.id]⟩).operationOf 0xFFFE
      ⟨.div, [Register.pc.id]⟩ = .error (.divisionByZero .div 0xFFFE) := by
    rfl
  rw [step_of_steps (.refuses rfl fetches fails)]

theorem faults_are_clean_wrappedDivision :
    wrappedDivision.step.result = .error (.divisionByZero .div 0xFFFE) ∧
      wrappedDivision.step.machine.get .ex = wrappedDivision.get .ex ∧
      (wrappedDivision.step.machine.after 7).step.result =
        .error (.divisionByZero .div 0xFFFE) := by
  obtain ⟨-, -, -, registers, -, repeats⟩ := faults_are_clean step_wrappedDivision
  exact ⟨step_wrappedDivision, registers .ex (by decide), (repeats 7).1⟩

end Machine

end WordMachine
