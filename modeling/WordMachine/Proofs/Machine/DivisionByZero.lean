import WordMachine.Proofs.Machine.Division
import WordMachine.Proofs.Machine.Faults

namespace WordMachine

/-!
# Division by zero

The divisor is looked at before quotient and remainder are written, so a division by zero writes
neither. By then `lc` and `pc` have moved, and only `pc` goes back: the registers are those that the
step found, but that `lc` holds the address of the division.

* `Instruction.operation_eq_divide_iff` — which instructions divide.
* `Machine.operationOf_eq_divisionByZero_iff` — when an instruction is refused for its divisor.
* `Machine.step_eq_divisionByZero_iff` — when a step stops there.
* `Machine.division_by_zero_keeps_registers_iff` — what it leaves in the registers.
-/

/-- A division has one operand. -/
theorem Opcode.operandCount_of_divides {opcode : Opcode} (divides : opcode = .div ∨ opcode = .dvc) :
    opcode.operandCount = 1 := by
  rcases divides with rfl | rfl
  · rfl
  · rfl

namespace Instruction

theorem size_of_divides {i : Instruction} (divides : i.opcode = .div ∨ i.opcode = .dvc) :
    i.size = 2 := by
  rw [size, Opcode.size, Opcode.operandCount_of_divides divides]

theorem operation_eq_divide_iff {i : Instruction} {signed : Bool} {r : Register} :
    i.operation = .ok (.divide signed r) ↔
      i.opcode = (if signed then .dvc else .div) ∧ i.register? 0 = some r := by
  obtain ⟨opcode, operands⟩ := i
  cases opcode with
  | div =>
    show onOne _ (.divide false) = _ ↔ _
    cases signed <;> simp [onOne_eq_ok_iff]
  | dvc =>
    show onOne _ (.divide true) = _ ↔ _
    cases signed <;> simp [onOne_eq_ok_iff]
  | nop | vga | ret | cal | cle | cln => cases signed <;> simp [operation]
  | cop | shr | shl => cases signed <;> simp [operation, onBothReversed_eq_ok_iff]
  | str | sth | ldr | ldh | cmp => cases signed <;> simp [operation, onBoth_eq_ok_iff]
  | _ => cases signed <;> simp [operation, onOne_eq_ok_iff]

/-- A register that the only operand names is all that a division takes. -/
theorem eq_of_register? {i : Instruction} {r : Register} (wf : i.WellFormed)
    (one : i.opcode.operandCount = 1) (h : i.register? 0 = some r) : i = ⟨i.opcode, [r.id]⟩ := by
  obtain ⟨opcode, operands⟩ := i
  obtain ⟨w, rfl⟩ := List.length_eq_one_iff.1 (Eq.trans wf one)
  rw [Register.ofId?_eq_some_iff.1 h]
  rfl

end Instruction

namespace Machine

variable {m : Machine} {i : Instruction} {opcode : Opcode} {a b : Word}

/-- Memory holds whole instructions. -/
theorem wellFormed_of_instructionAt (h : m.instructionAt a = .ok i) : i.WellFormed := by
  unfold instructionAt at h
  split at h
  · cases h
  · cases h
    show List.length _ = _
    rw [List.length_map, List.length_range]

/-! ### When a step stops -/

theorem operationOf_eq_divisionByZero_iff :
    m.operationOf a i = .error (.divisionByZero opcode b) ↔
      opcode = i.opcode ∧ b = a ∧
        ∃ signed r, i.operation = .ok (.divide signed r) ∧ m.get r = 0 := by
  unfold operationOf
  cases hop : i.operation with
  | error w => simp
  | ok op =>
    cases op with
    | divide signed r =>
      by_cases hzero : m.get r = 0
      · simp [dividesByZero, hzero, eq_comm]
      · simp [dividesByZero, hzero]
    | _ => simp [dividesByZero]

/-- A step stops at a division exactly if the divisor is zero when `lc` and `pc` have moved. -/
theorem step_eq_divisionByZero_iff :
    m.step.result = .error (.divisionByZero opcode a) ↔
      m.halted = false ∧ a = m.get .pc ∧ (opcode = .div ∨ opcode = .dvc) ∧
        ∃ r, m.instructionAt a = .ok ⟨opcode, [r.id]⟩ ∧ m.divisor r = 0 := by
  constructor
  · intro h
    generalize hstep : m.step = t at h
    cases steps_iff.2 hstep with
    | halted halted => cases h
    | unknown running fetches =>
      obtain rfl := Except.error.inj h
      unfold instructionAt at fetches
      split at fetches
      · cases fetches
      · cases fetches
    | @refuses i _ running fetches fails =>
      obtain rfl := Except.error.inj h
      obtain ⟨rfl, rfl, signed, r, hop, hzero⟩ := operationOf_eq_divisionByZero_iff.1 fails
      obtain ⟨hopcode, hr⟩ := Instruction.operation_eq_divide_iff.1 hop
      have divides : i.opcode = .div ∨ i.opcode = .dvc := by
        rw [hopcode]
        cases signed <;> simp
      have one := Opcode.operandCount_of_divides divides
      have hi := Instruction.eq_of_register? (wellFormed_of_instructionAt fetches) one hr
      refine ⟨running, rfl, divides, r, by rw [← hi, fetches], ?_⟩
      rw [← get_advanced_eq_divisor (Instruction.size_of_divides divides), hzero]
    | performs running fetches decodes => cases h
  · rintro ⟨running, rfl, divides, r, fetches, hzero⟩
    have hop : Instruction.operation ⟨opcode, [r.id]⟩ = .ok (.divide (opcode == .dvc) r) := by
      rw [Instruction.operation_eq_divide_iff]
      refine ⟨?_, Register.ofId?_id r⟩
      rcases divides with rfl | rfl <;> rfl
    have fails : (m.advanced ⟨opcode, [r.id]⟩).operationOf (m.get .pc) ⟨opcode, [r.id]⟩ =
        .error (.divisionByZero opcode (m.get .pc)) := by
      rw [operationOf_eq_divisionByZero_iff]
      refine ⟨rfl, rfl, _, r, hop, ?_⟩
      rw [get_advanced_eq_divisor (Instruction.size_of_divides divides), hzero]
    rw [step_of_steps (.refuses running fetches fails)]

/-! ### What it leaves in the registers -/

/-- A fault in an instruction leaves `lc` on it. -/
theorem get_lc_of_refused {fault : Fault} (h : m.step.result = .error fault)
    (fetches : m.instructionAt (m.get .pc) = .ok i) : m.step.machine.get .lc = m.get .pc := by
  generalize hstep : m.step = t at h ⊢
  cases steps_iff.2 hstep with
  | halted halted => cases h
  | unknown running none =>
    rw [fetches] at none
    cases none
  | refuses running fetches fails =>
    rw [get_set, if_neg (by decide), get_advanced, if_neg (by decide), if_pos rfl]
  | performs running fetches decodes => cases h

/-- **Division by zero.** A step that stops for a divisor of zero has met `div` or `dvc` at the
program counter, and the register that it names holds zero there. All registers keep their words but
for `lc`, which holds the address of the division afterwards; so all of them keep their words exactly
if `lc` held that address before. -/
theorem division_by_zero_keeps_registers_iff
    (h : m.step.result = .error (.divisionByZero opcode a)) :
    (opcode = .div ∨ opcode = .dvc) ∧ a = m.get .pc ∧
      (∃ r, m.instructionAt a = .ok ⟨opcode, [r.id]⟩ ∧ m.divisor r = 0) ∧
      (∀ r, m.step.machine.get r = if r = .lc then a else m.get r) ∧
      ((∀ r, m.step.machine.get r = m.get r) ↔ m.get .lc = a) := by
  obtain ⟨-, rfl, divides, r, fetches, hzero⟩ := step_eq_divisionByZero_iff.1 h
  have hlc : m.step.machine.get .lc = m.get .pc := get_lc_of_refused h fetches
  obtain ⟨-, -, -, others, -⟩ := unchanged_of_error h
  refine ⟨divides, rfl, ⟨r, fetches, hzero⟩, ?_, ?_⟩
  · intro s
    by_cases hs : s = .lc
    · rw [if_pos hs, hs, hlc]
    · rw [if_neg hs, others s hs]
  · constructor
    · intro keeps
      rw [← keeps .lc, hlc]
    · intro before s
      by_cases hs : s = .lc
      · rw [hs, hlc, before]
      · exact others s hs

/-- A machine in front of `div bb` with a zero in that register, which has executed nothing yet. -/
def zeroDivision : Machine where
  registers := ((RegisterFile.zero.set .sp 0x0900).set .ac 10).set .pc 0x0900
  memory := Memory.blank.write (placed 0x0900 (Instruction.words ⟨.div, [Register.bb.id]⟩))
  layout := .empty .standard

theorem step_zeroDivision :
    zeroDivision.step.result = .error (.divisionByZero .div 0x0900) := by
  rw [step_eq_divisionByZero_iff]
  refine ⟨rfl, rfl, .inl rfl, .bb, ?_, rfl⟩
  exact instructionAt_of_written (show Instruction.WellFormed _ by decide) rfl (by decide)
    (List.Subset.refl _)

theorem division_by_zero_keeps_registers_iff_untouched :
    zeroDivision.step.result = .error (.divisionByZero .div 0x0900) ∧
      zeroDivision.step.machine.get .ac = 10 ∧ zeroDivision.step.machine.get .pc = 0x0900 ∧
      zeroDivision.step.machine.get .lc = 0x0900 := by
  obtain ⟨-, -, -, registers, -⟩ := division_by_zero_keeps_registers_iff step_zeroDivision
  exact ⟨step_zeroDivision, registers .ac, registers .pc, registers .lc⟩

/-- Division by zero does not leave all registers as they are: of a machine that has executed
nothing yet, `lc` moves from zero to the division. -/
theorem division_by_zero_moves_lc :
    ¬∀ (m : Machine) (opcode : Opcode) (a : Word),
      m.step.result = .error (.divisionByZero opcode a) →
        ∀ r, m.step.machine.get r = m.get r := by
  intro keeps
  have hlc := keeps zeroDivision .div 0x0900 step_zeroDivision .lc
  obtain ⟨_, fetches, -⟩ := (step_eq_divisionByZero_iff.1 step_zeroDivision).2.2.2
  rw [get_lc_of_refused step_zeroDivision fetches] at hlc
  exact absurd hlc (by decide)

end Machine

end WordMachine
