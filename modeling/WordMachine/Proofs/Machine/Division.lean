import Mathlib.Data.Nat.Bitwise
import WordMachine.Proofs.Machine.Touched

namespace WordMachine

/-!
# Division

Signed division takes both words apart into sign and magnitude, divides the magnitudes, and gives
the quotient a sign again. The magnitude of `0x8000` is the word itself, which two's complement
takes for a negative number; so the laws are told over the integers, where nothing wraps around.

* `Word.toInt` — the two's complement value of a word; `Word.toInt_eq` — sign and magnitude make it
  up.
* `Word.divide_unsigned` and `Word.divide_signed` — quotient and remainder of two words.
* `Machine.divisor` — the word that a division finds in a register.
* `Machine.step_divide` — a step in front of a division.
* `Machine.division_laws` — what the step leaves in the registers.
-/

namespace Word

/-! ### Two's complement -/

/-- The two's complement value of a word. -/
def toInt (w : Word) : Int :=
  if w.toNat < 0x8000 then w.toNat else w.toNat - 0x10000

theorem isNegative_iff {w : Word} : w.isNegative = true ↔ 0x8000 ≤ w.toNat := by
  have hw : w.toNat < 65536 := w.toNat_lt
  have hsign : (w &&& 0x8000).toNat = (w.toNat.testBit 15).toNat * 2 ^ 15 := by
    rw [UInt16.toNat_and, ← Nat.and_two_pow]
    rfl
  have hbit : w.toNat.testBit 15 = decide (0x8000 ≤ w.toNat) := by
    rw [Nat.testBit_eq_decide_div_mod_eq]
    congr 1
    rw [eq_iff_iff]
    omega
  rw [isNegative, bne_iff_ne, ne_eq, ← UInt16.toNat_inj, hsign, hbit]
  by_cases h : 0x8000 ≤ w.toNat
  · simp [h]
  · simp [h]

theorem isNegative_iff_toInt_lt {w : Word} : w.isNegative = true ↔ w.toInt < 0 := by
  have hw : w.toNat < 65536 := w.toNat_lt
  rw [isNegative_iff, toInt]
  split <;> omega

/-- The magnitude of a word is the absolute value of the number that it stands for. -/
theorem toNat_magnitude (w : Word) : w.magnitude.toNat = w.toInt.natAbs := by
  have hw : w.toNat < 65536 := w.toNat_lt
  have hneg : (-w).toNat = (65536 - w.toNat) % 65536 := UInt16.toNat_neg w
  rw [magnitude]
  by_cases h : w.isNegative = true
  · have hlarge := isNegative_iff.1 h
    rw [if_pos h, negate_eq_neg, hneg, toInt, if_neg (by omega)]
    omega
  · have hsmall := mt isNegative_iff.2 h
    rw [if_neg h, toInt, if_pos (by omega)]
    rfl

/-- Sign and magnitude make up the value. -/
theorem toInt_eq (w : Word) :
    w.toInt = if w.isNegative then -(w.magnitude.toNat : Int) else w.magnitude.toNat := by
  rw [toNat_magnitude]
  by_cases h : w.isNegative = true
  · have hlt := isNegative_iff_toInt_lt.1 h
    rw [if_pos h]
    omega
  · have hle := mt isNegative_iff_toInt_lt.2 h
    rw [if_neg h]
    omega

/-- A word is the one that represents its unsigned value. -/
theorem ofInt_toNat (w : Word) : ofInt w.toNat = w := by
  have hw : w.toNat < 65536 := w.toNat_lt
  apply UInt16.toNat_inj.1
  rw [ofInt, UInt16.ofInt, UInt16.toNat_ofNat']
  omega

theorem ofInt_neg_toNat (w : Word) : ofInt (-w.toNat) = w.negate := by
  have hneg : ofInt (-w.toNat) = -ofInt w.toNat := UInt16.ofInt_neg _
  rw [hneg, ofInt_toNat, negate_eq_neg]

/-! ### Quotient and remainder -/

theorem divide_unsigned (a d : Word) :
    (divide false a d).1.toNat = a.toNat / d.toNat ∧
      (divide false a d).2.toNat = a.toNat % d.toNat :=
  ⟨UInt16.toNat_div a d, UInt16.toNat_mod a d⟩

/-- The quotient of the magnitudes gets the sign of the quotient that is rounded toward zero. -/
theorem divide_signed (a d : Word) :
    (divide true a d).1 = ofInt (a.toInt.tdiv d.toInt) ∧
      (divide true a d).2.toNat = a.toInt.natAbs % d.toInt.natAbs := by
  have hquotient : (a.magnitude.toNat : Int).tdiv d.magnitude.toNat =
      (a.magnitude / d.magnitude).toNat := by
    rw [UInt16.toNat_div, Int.ofNat_tdiv]
  refine ⟨?_, ?_⟩
  · show (if a.isNegative = d.isNegative then a.magnitude / d.magnitude
      else (a.magnitude / d.magnitude).negate) = _
    rw [a.toInt_eq, d.toInt_eq]
    cases a.isNegative <;> cases d.isNegative <;>
      simp only [if_true, if_false, Bool.false_eq_true, Bool.true_eq_false, Int.neg_tdiv,
        Int.tdiv_neg, Int.neg_neg, hquotient, ofInt_toNat, ofInt_neg_toNat]
  · rw [← toNat_magnitude, ← toNat_magnitude]
    exact UInt16.toNat_mod ..

/-- The remainder of the magnitudes, with the sign of the dividend, is what a quotient rounded
toward zero leaves. -/
theorem sign_mul_natAbs_mod (a d : Int) : a.sign * (a.natAbs % d.natAbs : Nat) = a.tmod d := by
  have hrem : (a.natAbs % d.natAbs : Nat) = (a.tmod d).natAbs := (Int.natAbs_tmod a d).symm
  rw [hrem]
  rcases Int.lt_trichotomy a 0 with ha | rfl | ha
  · have hneg : 0 ≤ (-a).tmod d := Int.tmod_nonneg d (by omega)
    rw [Int.neg_tmod] at hneg
    rw [Int.sign_eq_neg_one_of_neg ha]
    omega
  · simp
  · have hpos : 0 ≤ a.tmod d := Int.tmod_nonneg d (Int.le_of_lt ha)
    rw [Int.sign_eq_one_of_pos ha]
    omega

end Word

namespace Machine

/-! ### A step in front of a division -/

variable {m : Machine} {i : Instruction} {signed : Bool} {r : Register}

/-- The word that a division finds in a register: `pc` stands behind the two words of the
instruction by then, and `lc` holds its address. -/
def divisor (m : Machine) : Register → Word
  | .pc => m.get .pc + 2
  | .lc => m.get .pc
  | r => m.get r

theorem get_advanced_eq_divisor (size : i.size = 2) (r : Register) :
    (m.advanced i).get r = m.divisor r := by
  rw [get_advanced, size]
  cases r <;> rfl

/-- Quotient and remainder are of the words that were there before either is written. -/
theorem get_perform_divide (m : Machine) (signed : Bool) (r s : Register) :
    (m.perform (.divide signed r)).get s =
      if .ac = s then (Word.divide signed (m.get .ac) (m.get r)).1
      else if .ex = s then (Word.divide signed (m.get .ac) (m.get r)).2
      else m.get s := by
  rw [perform, get_set, get_set]

theorem step_divide (running : m.halted = false) (fetches : m.instructionAt (m.get .pc) = .ok i)
    (operation : i.operation = .ok (.divide signed r)) (size : i.size = 2)
    (nonzero : m.divisor r ≠ 0) :
    (∃ status, m.step.result = .ok status) ∧
      m.step.machine.get .ac = (Word.divide signed (m.get .ac) (m.divisor r)).1 ∧
      m.step.machine.get .ex = (Word.divide signed (m.get .ac) (m.divisor r)).2 ∧
      ∀ s, s ∉ [.ac, .ex, .pc, .lc] → m.step.machine.get s = m.get s := by
  have hac : (m.advanced i).get .ac = m.get .ac := get_advanced_eq_divisor size .ac
  have hr : (m.advanced i).get r = m.divisor r := get_advanced_eq_divisor size r
  have decodes : (m.advanced i).operationOf (m.get .pc) i = .ok (.divide signed r) := by
    have hdivides : (m.advanced i).dividesByZero (.divide signed r) = false := by
      rw [dividesByZero, hr, beq_eq_false_iff_ne]
      exact nonzero
    simp only [operationOf, operation, hdivides, Bool.false_eq_true, if_false]
  rw [step_of_steps (.performs running fetches decodes)]
  simp only [get_perform_divide, hac, hr]
  refine ⟨⟨_, rfl⟩, rfl, rfl, ?_⟩
  intro s hs
  simp only [List.mem_cons, List.not_mem_nil, or_false, not_or] at hs
  obtain ⟨ac, ex, pc, lc⟩ := hs
  rw [if_neg (Ne.symm ac), if_neg (Ne.symm ex), get_advanced, if_neg (Ne.symm pc),
    if_neg (Ne.symm lc)]

/-- **Division.** A machine in front of `div` or `dvc` with a divisor other than zero executes it.
After `div`, the accumulator holds the quotient of the unsigned values and `ex` their remainder.
After `dvc`, the accumulator holds the quotient of the two's complement values rounded toward zero,
modulo `2 ^ 16`, and `ex` the remainder of their absolute values; with the sign of the dividend it
is what the quotient leaves. No other register changes but `pc` and `lc`. -/
theorem division_laws {opcode : Opcode} (divides : opcode = .div ∨ opcode = .dvc)
    (running : m.halted = false)
    (fetches : m.instructionAt (m.get .pc) = .ok ⟨opcode, [r.id]⟩) (nonzero : m.divisor r ≠ 0) :
    (∃ status, m.step.result = .ok status) ∧
      (opcode = .div →
        (m.step.machine.get .ac).toNat = (m.get .ac).toNat / (m.divisor r).toNat ∧
          (m.step.machine.get .ex).toNat = (m.get .ac).toNat % (m.divisor r).toNat) ∧
      (opcode = .dvc →
        m.step.machine.get .ac =
            Word.ofInt ((m.get .ac).toInt.tdiv (m.divisor r).toInt) ∧
          (m.step.machine.get .ex).toNat =
            (m.get .ac).toInt.natAbs % (m.divisor r).toInt.natAbs ∧
          (m.get .ac).toInt =
            (m.get .ac).toInt.tdiv (m.divisor r).toInt * (m.divisor r).toInt +
              (m.get .ac).toInt.sign * (m.step.machine.get .ex).toNat ∧
          ((m.get .ac).toInt = -32768 → (m.divisor r).toInt = -1 ∨ (m.divisor r).toInt = 1 →
            m.step.machine.get .ac = 0x8000)) ∧
      ∀ s, s ∉ [.ac, .ex, .pc, .lc] → m.step.machine.get s = m.get s := by
  have operation : Instruction.operation ⟨opcode, [r.id]⟩ =
      .ok (.divide (opcode == .dvc) r) := by
    have hregister : Instruction.register? ⟨opcode, [r.id]⟩ 0 = some r := Register.ofId?_id r
    rcases divides with rfl | rfl
    · exact Instruction.onOne_eq_ok_iff.2 ⟨r, hregister, rfl⟩
    · exact Instruction.onOne_eq_ok_iff.2 ⟨r, hregister, rfl⟩
  have size : Instruction.size ⟨opcode, [r.id]⟩ = 2 := by
    rcases divides with rfl | rfl <;> rfl
  obtain ⟨succeeds, hac, hex, others⟩ := step_divide running fetches operation size nonzero
  refine ⟨succeeds, ?_, ?_, others⟩
  · rintro rfl
    rw [hac, hex]
    exact Word.divide_unsigned ..
  · rintro rfl
    obtain ⟨quotient, remainder⟩ := Word.divide_signed (m.get .ac) (m.divisor r)
    rw [hac, hex]
    refine ⟨quotient, remainder, ?_, ?_⟩
    · show _ = _ + (m.get .ac).toInt.sign * ((Word.divide true _ _).2.toNat : Int)
      rw [remainder, Word.sign_mul_natAbs_mod, Int.tdiv_mul_add_tmod]
    · -- Both quotients, `32768` and `-32768`, are represented by one word.
      intro lowest unit
      show (Word.divide true _ _).1 = _
      rw [quotient, lowest]
      rcases unit with hd | hd <;> rw [hd] <;> rfl

/-- A machine in front of `dvc ex` with the lowest dividend, whose divisor stands in the register
that gets the remainder. -/
def lowestDivision : Machine where
  registers := ((RegisterFile.zero.set .pc 0x0130).set .ac 0x8000).set .ex 0xFFFF
  memory := Memory.blank.write (placed 0x0130 (Instruction.words ⟨.dvc, [Register.ex.id]⟩))
  layout := ⟨⟨0, 0⟩, 0x0132⟩

theorem division_laws_lowest :
    lowestDivision.halted = false ∧ lowestDivision.divisor .ex = 0xFFFF ∧
      lowestDivision.step.machine.get .ac = 0x8000 ∧
      (lowestDivision.step.machine.get .ex).toNat = 0 ∧
      lowestDivision.step.machine.get .sp = lowestDivision.get .sp := by
  have fetches : lowestDivision.instructionAt 0x0130 = .ok ⟨.dvc, [Register.ex.id]⟩ := by
    apply instructionAt_of_placed (show Instruction.WellFormed _ by decide)
    rintro ⟨a, w⟩ hcell
    exact Memory.peek_write_of_mem (by decide) hcell
  obtain ⟨-, -, signed, others⟩ := division_laws (.inr rfl) rfl fetches (by decide)
  obtain ⟨-, remainder, -, lowest⟩ := signed rfl
  exact ⟨rfl, rfl, lowest rfl (.inl rfl), remainder, others .sp (by decide)⟩

end Machine

end WordMachine
