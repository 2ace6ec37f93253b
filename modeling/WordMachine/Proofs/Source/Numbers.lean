import WordMachine.Proofs.Source.Operands

namespace WordMachine.Source

/-!
# Numbers in constants and operands

A number is read at two places. The value of a constant is judged by its front, and then read as a
whole. An operand is the first form at its front, which must leave nothing of it. That comes to the
same, since the front of a number belongs to no form but that of its base.

* `numberWord?` — the word of a number; `constantWords_of_startsDecimal` and
  `parse_of_startsDecimal` — it is read at both places.
* `numbers_mean_the_same` — both places, for tokens that begin as a number does.
-/

/-- The word of a number in hexadecimal or decimal digits. -/
def numberWord? (cs : List Char) : Option Word :=
  if startsHex cs then hexLiteral? cs else decimalLiteral? cs

section Number

variable {token : String} (front : startsDecimal token.toList = true) (line : Nat)

include front

theorem constantWords_of_startsDecimal :
    constantWords line token =
      match numberWord? token.toList with
      | some w => .ok [w]
      | none => .error (Operand.fault line token) := by
  have hquoted : quoted? token.toList = none := by
    unfold quoted?
    split
    · next h =>
      rw [h] at front
      cases front
    · rfl
  simp only [constantWords, hquoted, numberWord?, Operand.fault, front]
  cases startsHex token.toList with
  | true => rfl
  | false => rfl

/-- The front of a number belongs to no form but that of its base. -/
theorem spelled_iff_of_startsDecimal {operand : Operand} :
    (∃ form, Spelled form token.toList operand) ↔
      ∃ w, numberWord? token.toList = some w ∧ .literal w = operand := by
  have hfront : Form.ofFront token.toList =
      if startsHex token.toList then .hexadecimal else .decimal := by
    unfold Form.ofFront
    split
    · next h => rw [h] at front; cases front
    · next h => rw [h] at front; cases front
    · next h => rw [h] at front; cases front
    · rw [front]
      rfl
  unfold numberWord?
  cases hhex : startsHex token.toList with
  | true =>
    rw [hhex] at hfront
    rw [if_pos rfl, ← Form.spelled_hexadecimal_iff]
    refine ⟨fun ⟨form, h⟩ => ?_, fun h => ⟨_, h⟩⟩
    obtain rfl : form = .hexadecimal := h.ofFront_eq.symm.trans hfront
    exact h
  | false =>
    rw [hhex] at hfront
    rw [if_neg Bool.false_ne_true, ← Form.spelled_decimal_iff]
    refine ⟨fun ⟨form, h⟩ => ?_, fun h => ⟨_, h⟩⟩
    obtain rfl : form = .decimal := h.ofFront_eq.symm.trans hfront
    exact h

theorem parse_of_startsDecimal :
    Operand.parse line token =
      match numberWord? token.toList with
      | some w => .ok (.literal w)
      | none => .error (Operand.fault line token) := by
  have hread : Operand.ofChars? token.toList = (numberWord? token.toList).map .literal := by
    ext operand
    rw [Operand.ofChars?_eq_some_iff, spelled_iff_of_startsDecimal front, Option.map_eq_some_iff]
  rw [Operand.parse, hread]
  cases numberWord? token.toList with
  | none => rfl
  | some w => rfl

end Number

/-- **Numbers.** A token that begins with a minus sign or a digit is read as one and the same word
where it is the value of a constant and where it is an operand, or it is refused at both places,
with the same error: as a hexadecimal literal or as an integer, by its front. The operand is a
literal exactly if the first form at the front of the token is one, and leaves nothing of it. -/
theorem numbers_mean_the_same {token : String}
    (front : ∃ c ∈ token.toList.head?, c = '-' ∨ c.isDigit = true) (line : Nat) :
    (∀ w, constantWords line token = .ok [w] ↔ Operand.parse line token = .ok (.literal w)) ∧
      (∀ e, constantWords line token = .error e ↔ Operand.parse line token = .error e) ∧
      ((∃ w, Operand.parse line token = .ok (.literal w)) ∨
        Operand.parse line token = .error
          (if ['0', 'x'] <+: token.toList then .invalidHex line token
          else .invalidInteger line token)) ∧
      ∀ w, Operand.parse line token = .ok (.literal w) ↔
        firstFront token.toList = some (.literal w, []) := by
  have hfront : startsDecimal token.toList = true := by
    obtain ⟨c, hc, hcases⟩ := front
    exact Operand.startsDecimal_iff.2 ⟨c, hc, hcases.imp_right isDigit_iff.1⟩
  have hconstant := constantWords_of_startsDecimal hfront line
  have hoperand := parse_of_startsDecimal hfront line
  have hfault : Operand.fault line token =
      if ['0', 'x'] <+: token.toList then .invalidHex line token
      else .invalidInteger line token := by
    simp only [Operand.fault, Operand.startsHex_iff, hfront, if_true]
  refine ⟨?_, ?_, ?_, fun w => ?_⟩
  · rw [hconstant, hoperand]
    cases numberWord? token.toList <;> simp
  · rw [hconstant, hoperand]
    cases numberWord? token.toList <;> simp
  · rw [hoperand, hfault]
    cases numberWord? token.toList <;> simp
  · rw [firstFront_eq_some_nil_iff, Operand.parse_eq_ok_iff]

/-- The lowest number, and digits behind which a letter is left. -/
theorem numbers_mean_the_same_lowest :
    Operand.parse 7 "-32768" = .ok (.literal 0x8000) ∧
      firstFront "-32768".toList = some (.literal 0x8000, []) ∧
      Operand.parse 7 "0x1fg" = .error (.invalidHex 7 "0x1fg") ∧
      firstFront "0x1fg".toList = some (.literal 0x1F, ['g']) := by
  have hsign : ∃ c ∈ "-32768".toList.head?, c = '-' ∨ c.isDigit = true := ⟨'-', rfl, .inl rfl⟩
  have hdigit : ∃ c ∈ "0x1fg".toList.head?, c = '-' ∨ c.isDigit = true := ⟨'0', rfl, .inr rfl⟩
  obtain ⟨hwords, -, -, hwhole⟩ := numbers_mean_the_same hsign 7
  obtain ⟨-, herror, -⟩ := numbers_mean_the_same hdigit 7
  have hlowest := (hwords 0x8000).1 (by decide +kernel)
  exact ⟨hlowest, (hwhole _).1 hlowest, (herror _).1 (by decide +kernel), by decide +kernel⟩

end WordMachine.Source
