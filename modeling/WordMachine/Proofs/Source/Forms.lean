import Mathlib.Data.Nat.Digits.Defs
import Mathlib.Data.Nat.Digits.Lemmas
import WordMachine.Source.Operand

namespace WordMachine.Source

/-!
# The forms of operands

An operand has one of six forms, and no two of them begin alike. So a token that is read as a whole
has one form at most, whichever of them is tried first.

* `digitRank` and `number` — the digits of either case, and the number that some of them write.
* `Integer` — decimal digits behind an optional minus sign.
* `Form` and `Spelled` — the six forms, and the operand that a token of each stands for.
* `Form.ofFront` — the form that the front of a token belongs to; `Spelled.ofFront_eq` — a token of
  a form begins with such a front.
* `Operand.ofChars?_eq_some_iff` — tokens are read by these forms.
* `Operand.spelled_unique` — no token has two of them, or stands for two operands.
-/

/-! ### Numbers -/

/-- The digits in the order of their values. -/
def digitChars : List Char :=
  "0123456789abcdef".toList

/-- The value of a digit of either case; that of any other character is sixteen. -/
def digitRank (c : Char) : Nat :=
  digitChars.idxOf c.toLower

/-- The number that digits write, the most significant digit first. -/
def number (base : Nat) (digits : List Char) : Nat :=
  Nat.ofDigits base (digits.reverse.map digitRank)

theorem digitRank_of_lt : ∀ n < 128,
    (isHexDigit (Char.ofNat n) = true ↔ digitRank (Char.ofNat n) < 16) ∧
      ((Char.ofNat n).isDigit = true ↔ digitRank (Char.ofNat n) < 10) ∧
      (isHexDigit (Char.ofNat n) = true →
        digitValue (Char.ofNat n) = digitRank (Char.ofNat n)) := by
  decide +kernel

theorem digitRank_of_le {c : Char} (h : 128 ≤ c.toNat) :
    isHexDigit c = false ∧ c.isDigit = false ∧ digitRank c = 16 := by
  have above : ∀ d : Char, d.toNat < 128 → ¬ c.val ≤ d.val := by
    intro d hd hle
    have := UInt32.le_iff_toNat_le.1 hle
    have : c.toNat ≤ d.toNat := this
    omega
  have hdigit : c.isDigit = false := by
    have := above '9' (by decide)
    simp [Char.isDigit, show ¬ c.val ≤ 57 from this]
  have hlower : c.toLower = c := dif_neg fun hupper => above 'Z' (by decide) hupper.2
  refine ⟨?_, hdigit, ?_⟩
  · have hf : ¬ c ≤ 'f' := above 'f' (by decide)
    have hF : ¬ c ≤ 'F' := above 'F' (by decide)
    simp only [isHexDigit, hdigit, hf, hF, decide_false, Bool.and_false, Bool.or_false]
  · rw [digitRank, hlower]
    apply List.idxOf_eq_length
    intro hmem
    have small : (digitChars.all fun d => d.toNat < 128) = true := by decide
    have := of_decide_eq_true (List.all_eq_true.1 small c hmem)
    omega

/-- The digits are the characters of a rank below the base. -/
theorem digitRank_spec (c : Char) :
    (isHexDigit c = true ↔ digitRank c < 16) ∧ (c.isDigit = true ↔ digitRank c < 10) ∧
      (isHexDigit c = true → digitValue c = digitRank c) := by
  by_cases h : c.toNat < 128
  · have := digitRank_of_lt c.toNat h
    rwa [Char.ofNat_toNat] at this
  · obtain ⟨hhex, hdigit, hrank⟩ := digitRank_of_le (Nat.le_of_not_lt h)
    rw [hhex, hdigit, hrank]
    simp

theorem isHexDigit_iff {c : Char} : isHexDigit c = true ↔ digitRank c < 16 :=
  (digitRank_spec c).1

theorem isDigit_iff {c : Char} : c.isDigit = true ↔ digitRank c < 10 :=
  (digitRank_spec c).2.1

/-- A digit is read as its rank. -/
theorem digitValue_eq {c : Char} (h : digitRank c < 16) : digitValue c = digitRank c :=
  (digitRank_spec c).2.2 (isHexDigit_iff.2 h)

theorem number_concat (base : Nat) (digits : List Char) (c : Char) :
    number base (digits ++ [c]) = number base digits * base + digitRank c := by
  rw [number, List.reverse_concat, List.map_cons, Nat.ofDigits_cons, ← number]
  ring

theorem numeral_concat (base : Nat) (digits : List Char) (c : Char) :
    numeral base (digits ++ [c]) = numeral base digits * base + digitValue c := by
  rw [numeral, List.foldl_append]
  rfl

/-- Digits are read as the number that they write. -/
theorem numeral_eq_number (base : Nat) {digits : List Char} (h : ∀ c ∈ digits, digitRank c < 16) :
    numeral base digits = number base digits := by
  induction digits using List.reverseRecOn with
  | nil => rfl
  | append_singleton digits c ih =>
    rw [List.forall_mem_append] at h
    rw [numeral_concat, number_concat, ih h.1, digitValue_eq (h.2 c (List.mem_singleton_self c))]

theorem number_lt {digits : List Char} {base : Nat} (hbase : 1 < base)
    (h : ∀ c ∈ digits, digitRank c < base) : number base digits < base ^ digits.length := by
  have hranks : ∀ n ∈ digits.reverse.map digitRank, n < base := by
    intro n hn
    obtain ⟨c, hc, rfl⟩ := List.mem_map.1 hn
    exact h c (List.mem_reverse.1 hc)
  have := Nat.ofDigits_lt_base_pow_length hbase hranks
  rwa [List.length_map, List.length_reverse] at this

/-- The integers that decimal digits write, behind a minus sign or without one. -/
inductive Integer : List Char → Int → Prop where
  | plain {digits : List Char} (some : digits ≠ []) (decimal : ∀ c ∈ digits, digitRank c < 10) :
      Integer digits (number 10 digits)
  | negative {digits : List Char} (some : digits ≠ []) (decimal : ∀ c ∈ digits, digitRank c < 10) :
      Integer ('-' :: digits) (-number 10 digits)

theorem decimalDigits?_eq_some_iff {cs : List Char} {n : Nat} :
    decimalDigits? cs = some n ↔ cs ≠ [] ∧ (∀ c ∈ cs, digitRank c < 10) ∧ number 10 cs = n := by
  have hread : (∀ c ∈ cs, digitRank c < 10) → numeral 10 cs = number 10 cs :=
    fun h => numeral_eq_number 10 fun c hc => Nat.lt_trans (h c hc) (by decide)
  simp only [decimalDigits?, Option.ite_none_right_eq_some, Option.some_inj, List.all_eq_true,
    isDigit_iff, and_assoc]
  exact and_congr_right fun _ => and_congr_right fun h => by rw [hread h]

theorem integer?_negative (digits : List Char) :
    integer? ('-' :: digits) = (decimalDigits? digits).map fun n : Nat => -(n : Int) := by
  rw [integer?]
  cases decimalDigits? digits <;> rfl

theorem integer?_plain {cs : List Char} (h : ∀ digits, cs ≠ '-' :: digits) :
    integer? cs = (decimalDigits? cs).map fun n : Nat => (n : Int) := by
  rw [integer?]
  · cases decimalDigits? cs <;> rfl
  · exact h

theorem integer?_eq_some_iff {cs : List Char} {v : Int} : integer? cs = some v ↔ Integer cs v := by
  by_cases hsign : ∃ digits, cs = '-' :: digits
  · obtain ⟨digits, rfl⟩ := hsign
    simp only [integer?_negative, Option.map_eq_some_iff, decimalDigits?_eq_some_iff]
    refine ⟨fun h => ?_, fun h => ?_⟩
    · obtain ⟨n, ⟨some, decimal, rfl⟩, rfl⟩ := h
      exact .negative some decimal
    · cases h with
      | negative some decimal => exact ⟨_, ⟨some, decimal, rfl⟩, rfl⟩
      | plain some decimal => exact absurd (decimal '-' List.mem_cons_self) (by decide)
  · simp only [integer?_plain fun digits h => hsign ⟨digits, h⟩, Option.map_eq_some_iff,
      decimalDigits?_eq_some_iff]
    refine ⟨fun h => ?_, fun h => ?_⟩
    · obtain ⟨n, ⟨some, decimal, rfl⟩, rfl⟩ := h
      exact .plain some decimal
    · cases h with
      | plain some decimal => exact ⟨_, ⟨some, decimal, rfl⟩, rfl⟩
      | negative some decimal => exact absurd ⟨_, rfl⟩ hsign

/-! ### Literals -/

theorem hexLiteral?_eq_some_iff {cs : List Char} {w : Word} :
    hexLiteral? cs = some w ↔
      ∃ digits, cs = '0' :: 'x' :: digits ∧ digits ≠ [] ∧ digits.length ≤ 4 ∧
        (∀ c ∈ digits, digitRank c < 16) ∧ w.toNat = number 16 digits := by
  have hword : ∀ digits : List Char, digits.length ≤ 4 → (∀ c ∈ digits, digitRank c < 16) →
      (UInt16.ofNat (numeral 16 digits) = w ↔ w.toNat = number 16 digits) := by
    intro digits hlength hdigits
    have hlt : number 16 digits < 16 ^ 4 :=
      Nat.lt_of_lt_of_le (number_lt (by decide) hdigits)
        (Nat.pow_le_pow_right (by decide) hlength)
    rw [numeral_eq_number 16 hdigits, ← UInt16.toNat_inj, UInt16.toNat_ofNat']
    omega
  refine ⟨fun h => ?_, fun h => ?_⟩
  · unfold hexLiteral? at h
    split at h
    · next digits =>
      simp only [Option.ite_none_right_eq_some, Option.some_inj, List.all_eq_true,
        isHexDigit_iff] at h
      obtain ⟨⟨hne, hlength, hdigits⟩, hw⟩ := h
      exact ⟨digits, rfl, hne, hlength, hdigits, (hword digits hlength hdigits).1 hw⟩
    · cases h
  · obtain ⟨digits, rfl, hne, hlength, hdigits, hw⟩ := h
    simp only [hexLiteral?, Option.ite_none_right_eq_some, Option.some_inj, List.all_eq_true,
      isHexDigit_iff]
    exact ⟨⟨hne, hlength, hdigits⟩, (hword digits hlength hdigits).2 hw⟩

theorem decimalLiteral?_eq_some_iff {cs : List Char} {w : Word} :
    decimalLiteral? cs = some w ↔
      ∃ v, Integer cs v ∧ -32768 ≤ v ∧ v ≤ 65535 ∧ (w.toNat : Int) = v % 65536 := by
  have hword : ∀ v, Word.ofInt v = w ↔ (w.toNat : Int) = v % 65536 := by
    intro v
    have hof : (Word.ofInt v).toNat = (v % 65536).toNat := by
      rw [Word.ofInt, UInt16.ofInt, UInt16.toNat_ofNat']
      omega
    rw [← UInt16.toNat_inj, hof]
    omega
  simp only [decimalLiteral?, Option.bind_eq_some_iff, integer?_eq_some_iff,
    Option.ite_none_right_eq_some, Option.some_inj, hword, and_assoc]

/-! ### Forms -/

/-- The names of symbols. -/
def SymbolName (cs : List Char) : Prop :=
  cs ≠ [] ∧ ∀ c ∈ cs, isSymbolChar c = true

theorem name?_eq_some_iff {cs : List Char} {name : String} :
    name? cs = some name ↔ SymbolName cs ∧ String.ofList cs = name := by
  simp only [name?, Option.ite_none_right_eq_some, Option.some_inj, List.all_eq_true, SymbolName]

/-- The forms that an operand can have. -/
inductive Form where
  | hexadecimal
  | label
  | constant
  | subroutine
  | register
  | decimal
  deriving DecidableEq, Repr

/-- A token of a form, with the operand that it stands for. -/
inductive Spelled : Form → List Char → Operand → Prop where
  | hexadecimal {digits : List Char} {w : Word} (some : digits ≠ []) (four : digits.length ≤ 4)
      (hex : ∀ c ∈ digits, digitRank c < 16) (value : w.toNat = number 16 digits) :
      Spelled .hexadecimal ('0' :: 'x' :: digits) (.literal w)
  | label {name : List Char} (named : SymbolName name) :
      Spelled .label ('&' :: name) (.label (String.ofList name))
  | constant {name : List Char} (named : SymbolName name) :
      Spelled .constant ('[' :: (name ++ [']'])) (.constant (String.ofList name))
  | subroutine {name : List Char} (named : SymbolName name) :
      Spelled .subroutine ('\x7b' :: (name ++ ['\x7d'])) (.subroutine (String.ofList name))
  | register (r : Register) : Spelled .register r.name.toList (.register r)
  | decimal {cs : List Char} {v : Int} {w : Word} (digits : Integer cs v) (lower : -32768 ≤ v)
      (upper : v ≤ 65535) (value : (w.toNat : Int) = v % 65536) :
      Spelled .decimal cs (.literal w)

namespace Form

/-- The form that a token can have by its front. -/
def ofFront : List Char → Form
  | '&' :: _ => label
  | '[' :: _ => constant
  | '\x7b' :: _ => subroutine
  | cs => if startsHex cs then hexadecimal else if startsDecimal cs then decimal else register

end Form

theorem startsDecimal_of_integer {cs : List Char} {v : Int} (h : Integer cs v) :
    startsDecimal cs = true := by
  cases h with
  | negative some decimal => rfl
  | plain some decimal =>
    obtain ⟨c, digits, rfl⟩ := List.exists_cons_of_ne_nil some
    rw [startsDecimal, isDigit_iff.2 (decimal c List.mem_cons_self), Bool.or_true]

/-- No letter stands in an integer. -/
theorem startsHex_of_integer {cs : List Char} {v : Int} (h : Integer cs v) :
    startsHex cs = false := by
  unfold startsHex
  split
  · next digits =>
    cases h with
    | plain some decimal => exact absurd (decimal 'x' (by simp)) (by decide)
  · rfl

/-- A token of a form begins as the form does, so no token has two forms. -/
theorem Spelled.ofFront_eq {form : Form} {cs : List Char} {operand : Operand}
    (h : Spelled form cs operand) : Form.ofFront cs = form := by
  cases h with
  | hexadecimal => rfl
  | label => rfl
  | constant => rfl
  | subroutine => rfl
  | register r => cases r <;> rfl
  | decimal digits =>
    have hhex := startsHex_of_integer digits
    have hdecimal := startsDecimal_of_integer digits
    unfold Form.ofFront
    split
    · cases hdecimal
    · cases hdecimal
    · cases hdecimal
    · rw [hhex, hdecimal]
      rfl

/-! ### Reading operands -/

theorem ofName?_eq_some_iff {s : String} {r : Register} :
    Register.ofName? s = some r ↔ r.name = s := by
  refine ⟨fun h => ?_, fun h => ?_⟩
  · simpa using List.find?_some h
  · subst h
    cases r <;> decide

/-- Only a token with the front of a register is the name of one. -/
theorem ofName?_eq_none {cs : List Char} (h : Form.ofFront cs ≠ .register) :
    Register.ofName? (String.ofList cs) = none := by
  rw [Option.eq_none_iff_forall_ne_some]
  intro r hr
  have hname := ofName?_eq_some_iff.1 hr
  have hfront := (Spelled.register r).ofFront_eq
  rw [hname, String.toList_ofList] at hfront
  exact h hfront

theorem enclosed?_eq_some_iff {close : Char} {cs : List Char} {name : String} :
    Operand.enclosed? close cs = some name ↔
      ∃ inner, cs = inner ++ [close] ∧ SymbolName inner ∧ String.ofList inner = name := by
  simp only [Operand.enclosed?, Option.ite_none_right_eq_some, name?_eq_some_iff]
  refine ⟨fun ⟨hlast, hname⟩ => ⟨cs.dropLast, ?_, hname⟩, ?_⟩
  · rw [List.dropLast_append_getLast? _ hlast]
  · rintro ⟨inner, rfl, hname⟩
    rw [List.getLast?_concat, List.dropLast_concat]
    exact ⟨rfl, hname⟩

namespace Operand

/-- A token that begins as a literal does is read as a literal or not at all. -/
theorem ofChars?_of_literal_front {cs : List Char}
    (front : Form.ofFront cs = .hexadecimal ∨ Form.ofFront cs = .decimal) :
    ofChars? cs = ((hexLiteral? cs).or (decimalLiteral? cs)).map literal := by
  have hregister : Register.ofName? (String.ofList cs) = none := by
    apply ofName?_eq_none
    rcases front with h | h <;> rw [h] <;> decide
  unfold ofChars?
  split
  · rcases front with h | h <;> cases h
  · rcases front with h | h <;> cases h
  · rcases front with h | h <;> cases h
  · rw [hregister]
    cases hexLiteral? cs <;> rfl

theorem ofChars?_of_spelled {form : Form} {cs : List Char} {operand : Operand}
    (h : Spelled form cs operand) : ofChars? cs = some operand := by
  have front := h.ofFront_eq
  cases h with
  | label named =>
    rw [ofChars?, name?_eq_some_iff.2 ⟨named, rfl⟩]
    rfl
  | constant named =>
    rw [ofChars?, enclosed?_eq_some_iff.2 ⟨_, rfl, named, rfl⟩]
    rfl
  | subroutine named =>
    rw [ofChars?, enclosed?_eq_some_iff.2 ⟨_, rfl, named, rfl⟩]
    rfl
  | register r => cases r <;> rfl
  | hexadecimal some four hex value =>
    rw [ofChars?_of_literal_front (.inl front),
      hexLiteral?_eq_some_iff.2 ⟨_, rfl, some, four, hex, value⟩]
    rfl
  | decimal digits lower upper value =>
    have hhex : hexLiteral? cs = none := by
      rw [Option.eq_none_iff_forall_ne_some]
      intro w hw
      obtain ⟨_, rfl, -⟩ := hexLiteral?_eq_some_iff.1 hw
      cases front
    rw [ofChars?_of_literal_front (.inr front), hhex,
      decimalLiteral?_eq_some_iff.2 ⟨_, digits, lower, upper, value⟩]
    rfl

/-- The tokens that are operands are those of one of the forms. -/
theorem ofChars?_eq_some_iff {cs : List Char} {operand : Operand} :
    ofChars? cs = some operand ↔ ∃ form, Spelled form cs operand := by
  refine ⟨fun h => ?_, fun ⟨form, h⟩ => ofChars?_of_spelled h⟩
  unfold ofChars? at h
  split at h
  · simp only [Option.map_eq_some_iff, name?_eq_some_iff] at h
    obtain ⟨_, ⟨named, rfl⟩, rfl⟩ := h
    exact ⟨_, .label named⟩
  · simp only [Option.map_eq_some_iff, enclosed?_eq_some_iff] at h
    obtain ⟨_, ⟨name, rfl, named, rfl⟩, rfl⟩ := h
    exact ⟨_, .constant named⟩
  · simp only [Option.map_eq_some_iff, enclosed?_eq_some_iff] at h
    obtain ⟨_, ⟨name, rfl, named, rfl⟩, rfl⟩ := h
    exact ⟨_, .subroutine named⟩
  · simp only [Option.orElse_eq_orElse, Option.orElse_eq_or, Option.or_eq_some_iff,
      Option.map_eq_some_iff, ofName?_eq_some_iff, hexLiteral?_eq_some_iff,
      decimalLiteral?_eq_some_iff] at h
    rcases h with ⟨r, hname, rfl⟩ | ⟨-, ⟨w, hhex, rfl⟩ | ⟨-, w, hdecimal, rfl⟩⟩
    · have hregister := Spelled.register r
      rw [hname, String.toList_ofList] at hregister
      exact ⟨_, hregister⟩
    · obtain ⟨digits, rfl, some, four, hex, value⟩ := hhex
      exact ⟨_, .hexadecimal some four hex value⟩
    · obtain ⟨v, digits, lower, upper, value⟩ := hdecimal
      exact ⟨_, .decimal digits lower upper value⟩

theorem spelled_unique {form form' : Form} {cs : List Char} {operand operand' : Operand}
    (h : Spelled form cs operand) (h' : Spelled form' cs operand') :
    form = form' ∧ operand = operand' := by
  refine ⟨h.ofFront_eq.symm.trans h'.ofFront_eq, ?_⟩
  have hread := ofChars?_of_spelled h
  rw [ofChars?_of_spelled h', Option.some_inj] at hread
  exact hread.symm

end Operand

end WordMachine.Source
