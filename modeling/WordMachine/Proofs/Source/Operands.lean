import WordMachine.Proofs.Source.Forms
import WordMachine.Proofs.Source.Tokens

namespace WordMachine.Source

/-!
# The grammar of operands

A token is read as a whole, by the only form that it can have. It may as well be read by trying the
forms one after another at its front, each of which goes as far as it can; the first form that is
there is taken, and it must leave nothing of the token. That comes to the same, since no form that
is tried earlier is at the front of a token of another one.

* `runFront` and `enclosedFront` — a run of characters at the front, and a name in brackets.
* `Form.front` — the operand of a form at the front of a text, and what is left.
* `Form.front_eq_some_nil_iff` — it leaves nothing of the tokens of that form, and of no others.
* `firstFront` — the first form at the front; `firstFront_eq_some_nil_iff` — it is the form of a
  token.
* `Operand.parse_follows_grammar` — both ways to read the tokens of a line, with the causes of
  refusal.
-/

/-! ### Forms at the front of a text -/

section Front

variable {α : Type}

/-- A run of characters at the front, as far as it goes. It is read with a mark in front of it. -/
def runFront (read : List Char → Option α) (inside : Char → Bool) (mark cs : List Char) :
    Option (α × List Char) :=
  (read (mark ++ cs.takeWhile inside)).map fun a => (a, cs.dropWhile inside)

/-- What is read behind a character at the front. -/
def behind (mark : Char) (read : List Char → Option (α × List Char)) :
    List Char → Option (α × List Char)
  | [] => none
  | c :: cs => if c = mark then read cs else none

/-- A name at the front, with a closing bracket behind it. -/
def enclosedFront (read : String → α) (close : Char) (cs : List Char) : Option (α × List Char) :=
  if (cs.dropWhile isSymbolChar).head? = some close then
    (name? (cs.takeWhile isSymbolChar)).map fun name =>
      (read name, (cs.dropWhile isSymbolChar).tail)
  else none

theorem runFront_eq_some_nil_iff {read : List Char → Option α} {inside : Char → Bool}
    {mark cs : List Char} {a : α} :
    runFront read inside mark cs = some (a, []) ↔
      (∀ c ∈ cs, inside c = true) ∧ read (mark ++ cs) = some a := by
  simp only [runFront, Option.map_eq_some_iff, Prod.mk.injEq, List.dropWhile_eq_nil_iff]
  constructor
  · rintro ⟨_, hread, rfl, hinside⟩
    rw [List.takeWhile_eq_self_iff.2 hinside] at hread
    exact ⟨hinside, hread⟩
  · rintro ⟨hinside, hread⟩
    refine ⟨a, ?_, rfl, hinside⟩
    rw [List.takeWhile_eq_self_iff.2 hinside, hread]

theorem behind_eq_some_iff {mark : Char} {read : List Char → Option (α × List Char)}
    {cs : List Char} {a : α × List Char} :
    behind mark read cs = some a ↔ ∃ rest, cs = mark :: rest ∧ read rest = some a := by
  cases cs with
  | nil => simp [behind]
  | cons c cs => simp [behind, eq_comm]

theorem enclosedFront_eq_some_nil_iff {read : String → α} {close : Char}
    (hclose : isSymbolChar close = false) {cs : List Char} {a : α} :
    enclosedFront read close cs = some (a, []) ↔
      ∃ inner, cs = inner ++ [close] ∧ SymbolName inner ∧ read (String.ofList inner) = a := by
  simp only [enclosedFront, Option.ite_none_right_eq_some, Option.map_eq_some_iff, Prod.mk.injEq,
    name?_eq_some_iff]
  constructor
  · rintro ⟨hhead, _, ⟨hname, rfl⟩, rfl, htail⟩
    refine ⟨cs.takeWhile isSymbolChar, ?_, hname, rfl⟩
    have hdrop : cs.dropWhile isSymbolChar = [close] := by
      rw [← List.cons_head?_tail hhead, htail]
    rw [← hdrop, List.takeWhile_append_dropWhile]
  · rintro ⟨inner, rfl, hname, rfl⟩
    -- The bracket is where the run of a name ends.
    have hboundary : ∀ c, [close].head? = some c → isSymbolChar c = false := by
      rintro c ⟨⟩
      exact hclose
    rw [takeWhile_append_of_boundary hname.2 hboundary,
      dropWhile_append_of_boundary hname.2 hboundary]
    exact ⟨rfl, _, ⟨hname, rfl⟩, rfl, rfl⟩

end Front

namespace Form

/-- The forms in the order in which they are tried. -/
def inOrder : List Form :=
  [hexadecimal, label, constant, subroutine, register, decimal]

/-- A decimal literal at the front of a text, and what is left behind it. -/
def decimalFront : List Char → Option (Operand × List Char)
  | '-' :: cs => runFront (fun cs => (decimalLiteral? cs).map .literal) Char.isDigit ['-'] cs
  | cs => runFront (fun cs => (decimalLiteral? cs).map .literal) Char.isDigit [] cs

/-- The operand of a form at the front of a text, and what is left behind it. -/
def front : Form → List Char → Option (Operand × List Char)
  | hexadecimal =>
    behind '0' (behind 'x'
      (runFront (fun cs => (hexLiteral? cs).map .literal) isHexDigit ['0', 'x']))
  | label => behind '&' (runFront (fun cs => (name? cs).map .label) isSymbolChar [])
  | constant => behind '[' (enclosedFront .constant ']')
  | subroutine => behind '\x7b' (enclosedFront .subroutine '\x7d')
  | register =>
    runFront (fun cs => ((name? cs).bind Register.ofName?).map .register) isSymbolChar []
  | decimal => decimalFront

theorem spelled_hexadecimal_iff {cs : List Char} {operand : Operand} :
    Spelled hexadecimal cs operand ↔ ∃ w, hexLiteral? cs = some w ∧ .literal w = operand := by
  simp only [hexLiteral?_eq_some_iff]
  constructor
  · rintro (⟨hsome, hfour, hhex, hvalue⟩)
    exact ⟨_, ⟨_, rfl, hsome, hfour, hhex, hvalue⟩, rfl⟩
  · rintro ⟨w, ⟨digits, rfl, hsome, hfour, hhex, hvalue⟩, rfl⟩
    exact .hexadecimal hsome hfour hhex hvalue

theorem spelled_decimal_iff {cs : List Char} {operand : Operand} :
    Spelled decimal cs operand ↔ ∃ w, decimalLiteral? cs = some w ∧ .literal w = operand := by
  simp only [decimalLiteral?_eq_some_iff]
  constructor
  · intro h
    cases h with
    | decimal digits lower upper value => exact ⟨_, ⟨_, digits, lower, upper, value⟩, rfl⟩
  · rintro ⟨w, ⟨v, digits, lower, upper, value⟩, rfl⟩
    exact .decimal digits lower upper value

theorem spelled_register_iff {cs : List Char} {operand : Operand} :
    Spelled register cs operand ↔
      ∃ r, Register.ofName? (String.ofList cs) = some r ∧ .register r = operand := by
  simp only [ofName?_eq_some_iff]
  constructor
  · intro h
    cases h with
    | register r => exact ⟨r, String.ofList_toList.symm, rfl⟩
  · rintro ⟨r, hname, rfl⟩
    have hregister := Spelled.register r
    rwa [hname, String.toList_ofList] at hregister

theorem isDigit_of_decimalLiteral? {cs : List Char} {w : Word} (h : decimalLiteral? cs = some w) :
    (∀ digits, cs = '-' :: digits → ∀ c ∈ digits, c.isDigit = true) ∧
      ((∀ digits, cs ≠ '-' :: digits) → ∀ c ∈ cs, c.isDigit = true) := by
  obtain ⟨v, digits, -⟩ := decimalLiteral?_eq_some_iff.1 h
  cases digits with
  | plain some decimal =>
    refine ⟨?_, fun _ c hc => isDigit_iff.2 (decimal c hc)⟩
    rintro digits rfl
    exact absurd (decimal '-' List.mem_cons_self) (by decide)
  | negative some decimal =>
    refine ⟨?_, fun h => absurd rfl (h _)⟩
    rintro digits heq c hc
    obtain rfl := (List.cons.inj heq).2
    exact isDigit_iff.2 (decimal c hc)

theorem decimalFront_eq_some_nil_iff {cs : List Char} {operand : Operand} :
    decimalFront cs = some (operand, []) ↔ Spelled .decimal cs operand := by
  rw [spelled_decimal_iff]
  unfold decimalFront
  split
  · next cs =>
    rw [runFront_eq_some_nil_iff, Option.map_eq_some_iff]
    refine and_iff_right_of_imp ?_
    rintro ⟨w, hw, -⟩
    exact (isDigit_of_decimalLiteral? hw).1 cs rfl
  · next h =>
    rw [runFront_eq_some_nil_iff, Option.map_eq_some_iff]
    refine and_iff_right_of_imp ?_
    rintro ⟨w, hw, -⟩
    exact (isDigit_of_decimalLiteral? hw).2 h

theorem symbolName_of_ofName? {cs : List Char} {r : Register}
    (h : Register.ofName? (String.ofList cs) = some r) : SymbolName cs := by
  have hname : name? r.name.toList = some r.name := by cases r <;> rfl
  have hcs : r.name.toList = cs := by rw [ofName?_eq_some_iff.1 h, String.toList_ofList]
  exact hcs ▸ (name?_eq_some_iff.1 hname).1

/-- A form leaves nothing of the tokens that have it, and of no others. -/
theorem front_eq_some_nil_iff {form : Form} {cs : List Char} {operand : Operand} :
    form.front cs = some (operand, []) ↔ Spelled form cs operand := by
  cases form with
  | hexadecimal =>
    simp only [spelled_hexadecimal_iff, front, behind_eq_some_iff, runFront_eq_some_nil_iff,
      Option.map_eq_some_iff]
    constructor
    · rintro ⟨_, rfl, cs, rfl, -, w, hw, rfl⟩
      exact ⟨w, hw, rfl⟩
    · rintro ⟨w, hw, rfl⟩
      obtain ⟨digits, rfl, -, -, hhex, -⟩ := hexLiteral?_eq_some_iff.1 hw
      exact ⟨_, rfl, digits, rfl, fun c hc => isHexDigit_iff.2 (hhex c hc), w, hw, rfl⟩
  | label =>
    simp only [front, behind_eq_some_iff, runFront_eq_some_nil_iff, Option.map_eq_some_iff,
      List.nil_append, name?_eq_some_iff]
    constructor
    · rintro ⟨cs, rfl, -, _, ⟨named, rfl⟩, rfl⟩
      exact .label named
    · intro h
      cases h with
      | label named => exact ⟨_, rfl, named.2, _, ⟨named, rfl⟩, rfl⟩
  | constant =>
    simp only [front, behind_eq_some_iff,
      enclosedFront_eq_some_nil_iff (show isSymbolChar ']' = false by decide)]
    constructor
    · rintro ⟨_, rfl, name, rfl, named, rfl⟩
      exact .constant named
    · intro h
      cases h with
      | constant named => exact ⟨_, rfl, _, rfl, named, rfl⟩
  | subroutine =>
    simp only [front, behind_eq_some_iff,
      enclosedFront_eq_some_nil_iff (show isSymbolChar '\x7d' = false by decide)]
    constructor
    · rintro ⟨_, rfl, name, rfl, named, rfl⟩
      exact .subroutine named
    · intro h
      cases h with
      | subroutine named => exact ⟨_, rfl, _, rfl, named, rfl⟩
  | register =>
    rw [spelled_register_iff, front, runFront_eq_some_nil_iff, List.nil_append]
    simp only [Option.map_eq_some_iff, Option.bind_eq_some_iff, name?_eq_some_iff]
    constructor
    · rintro ⟨-, r, ⟨_, ⟨-, rfl⟩, hr⟩, rfl⟩
      exact ⟨r, hr, rfl⟩
    · rintro ⟨r, hr, rfl⟩
      have hname := symbolName_of_ofName? hr
      exact ⟨hname.2, r, ⟨_, ⟨hname, rfl⟩, hr⟩, rfl⟩
  | decimal => exact decimalFront_eq_some_nil_iff

/-- A form that is at the front of a text is the one that the front belongs to. Decimal literals may
also be in front of hexadecimal ones, which begin with a digit. -/
theorem ofFront_of_front {form : Form} (hdecimal : form ≠ decimal) {cs : List Char}
    {a : Operand × List Char} (h : form.front cs = some a) : ofFront cs = form := by
  cases form with
  | hexadecimal =>
    simp only [front, behind_eq_some_iff] at h
    obtain ⟨_, rfl, _, rfl, -⟩ := h
    rfl
  | label =>
    obtain ⟨_, rfl, -⟩ := behind_eq_some_iff.1 h
    rfl
  | constant =>
    obtain ⟨_, rfl, -⟩ := behind_eq_some_iff.1 h
    rfl
  | subroutine =>
    obtain ⟨_, rfl, -⟩ := behind_eq_some_iff.1 h
    rfl
  | register =>
    simp only [front, runFront, List.nil_append, Option.map_eq_some_iff, Option.bind_eq_some_iff,
      name?_eq_some_iff, ofName?_eq_some_iff] at h
    obtain ⟨_, ⟨r, ⟨_, ⟨-, rfl⟩, hname⟩, rfl⟩, -⟩ := h
    -- The text begins with the name of the register, and so as a register does.
    have hrun : r.name.toList = cs.takeWhile isSymbolChar := by rw [hname, String.toList_ofList]
    rw [← cs.takeWhile_append_dropWhile (p := isSymbolChar), ← hrun]
    cases r <;> rfl
  | decimal => exact absurd rfl hdecimal

end Form

/-- The first form at the front of a text. -/
def firstFront (cs : List Char) : Option (Operand × List Char) :=
  Form.inOrder.findSome? fun form => form.front cs

/-- The first form at the front leaves nothing of a token exactly if it is the form of the token. -/
theorem firstFront_eq_some_nil_iff {cs : List Char} {operand : Operand} :
    firstFront cs = some (operand, []) ↔ Operand.ofChars? cs = some operand := by
  rw [Operand.ofChars?_eq_some_iff]
  constructor
  · intro h
    obtain ⟨form, -, hfront⟩ := List.exists_of_findSome?_eq_some h
    exact ⟨form, Form.front_eq_some_nil_iff.1 hfront⟩
  · rintro ⟨form, h⟩
    have hsplit : Form.inOrder = Form.inOrder.takeWhile (· ≠ form) ++
        form :: (Form.inOrder.dropWhile (· ≠ form)).tail := by cases form <;> decide
    have hbefore : ∀ other ∈ Form.inOrder.takeWhile (· ≠ form),
        other ≠ form ∧ other ≠ .decimal := by cases form <;> decide
    rw [firstFront, List.findSome?_eq_some_iff]
    refine ⟨_, form, _, hsplit, Form.front_eq_some_nil_iff.2 h, fun other hother => ?_⟩
    -- Only decimal literals can be in front of a token of another form, and they are tried last.
    obtain ⟨hne, hdecimal⟩ := hbefore other hother
    rw [Option.eq_none_iff_forall_ne_some]
    intro a ha
    exact hne ((Form.ofFront_of_front hdecimal ha).symm.trans h.ofFront_eq)

/-! ### The grammar -/

namespace Operand

theorem startsHex_iff {cs : List Char} : startsHex cs = true ↔ ['0', 'x'] <+: cs := by
  unfold startsHex
  split
  · simp
  · next h =>
    refine ⟨nofun, ?_⟩
    rintro ⟨rest, rfl⟩
    exact absurd rfl (h rest)

theorem startsDecimal_iff {cs : List Char} :
    startsDecimal cs = true ↔ ∃ c ∈ cs.head?, c = '-' ∨ digitRank c < 10 := by
  cases cs with
  | nil => simp [startsDecimal]
  | cons c rest => simp [startsDecimal, isDigit_iff]

theorem parse_eq_ok_iff {line : Nat} {token : String} {operand : Operand} :
    parse line token = .ok operand ↔ ofChars? token.toList = some operand := by
  unfold parse
  cases ofChars? token.toList with
  | none => simp
  | some o => simp

theorem parse_eq_fault {line : Nat} {token : String} (h : ofChars? token.toList = none) :
    parse line token = .error (fault line token) := by
  rw [parse, h]

/-- **The grammar of operands.** A token is read as an operand if and only if it has one of the six
forms, as what that form stands for. That is the operand that is found by taking the first form at
the front of the token, if this leaves nothing of it. No token has two forms or stands for two
operands. A token of no form is refused by its front: as a hexadecimal literal, as an integer, or
altogether. -/
theorem parse_follows_grammar (line : Nat) (token : String) :
    (∀ operand, parse line token = .ok operand ↔ ∃ form, Spelled form token.toList operand) ∧
      (∀ operand, parse line token = .ok operand ↔
        firstFront token.toList = some (operand, [])) ∧
      (∀ form form' operand operand', Spelled form token.toList operand →
        Spelled form' token.toList operand' → form = form' ∧ operand = operand') ∧
      ((∀ form operand, ¬ Spelled form token.toList operand) →
        (['0', 'x'] <+: token.toList →
          parse line token = .error (.invalidHex line token)) ∧
        (¬ ['0', 'x'] <+: token.toList →
          (∃ c ∈ token.toList.head?, c = '-' ∨ digitRank c < 10) →
          parse line token = .error (.invalidInteger line token)) ∧
        (¬ ['0', 'x'] <+: token.toList →
          (¬ ∃ c ∈ token.toList.head?, c = '-' ∨ digitRank c < 10) →
          parse line token = .error (.unknownOperand line token))) := by
  refine ⟨fun operand => ?_, fun operand => ?_, fun _ _ _ _ => spelled_unique,
    fun formless => ?_⟩
  · rw [parse_eq_ok_iff, ofChars?_eq_some_iff]
  · rw [parse_eq_ok_iff, firstFront_eq_some_nil_iff]
  · have hnone : ofChars? token.toList = none := by
      rw [Option.eq_none_iff_forall_ne_some]
      intro operand h
      obtain ⟨form, hform⟩ := ofChars?_eq_some_iff.1 h
      exact formless form operand hform
    rw [parse_eq_fault hnone, fault, ← startsHex_iff, ← startsDecimal_iff]
    refine ⟨fun hex => ?_, fun hex decimal => ?_, fun hex decimal => ?_⟩
    · rw [if_pos hex]
    · rw [if_neg hex, if_pos decimal]
    · rw [if_neg hex, if_neg decimal]

/-- Uppercase digits, a sign before leading zeros, a number that is too large, and a name in a
bracket that is not closed. -/
example : parse 3 "0xfF" = .ok (.literal 255) ∧ parse 3 "-0001" = .ok (.literal 0xFFFF) ∧
    parse 3 "65536" = .error (.invalidInteger 3 "65536") ∧
    parse 3 "[n" = .error (.unknownOperand 3 "[n") := by
  decide +kernel

end Operand

end WordMachine.Source
