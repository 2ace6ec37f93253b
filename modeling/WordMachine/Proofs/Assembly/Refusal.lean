import WordMachine.Proofs.Assembly.Step

namespace WordMachine

open Sequence Source

/-!
# Why a text is refused

Assembly stops at the first line that it refuses. What is wrong with the line is wrong with its
tokens, or with the place where it stands, or there is no room for it, or it declares a name again.
Once all lines are read, what may still be missing is a label or `main`.

* `Malformed` — what may be wrong with the tokens of a line.
* `Assembly.Refuses` — why a state refuses a line.
* `Assembly.refuses_of_step` — there is no other reason.
* `Assembly.finish_eq_error` — what may be missing in the end.
-/

/-- What may be wrong with the tokens of a line, given the names that are declared. -/
inductive Malformed (line : Nat) : AssemblyError → Prop where
  | untokenizable (text : String) : Malformed line (.untokenizable line text)
  | unknownMnemonic (mnemonic : String) : Malformed line (.unknownMnemonic line mnemonic)
  | wrongOperandCount (opcode : Opcode) (found : Nat) :
      Malformed line (.wrongOperandCount line opcode found)
  | undeclaredConstant (name : String) : Malformed line (.undeclaredConstant line name)
  | undeclaredSubroutine (name : String) : Malformed line (.undeclaredSubroutine line name)
  | invalidHex (token : String) : Malformed line (.invalidHex line token)
  | invalidInteger (token : String) : Malformed line (.invalidInteger line token)
  | invalidConstantValue (token : String) : Malformed line (.invalidConstantValue line token)
  | unknownOperand (token : String) : Malformed line (.unknownOperand line token)
  | invalidName (token : String) : Malformed line (.invalidName line token)

/-! ### Tokens -/

section Tokens

variable {line : Nat} {token : String} {e : AssemblyError}

theorem malformed_of_parseName (h : parseName line token = .error e) : Malformed line e := by
  unfold parseName at h
  split at h
  · cases h
  · cases h
    exact .invalidName token

theorem malformed_of_ofToken (h : Statement.ofToken line token = .error e) : Malformed line e := by
  simp only [Statement.ofToken] at h
  split at h
  · exact malformed_of_parseName (map_eq_error_iff.1 h)
  · split at h
    · exact malformed_of_parseName (map_eq_error_iff.1 h)
    · cases h

theorem malformed_of_ofLine {l : Line} (h : Statement.ofLine l = .error e) :
    Malformed l.number e := by
  unfold Statement.ofLine at h
  split at h
  · cases h
    exact .untokenizable _
  · exact malformed_of_ofToken h
  · split at h
    · split at h
      · exact malformed_of_parseName (map_eq_error_iff.1 h)
      · cases h
        exact .invalidConstantValue _
    · cases h

theorem malformed_of_constantWords (h : constantWords line token = .error e) :
    Malformed line e := by
  simp only [constantWords] at h
  split at h
  · cases h
  · split at h
    · split at h
      · cases h
      · cases h
        exact .invalidHex token
    · split at h
      · split at h
        · cases h
        · cases h
          exact .invalidInteger token
      · cases h
        exact .invalidConstantValue token

theorem malformed_of_parse (h : Operand.parse line token = .error e) :
    Malformed line e := by
  unfold Operand.parse at h
  split at h
  · cases h
  · cases h
    unfold Operand.fault
    split
    · exact .invalidHex token
    · split
      · exact .invalidInteger token
      · exact .unknownOperand token

end Tokens

namespace Assembly

section Operands

variable {symbols : SymbolTable} {line : Nat} {e : AssemblyError}

theorem malformed_of_draftOperand {operand : Operand}
    (h : draftOperand symbols line operand = .error e) : Malformed line e := by
  cases operand with
  | literal w => cases h
  | register r => cases h
  | label name => cases h
  | constant name =>
    simp only [draftOperand] at h
    split at h
    · cases h
    · cases h
      exact .undeclaredConstant name
  | subroutine name =>
    simp only [draftOperand] at h
    split at h
    · cases h
    · cases h
      exact .undeclaredSubroutine name

theorem malformed_of_draftToken {token : String} (h : draftToken symbols line token = .error e) :
    Malformed line e := by
  rcases bind_eq_error_iff.1 h with hparse | ⟨operand, -, hoperand⟩
  · exact malformed_of_parse hparse
  · exact malformed_of_draftOperand hoperand

theorem malformed_of_draftInstruction {mnemonic : String} {tokens : List String}
    (h : draftInstruction symbols line mnemonic tokens = .error e) : Malformed line e := by
  unfold draftInstruction at h
  split at h
  · cases h
    exact .unknownMnemonic mnemonic
  · next opcode _ =>
    split at h
    · rcases bind_eq_error_iff.1 h with htokens | ⟨operands, -, h⟩
      · obtain ⟨token, -, htoken⟩ := exists_of_mapM_eq_error htokens
        exact malformed_of_draftToken htoken
      · cases h
    · cases h
      exact .wrongOperandCount opcode _

end Operands

/-! ### Lines -/

/-- Why a line is refused. -/
inductive Refuses (s : Assembly) (line : Line) : AssemblyError → Prop where
  | malformed {e : AssemblyError} (fault : Malformed line.number e) : Refuses s line e
  | constantInSubroutine {name value : String} {draft : DraftSubroutine}
      {rest : List DraftSubroutine} (kind : Statement.ofLine line = .ok (.constant name value))
      (inside : s.drafts = draft :: rest) :
      Refuses s line (.constantInSubroutine line.number name)
  | labelOutsideSubroutine {name : String} (kind : Statement.ofLine line = .ok (.label name))
      (outside : s.drafts = []) : Refuses s line (.labelOutsideSubroutine line.number name)
  | instructionOutsideSubroutine {mnemonic : String} {tokens : List String}
      (kind : Statement.ofLine line = .ok (.instruction mnemonic tokens))
      (outside : s.drafts = []) : Refuses s line (.instructionOutsideSubroutine line.number)
  | addressSpaceExhausted {size : Nat} (full : ¬s.HasRoom size) :
      Refuses s line (.addressSpaceExhausted line.number)
  | duplicateConstant {name value : String} {size : Nat}
      (kind : Statement.ofLine line = .ok (.constant name value)) (room : s.HasRoom size)
      (taken : s.symbols.insertConstant? name s.address = none) :
      Refuses s line (.duplicateConstant line.number name)
  | duplicateSubroutine {name : String}
      (kind : Statement.ofLine line = .ok (.subroutine name))
      (taken : s.symbols.insertSubroutine? name s.address = none) :
      Refuses s line (.duplicateSubroutine line.number name)
  | duplicateLabel {name : String} {draft : DraftSubroutine} {rest : List DraftSubroutine}
      (kind : Statement.ofLine line = .ok (.label name)) (inside : s.drafts = draft :: rest)
      (taken : s.symbols.insertLabel? draft.scope name s.address = none) :
      Refuses s line (.duplicateLabel line.number name)

variable {s : Assembly} {line : Line} {e : AssemblyError}

theorem refuses_of_reserve {size : Nat} (h : s.reserve line.number size = .error e) :
    s.Refuses line e := by
  unfold reserve at h
  split at h
  · cases h
  · next full =>
    cases h
    exact .addressSpaceExhausted full

/-- A line is refused for one of these reasons. -/
theorem refuses_of_step (h : s.step line = .error e) : s.Refuses line e := by
  -- The checks of each kind of line stand one behind the other, and each has its reason.
  rcases bind_eq_error_iff.1 h with hkind | ⟨statement, kind, h⟩
  · exact .malformed (malformed_of_ofLine hkind)
  cases statement with
  | constant name value =>
    simp only [execute, declareConstant] at h
    split at h
    · next inside =>
      cases h
      exact .constantInSubroutine kind inside
    · rcases bind_eq_error_iff.1 h with hwords | ⟨words, -, h⟩
      · exact .malformed (malformed_of_constantWords hwords)
      · rcases bind_eq_error_iff.1 h with hfull | ⟨next, hnext, h⟩
        · exact refuses_of_reserve hfull
        · split at h
          · cases h
          · next taken =>
            cases h
            exact .duplicateConstant kind (reserve_eq_ok_iff.1 hnext).1 taken
  | subroutine name =>
    simp only [execute, openSubroutine] at h
    rcases bind_eq_error_iff.1 h with hfull | ⟨next, -, h⟩
    · exact refuses_of_reserve hfull
    · split at h
      · cases h
      · next taken =>
        cases h
        exact .duplicateSubroutine kind taken
  | label name =>
    simp only [execute, declareLabel] at h
    split at h
    · next outside =>
      cases h
      exact .labelOutsideSubroutine kind outside
    · next inside =>
      rcases bind_eq_error_iff.1 h with hfull | ⟨next, -, h⟩
      · exact refuses_of_reserve hfull
      · split at h
        · cases h
        · next taken =>
          cases h
          exact .duplicateLabel kind inside taken
  | instruction mnemonic tokens =>
    simp only [execute, emit] at h
    split at h
    · next outside =>
      cases h
      exact .instructionOutsideSubroutine kind outside
    · rcases bind_eq_error_iff.1 h with hdraft | ⟨d, -, h⟩
      · exact .malformed (malformed_of_draftInstruction hdraft)
      · rcases bind_eq_error_iff.1 h with hfull | ⟨next, -, h⟩
        · exact refuses_of_reserve hfull
        · cases h

/-! ### The end of a text -/

theorem resolve_eq_error (h : s.resolve = .error e) : ∃ n name, e = .undeclaredLabel n name := by
  obtain ⟨d, -, hd⟩ := exists_of_mapM_eq_error h
  rcases bind_eq_error_iff.1 hd with hinstructions | ⟨is, -, hd⟩
  · obtain ⟨i, -, hi⟩ := exists_of_mapM_eq_error hinstructions
    obtain ⟨j, r, -, hr⟩ := exists_of_foldlM_eq_error hi
    unfold DraftInstruction.resolveReference at hr
    split at hr
    · cases hr
    · cases hr
      exact ⟨_, _, rfl⟩
  · cases hd

/-- Behind the last line a label may be missing, or `main`. -/
theorem finish_eq_error (h : s.finish = .error e) :
    (∃ n name, e = .undeclaredLabel n name) ∨ e = .missingMain ∨ ∃ name, e = .misnamedMain name := by
  rcases bind_eq_error_iff.1 h with hresolve | ⟨subroutines, -, h⟩
  · exact .inl (resolve_eq_error hresolve)
  · split at h
    · cases h
      exact .inr (.inl rfl)
    · split at h
      · cases h
      · cases h
        exact .inr (.inr ⟨_, rfl⟩)

end Assembly

end WordMachine
