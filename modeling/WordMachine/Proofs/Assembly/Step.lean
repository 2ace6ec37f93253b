import WordMachine.Assembly
import WordMachine.Proofs.Sequence

namespace WordMachine.Assembly

open Sequence Source

/-!
# What a line adds

A line is accepted in one of four ways. `Reads` lists them with everything that is checked and
everything that changes, so that what assembly keeps is shown once for each of the four, and no
proof about whole programs has to open the definitions of the four kinds of lines.

* `HasRoom` — whether words fit behind the cursor.
* `Reads` — the state before and after an accepted line.
* `step_eq_ok_iff` — `Assembly.step` accepts just these lines.
* `run_induction` — what each of the four keeps holds behind the last line.
* `finish_eq_ok_iff` — the program that is finished there.
-/

/-- Whether `size` words fit behind the cursor. At `haltAddress` there is no room even for none. -/
def HasRoom (s : Assembly) (size : Nat) : Prop :=
  s.cursor < haltAddress.toNat ∧ s.cursor + size ≤ haltAddress.toNat

theorem reserve_eq_ok_iff {s s' : Assembly} {line size : Nat} :
    s.reserve line size = .ok s' ↔
      s.HasRoom size ∧ s' = { s with cursor := s.cursor + size } := by
  unfold reserve HasRoom
  by_cases h : s.cursor < haltAddress.toNat ∧ s.cursor + size ≤ haltAddress.toNat
  · simp [h, eq_comm]
  · simp [h]

/-! ### Instructions -/

/-- The draft of an accepted instruction: its mnemonic is known, and each of the operands, as many
as the opcode takes, has a meaning. -/
theorem draftInstruction_eq_ok_iff {symbols : SymbolTable} {line : Nat} {mnemonic : String}
    {tokens : List String} {d : DraftInstruction} :
    draftInstruction symbols line mnemonic tokens = .ok d ↔
      ∃ opcode operands, Opcode.ofMnemonic? mnemonic = some opcode ∧
        tokens.length = opcode.operandCount ∧
        List.Forall₂ (fun t o => draftToken symbols line t = .ok o) tokens operands ∧
        d = .ofOperands line opcode operands := by
  unfold draftInstruction
  cases Opcode.ofMnemonic? mnemonic with
  | none => simp
  | some opcode =>
    simp only [Option.some.injEq, ← mapM_eq_ok_iff]
    by_cases hcount : tokens.length = opcode.operandCount
    · rw [if_pos hcount, bind_eq_ok_iff]
      constructor
      · rintro ⟨operands, hoperands, hd⟩
        exact ⟨opcode, operands, rfl, hcount, hoperands, (Except.ok.inj hd).symm⟩
      · rintro ⟨_, operands, rfl, -, hoperands, rfl⟩
        exact ⟨operands, hoperands, rfl⟩
    · rw [if_neg hcount]
      simp only [reduceCtorEq, false_iff]
      rintro ⟨_, operands, rfl, hlen, -⟩
      exact hcount hlen

/-! ### The four kinds of lines -/

/-- The state before and after a line that is accepted. -/
inductive Reads (s : Assembly) (line : Line) : Assembly → Prop where
  | constant {name value : String} {words : List Word} {symbols : SymbolTable}
      (kind : Statement.ofLine line = .ok (.constant name value)) (first : s.drafts = [])
      (spells : constantWords line.number value = .ok words) (room : s.HasRoom words.length)
      (fresh : s.symbols.insertConstant? name s.address = some symbols) :
      Reads s line { s with
        cursor := s.cursor + words.length
        symbols
        constants := s.constants ++ constantsOf name s.address words }
  | subroutine {name : String} {scope : Nat} {symbols : SymbolTable}
      (kind : Statement.ofLine line = .ok (.subroutine name)) (room : s.HasRoom 0)
      (fresh : s.symbols.insertSubroutine? name s.address = some (scope, symbols)) :
      Reads s line { s with
        symbols
        drafts := ⟨name, s.address, scope, []⟩ :: s.drafts }
  | label {name : String} {draft : DraftSubroutine} {rest : List DraftSubroutine}
      {symbols : SymbolTable}
      (kind : Statement.ofLine line = .ok (.label name)) (inside : s.drafts = draft :: rest)
      (room : s.HasRoom 0)
      (fresh : s.symbols.insertLabel? draft.scope name s.address = some symbols) :
      Reads s line { s with symbols }
  | instruction {mnemonic : String} {tokens : List String} {draft : DraftSubroutine}
      {rest : List DraftSubroutine} {d : DraftInstruction}
      (kind : Statement.ofLine line = .ok (.instruction mnemonic tokens))
      (inside : s.drafts = draft :: rest)
      (drafts : draftInstruction s.symbols line.number mnemonic tokens = .ok d)
      (room : s.HasRoom d.instruction.size) :
      Reads s line { s with
        cursor := s.cursor + d.instruction.size
        drafts := { draft with instructions := d :: draft.instructions } :: rest }

/-- Every accepted line is accepted in one of the four ways. -/
theorem reads_of_step {s s' : Assembly} {line : Line} (h : s.step line = .ok s') :
    s.Reads line s' := by
  -- A refusal contradicts `h`, and what is left of each definition is one way of `Reads`.
  obtain ⟨statement, kind, h⟩ := bind_eq_ok_iff.1 h
  cases statement with
  | constant name value =>
    simp only [execute, declareConstant] at h
    split at h
    · cases h
    · next first =>
      obtain ⟨words, spells, h⟩ := bind_eq_ok_iff.1 h
      obtain ⟨next, hnext, h⟩ := bind_eq_ok_iff.1 h
      obtain ⟨room, rfl⟩ := reserve_eq_ok_iff.1 hnext
      split at h
      · next symbols fresh =>
        cases h
        exact .constant kind first spells room fresh
      · cases h
  | subroutine name =>
    simp only [execute, openSubroutine] at h
    obtain ⟨next, hnext, h⟩ := bind_eq_ok_iff.1 h
    obtain ⟨room, rfl⟩ := reserve_eq_ok_iff.1 hnext
    split at h
    · next scope symbols fresh =>
      cases h
      exact .subroutine kind room fresh
    · cases h
  | label name =>
    simp only [execute, declareLabel] at h
    split at h
    · cases h
    · next draft rest inside =>
      obtain ⟨next, hnext, h⟩ := bind_eq_ok_iff.1 h
      obtain ⟨room, rfl⟩ := reserve_eq_ok_iff.1 hnext
      split at h
      · next symbols fresh =>
        cases h
        exact .label kind inside room fresh
      · cases h
  | instruction mnemonic tokens =>
    simp only [execute, emit] at h
    split at h
    · cases h
    · next draft rest inside =>
      obtain ⟨d, drafts, h⟩ := bind_eq_ok_iff.1 h
      obtain ⟨next, hnext, h⟩ := bind_eq_ok_iff.1 h
      obtain ⟨room, rfl⟩ := reserve_eq_ok_iff.1 hnext
      cases h
      exact .instruction kind inside drafts room

/-- Each of the four kinds of lines is accepted. -/
theorem step_of_reads {s s' : Assembly} {line : Line} (h : s.Reads line s') :
    s.step line = .ok s' := by
  have reserved : ∀ {n}, s.HasRoom n →
      s.reserve line.number n = .ok { s with cursor := s.cursor + n } := fun room =>
    reserve_eq_ok_iff.2 ⟨room, rfl⟩
  rw [step]
  cases h with
  | constant kind first spells room fresh =>
    simp [kind, execute, declareConstant, first, spells, reserved room, fresh, bind, Except.bind]
  | subroutine kind room fresh =>
    simp [kind, execute, openSubroutine, reserved room, fresh, bind, Except.bind]
  | label kind inside room fresh =>
    simp [kind, execute, declareLabel, inside, reserved room, fresh, bind, Except.bind]
  | instruction kind inside drafts room =>
    simp [kind, execute, emit, inside, drafts, reserved room, bind, Except.bind, pure, Except.pure]

theorem step_eq_ok_iff {s s' : Assembly} {line : Line} :
    s.step line = .ok s' ↔ s.Reads line s' :=
  ⟨reads_of_step, step_of_reads⟩

/-! ### Whole programs -/

/-- What every accepted line keeps holds behind the last of them. -/
theorem run_induction {P : Assembly → Prop}
    (hstep : ∀ {s line s'}, Reads s line s' → P s → P s') {lines : List Line} {s s' : Assembly}
    (h : lines.foldlM step s = .ok s') (hs : P s) : P s' :=
  foldlM_induction (fun hline => hstep (reads_of_step hline)) h hs

/-- The program behind the last line: its labels are resolved, and its last subroutine is named
`main`. -/
theorem finish_eq_ok_iff {s : Assembly} {p : Program} :
    s.finish = .ok p ↔
      ∃ subroutines last rest, s.resolve = .ok subroutines ∧ s.drafts = last :: rest ∧
        last.name = mainName ∧ p = ⟨s.constants.toList, subroutines, last.address⟩ := by
  unfold finish
  rw [bind_eq_ok_iff]
  constructor
  · rintro ⟨subroutines, hresolve, h⟩
    split at h
    · cases h
    · next last rest inside =>
      split at h
      · next hmain =>
        exact ⟨subroutines, last, rest, hresolve, inside, hmain, (Except.ok.inj h).symm⟩
      · cases h
  · rintro ⟨subroutines, last, rest, hresolve, inside, hmain, rfl⟩
    refine ⟨subroutines, hresolve, ?_⟩
    simp [inside, hmain]

end WordMachine.Assembly
