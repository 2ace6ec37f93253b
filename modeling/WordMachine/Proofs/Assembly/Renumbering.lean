import WordMachine.Assembly
import WordMachine.Proofs.Source.Formatting

namespace WordMachine

open Sequence Source

/-!
# Formatting is invisible

Assembly hands the number of a line on and never looks at it: it ends up in errors, or in drafts,
which may yet lead to an error. So lines with other numbers make the same program, or the same error
with the other number of its line.

* `AssemblyError.renumbered` and `Assembly.renumbered` — errors and states with other numbers.
* `step_renumbered` — what one line does; `assemble_renumbered` — what a run over all lines does.
* `line_mem_of_assemble` — an error names one of the lines.
* `assembleText_reformatted` — all of this for texts in another format.
-/

variable (ρ : Nat → Nat)

/-! ### Errors -/

namespace AssemblyError

/-- The error with another number of its line, if it has one. -/
def renumbered : AssemblyError → AssemblyError
  | untokenizable line text => untokenizable (ρ line) text
  | unknownMnemonic line mnemonic => unknownMnemonic (ρ line) mnemonic
  | wrongOperandCount line opcode found => wrongOperandCount (ρ line) opcode found
  | undeclaredConstant line name => undeclaredConstant (ρ line) name
  | undeclaredSubroutine line name => undeclaredSubroutine (ρ line) name
  | undeclaredLabel line name => undeclaredLabel (ρ line) name
  | duplicateConstant line name => duplicateConstant (ρ line) name
  | duplicateSubroutine line name => duplicateSubroutine (ρ line) name
  | duplicateLabel line name => duplicateLabel (ρ line) name
  | invalidHex line token => invalidHex (ρ line) token
  | invalidInteger line token => invalidInteger (ρ line) token
  | invalidConstantValue line token => invalidConstantValue (ρ line) token
  | unknownOperand line token => unknownOperand (ρ line) token
  | invalidName line token => invalidName (ρ line) token
  | instructionOutsideSubroutine line => instructionOutsideSubroutine (ρ line)
  | labelOutsideSubroutine line name => labelOutsideSubroutine (ρ line) name
  | constantInSubroutine line name => constantInSubroutine (ρ line) name
  | addressSpaceExhausted line => addressSpaceExhausted (ρ line)
  | missingMain => missingMain
  | misnamedMain found => misnamedMain found

@[simp]
theorem line?_renumbered (e : AssemblyError) : (e.renumbered ρ).line? = e.line?.map ρ := by
  cases e <;> rfl

@[simp]
theorem cause_renumbered (e : AssemblyError) : (e.renumbered ρ).cause = e.cause := by
  cases e <;> rfl

end AssemblyError

/-! ### Statements and operands -/

namespace Source

theorem parseName_renumbered (line : Nat) (token : String) :
    parseName (ρ line) token = relabel (.renumbered ρ) id (parseName line token) := by
  unfold parseName
  cases name? token.toList <;> rfl

theorem Statement.ofToken_renumbered (line : Nat) (token : String) :
    ofToken (ρ line) token = relabel (.renumbered ρ) id (ofToken line token) := by
  simp only [ofToken, parseName_renumbered]
  split
  · exact map_relabel fun _ => rfl
  · split
    · exact map_relabel fun _ => rfl
    · rfl

theorem Statement.ofLine_renumbered (l : Line) :
    ofLine (l.renumbered ρ) = relabel (.renumbered ρ) id (ofLine l) := by
  obtain ⟨number, tokens⟩ := l
  simp only [Line.renumbered, ofLine]
  split
  · rfl
  · exact ofToken_renumbered ρ number _
  · split
    · split
      · rw [parseName_renumbered]
        exact map_relabel fun _ => rfl
      · rfl
    · rfl

theorem constantWords_renumbered (line : Nat) (token : String) :
    constantWords (ρ line) token = relabel (.renumbered ρ) id (constantWords line token) := by
  simp only [constantWords]
  split
  · rfl
  · split
    · split <;> rfl
    · split
      · split <;> rfl
      · rfl

theorem Operand.parse_renumbered (line : Nat) (token : String) :
    parse (ρ line) token = relabel (.renumbered ρ) id (parse line token) := by
  simp only [parse, fault]
  split
  · rfl
  · split
    · rfl
    · split <;> rfl

end Source

/-! ### Drafts -/

/-- The reference with another number of its line. -/
def LabelReference.renumbered (r : LabelReference) : LabelReference :=
  { r with line := ρ r.line }

namespace DraftInstruction

/-- The draft with other numbers in its references. -/
def renumbered (d : DraftInstruction) : DraftInstruction :=
  { d with references := d.references.map (LabelReference.renumbered ρ) }

@[simp]
theorem instruction_renumbered (d : DraftInstruction) :
    (d.renumbered ρ).instruction = d.instruction := rfl

theorem ofOperands_renumbered (line : Nat) (opcode : Opcode) (operands : List DraftOperand) :
    ofOperands (ρ line) opcode operands = (ofOperands line opcode operands).renumbered ρ := by
  simp only [ofOperands, renumbered, List.map_filterMap]
  congr 2
  funext entry
  obtain ⟨operand, i⟩ := entry
  cases operand <;> rfl

theorem resolve_renumbered (symbols : SymbolTable) (scope : Nat) (d : DraftInstruction) :
    (d.renumbered ρ).resolve symbols scope =
      relabel (.renumbered ρ) id (d.resolve symbols scope) := by
  refine foldlM_relabel (t := id) ?_ d.references d.instruction
  intro i r
  simp only [resolveReference, LabelReference.renumbered, id]
  split <;> rfl

end DraftInstruction

namespace DraftSubroutine

/-- The draft with other numbers in its instructions. -/
def renumbered (d : DraftSubroutine) : DraftSubroutine :=
  { d with instructions := d.instructions.map (DraftInstruction.renumbered ρ) }

@[simp]
theorem scope_renumbered (d : DraftSubroutine) : (d.renumbered ρ).scope = d.scope := rfl

@[simp]
theorem name_renumbered (d : DraftSubroutine) : (d.renumbered ρ).name = d.name := rfl

@[simp]
theorem address_renumbered (d : DraftSubroutine) : (d.renumbered ρ).address = d.address := rfl

theorem resolve_renumbered (symbols : SymbolTable) (d : DraftSubroutine) :
    (d.renumbered ρ).resolve symbols = relabel (.renumbered ρ) id (d.resolve symbols) := by
  have hinstructions := mapM_relabel (DraftInstruction.resolve_renumbered ρ symbols d.scope)
    d.instructions.reverse
  rw [List.map_id_fun] at hinstructions
  simp only [resolve, renumbered, ← List.map_reverse, hinstructions]
  exact bind_relabel fun _ => rfl

end DraftSubroutine

/-! ### The state between two lines -/

namespace Assembly

/-- The state with other numbers in its drafts. -/
def renumbered (s : Assembly) : Assembly :=
  { s with drafts := s.drafts.map (DraftSubroutine.renumbered ρ) }

/-- At first there are no numbers to change. -/
@[simp]
theorem start_renumbered (base : Word) : (start base).renumbered ρ = start base := rfl

@[simp]
theorem symbols_renumbered (s : Assembly) : (s.renumbered ρ).symbols = s.symbols := rfl

@[simp]
theorem constants_renumbered (s : Assembly) : (s.renumbered ρ).constants = s.constants := rfl

@[simp]
theorem address_renumbered (s : Assembly) : (s.renumbered ρ).address = s.address := rfl

@[simp]
theorem drafts_renumbered (s : Assembly) :
    (s.renumbered ρ).drafts = s.drafts.map (DraftSubroutine.renumbered ρ) := rfl

theorem reserve_renumbered (s : Assembly) (line size : Nat) :
    (s.renumbered ρ).reserve (ρ line) size =
      relabel (.renumbered ρ) (renumbered ρ) (s.reserve line size) := by
  unfold reserve
  by_cases h : s.cursor < haltAddress.toNat ∧ s.cursor + size ≤ haltAddress.toNat
  · rw [if_pos h]
    exact if_pos h
  · rw [if_neg h]
    exact if_neg h

theorem declareConstant_renumbered (s : Assembly) (line : Nat) (name value : String) :
    (s.renumbered ρ).declareConstant (ρ line) name value =
      relabel (.renumbered ρ) (renumbered ρ) (s.declareConstant line name value) := by
  unfold declareConstant
  rw [drafts_renumbered]
  cases s.drafts with
  | cons draft drafts => rfl
  | nil =>
    rw [List.map_nil]
    dsimp only
    rw [constantWords_renumbered]
    refine bind_relabel fun words => ?_
    rw [id, reserve_renumbered]
    refine bind_relabel fun next => ?_
    rw [symbols_renumbered, address_renumbered]
    cases s.symbols.insertConstant? name s.address <;> rfl

theorem openSubroutine_renumbered (s : Assembly) (line : Nat) (name : String) :
    (s.renumbered ρ).openSubroutine (ρ line) name =
      relabel (.renumbered ρ) (renumbered ρ) (s.openSubroutine line name) := by
  rw [openSubroutine, openSubroutine, reserve_renumbered]
  refine bind_relabel fun next => ?_
  rw [symbols_renumbered, address_renumbered]
  cases s.symbols.insertSubroutine? name s.address <;> rfl

theorem declareLabel_renumbered (s : Assembly) (line : Nat) (name : String) :
    (s.renumbered ρ).declareLabel (ρ line) name =
      relabel (.renumbered ρ) (renumbered ρ) (s.declareLabel line name) := by
  unfold declareLabel
  rw [drafts_renumbered]
  cases s.drafts with
  | nil => rfl
  | cons draft drafts =>
    rw [List.map_cons]
    dsimp only
    rw [reserve_renumbered]
    refine bind_relabel fun next => ?_
    rw [symbols_renumbered, address_renumbered, DraftSubroutine.scope_renumbered]
    cases s.symbols.insertLabel? draft.scope name s.address <;> rfl

theorem draftOperand_renumbered (symbols : SymbolTable) (line : Nat) (operand : Operand) :
    draftOperand symbols (ρ line) operand =
      relabel (.renumbered ρ) id (draftOperand symbols line operand) := by
  cases operand with
  | constant name =>
    simp only [draftOperand]
    cases symbols.constant? name <;> rfl
  | subroutine name =>
    simp only [draftOperand]
    cases symbols.subroutine? name <;> rfl
  | literal | label | register => rfl

theorem draftToken_renumbered (symbols : SymbolTable) (line : Nat) (token : String) :
    draftToken symbols (ρ line) token =
      relabel (.renumbered ρ) id (draftToken symbols line token) := by
  rw [draftToken, draftToken, Operand.parse_renumbered]
  exact bind_relabel fun operand => draftOperand_renumbered ρ symbols line operand

theorem draftInstruction_renumbered (symbols : SymbolTable) (line : Nat) (mnemonic : String)
    (tokens : List String) :
    draftInstruction symbols (ρ line) mnemonic tokens =
      relabel (.renumbered ρ) (.renumbered ρ) (draftInstruction symbols line mnemonic tokens) := by
  have hoperands := mapM_relabel (g := id) (draftToken_renumbered ρ symbols line) tokens
  rw [List.map_id_fun, List.map_id_fun, id] at hoperands
  unfold draftInstruction
  cases Opcode.ofMnemonic? mnemonic with
  | none => rfl
  | some opcode =>
    dsimp only
    split
    · rw [hoperands]
      refine bind_relabel fun operands => ?_
      exact congrArg Except.ok (DraftInstruction.ofOperands_renumbered ρ line opcode operands)
    · rfl

theorem emit_renumbered (s : Assembly) (line : Nat) (mnemonic : String) (tokens : List String) :
    (s.renumbered ρ).emit (ρ line) mnemonic tokens =
      relabel (.renumbered ρ) (renumbered ρ) (s.emit line mnemonic tokens) := by
  unfold emit
  rw [drafts_renumbered]
  cases s.drafts with
  | nil => rfl
  | cons draft drafts =>
    rw [List.map_cons]
    dsimp only
    rw [symbols_renumbered, draftInstruction_renumbered]
    refine bind_relabel fun instruction => ?_
    rw [DraftInstruction.instruction_renumbered, reserve_renumbered]
    exact bind_relabel fun next => rfl

/-! ### Whole programs -/

/-- One line does the same under another number. -/
theorem step_renumbered (s : Assembly) (l : Line) :
    (s.renumbered ρ).step (l.renumbered ρ) =
      relabel (.renumbered ρ) (renumbered ρ) (s.step l) := by
  rw [step, step, Statement.ofLine_renumbered]
  refine bind_relabel fun statement => ?_
  cases statement with
  | constant name value => exact declareConstant_renumbered ρ s l.number name value
  | subroutine name => exact openSubroutine_renumbered ρ s l.number name
  | label name => exact declareLabel_renumbered ρ s l.number name
  | instruction mnemonic tokens => exact emit_renumbered ρ s l.number mnemonic tokens

theorem finish_renumbered (s : Assembly) :
    (s.renumbered ρ).finish = relabel (.renumbered ρ) id s.finish := by
  have hresolve := mapM_relabel (DraftSubroutine.resolve_renumbered ρ s.symbols) s.drafts.reverse
  rw [List.map_id_fun, List.map_reverse] at hresolve
  unfold finish
  rw [resolve, resolve, drafts_renumbered, symbols_renumbered, hresolve]
  refine bind_relabel fun subroutines => ?_
  cases s.drafts with
  | nil => rfl
  | cons last drafts =>
    rw [List.map_cons]
    dsimp only
    rw [DraftSubroutine.name_renumbered, DraftSubroutine.address_renumbered]
    split <;> rfl

end Assembly

/-- Lines with other numbers make the same program, or the same error with the other number. -/
theorem assemble_renumbered (lines : List Line) (base : Word) :
    assemble (lines.map (Line.renumbered ρ)) base =
      (assemble lines base).mapError (.renumbered ρ) := by
  have hrun := foldlM_relabel (Assembly.step_renumbered ρ) lines (Assembly.start base)
  rw [Assembly.start_renumbered] at hrun
  rw [← relabel_id, assemble, assemble, hrun]
  exact bind_relabel (Assembly.finish_renumbered ρ)

/-- The line of an error is one of the lines. -/
theorem line_mem_of_assemble {lines : List Line} {base : Word} {e : AssemblyError} {n : Nat}
    (h : assemble lines base = .error e) (hn : e.line? = some n) : n ∈ lines.map Line.number := by
  by_contra hmem
  -- Another number for this line alone would leave the lines as they are, but not the error.
  have same : lines.map (Line.renumbered fun m => if m = n then n + 1 else m) = lines := by
    refine (List.map_congr_left fun l hl => ?_).trans (List.map_id lines)
    have hne : l.number ≠ n := fun heq => hmem (List.mem_map.2 ⟨l, hl, heq⟩)
    rw [Line.renumbered, if_neg hne]
    rfl
  have hrenumbered := assemble_renumbered (fun m => if m = n then n + 1 else m) lines base
  rw [same, h] at hrenumbered
  have hline := congrArg AssemblyError.line? (Except.error.inj hrenumbered)
  rw [AssemblyError.line?_renumbered, hn, Option.map_some, if_pos rfl, Option.some_inj] at hline
  omega

theorem assembleText_of_ofSource {text : String} {lines : List Line}
    (h : Line.ofSource text = .ok lines) (base : Word) :
    assembleText text base = assemble lines base := by
  rw [assembleText, h]
  rfl

/-- **Formatting is invisible.** Where a text is formatted in another way, with lines among its
lines that hold nothing or a comment, the program is the same, or the error is the same with the new
number of its line. The number of a line at fault is that of a line of the text. -/
theorem assembleText_reformatted {text text' : String} {numbers : List Nat}
    (h : Reformats 0 (splitLines text.toList) (splitLines text'.toList) numbers) (base : Word) :
    assembleText text' base =
        (assembleText text base).mapError (.renumbered fun n => numbers.getD (n - 1) 0) ∧
      ∀ e n, assembleText text base = .error e → e.line? = some n →
        0 < n ∧ n ≤ numbers.length := by
  obtain ⟨lines, hlines, bounds, hlines'⟩ := ofSource_of_reformats h
  rw [assembleText_of_ofSource hlines, assembleText_of_ofSource hlines']
  refine ⟨assemble_renumbered _ lines base, fun e n he hn => ?_⟩
  obtain ⟨l, hl, rfl⟩ := List.mem_map.1 (line_mem_of_assemble he hn)
  exact bounds l hl

/-- The last line ends in a string that is not closed, so no comment behind it may hold a double
quote. -/
def unclosedText : String :=
  "main:\npsh -1;\"\npsh \"b;c"

/-- The same with other gaps and comments and with two more lines. -/
def unclosedTextReformatted : String :=
  "; \"\n main: ;\r\n\tpsh\t -1;\"\n \npsh  \"b\t;d\n"

theorem assembleText_reformatted_unclosed :
    Reformats 0 (splitLines unclosedText.toList) (splitLines unclosedTextReformatted.toList)
        [2, 3, 5] ∧
      assembleText unclosedText 0x0130 = .error (.unknownOperand 3 "\"b") ∧
      assembleText unclosedTextReformatted 0x0130 = .error (.unknownOperand 5 "\"b") := by
  have hlines : splitLines unclosedText.toList =
      ["main:".toList, "psh -1;\"".toList, "psh \"b;c".toList] := by
    decide +kernel
  have hlines' : splitLines unclosedTextReformatted.toList =
      ["; \"".toList, " main: ;".toList, "\tpsh\t -1;\"".toList, " ".toList,
        "psh  \"b\t;d".toList] := by
    decide +kernel
  have hmain : Tokenizes "main:".toList ["main:".toList] :=
    tokens?_eq_some_iff.1 (by decide +kernel)
  have hpush : Tokenizes "psh -1;\"".toList ["psh".toList, "-1".toList] :=
    tokens?_eq_some_iff.1 (by decide +kernel)
  have hunclosed : Tokenizes "psh \"b;c".toList ["psh".toList, "\"b".toList] :=
    tokens?_eq_some_iff.1 (by decide +kernel)
  have hreformats : Reformats 0 (splitLines unclosedText.toList)
      (splitLines unclosedTextReformatted.toList) [2, 3, 5] := by
    rw [hlines, hlines']
    refine .insert ?_ (.line hmain ?_ (.line hpush ?_ (.insert ?_ (.line hunclosed ?_ .nil))))
    · exact ⟨[], "; \"".toList, rfl, .nil (by decide), .inr ⟨_, rfl⟩, by simp⟩
    · refine ⟨" ".toList ++ "main:".toList ++ " ".toList, ";".toList, rfl, ?_, .inr ⟨_, rfl⟩, ?_⟩
      · exact .cons (by decide) (.nil (by decide)) (by simp)
      · exact fun _ => by decide
    · refine ⟨"\t".toList ++ "psh".toList ++ ("\t ".toList ++ "-1".toList ++ []), ";\"".toList, rfl,
        ?_, .inr ⟨_, rfl⟩, ?_⟩
      · refine .cons (by decide) (.cons (by decide) (.nil (by decide)) (by simp)) ?_
        exact fun _ => ⟨_, rfl, rfl⟩
      · rintro ⟨token, htoken, run, rfl, -⟩
        simp at htoken
    · exact ⟨" ".toList, [], rfl, .nil (by decide), .inl rfl, by simp⟩
    · refine ⟨[] ++ "psh".toList ++ ("  ".toList ++ "\"b".toList ++ "\t".toList), ";d".toList, rfl,
        ?_, .inr ⟨_, rfl⟩, ?_⟩
      · refine .cons (by decide) (.cons (by decide) (.nil (by decide)) (by simp)) ?_
        exact fun _ => ⟨_, rfl, rfl⟩
      · exact fun _ => by decide
  have herror : assembleText unclosedText 0x0130 = .error (.unknownOperand 3 "\"b") := by
    decide +kernel
  refine ⟨hreformats, herror, ?_⟩
  rw [(assembleText_reformatted hreformats 0x0130).1, herror]
  rfl

end WordMachine
