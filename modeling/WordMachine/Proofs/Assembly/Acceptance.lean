import WordMachine.Proofs.Assembly.Refusal
import WordMachine.Proofs.Assembly.Spelling

namespace WordMachine

open Sequence Source

/-!
# Which texts assemble

Assembly stops at the first line it cannot accept, and labels are looked for in the end. What it
accepts can be said of the text alone, line by line: `WellFormed` asks of each line what its kind
needs where it stands, that no symbol is declared twice, and that the last subroutine is `main`.

The three namespaces differ in what a reference sees. All constants stand above all instructions, so
any declared one is seen; a subroutine is seen from its head on; and a label in all of its
subroutine.

* `Source.Place.Allowed` — what a line needs where it stands.
* `Source.WellFormed` — what a text needs.
* `Assembly.Follows.allowed_of_reads` and `Assembly.Follows.reads_of_allowed` — one line is accepted
  if it is allowed and declares nothing again.
* `Assembly.exists_run_iff` — and so are all lines.
* `assemble_eq_ok_iff` — what is assembled, and from which texts.
* `assemble_ok_iff_wellFormed` — a text is assembled exactly if it is well formed, and a constant is
  refused as declared already for no other reason than its name.
-/

/-! ### Well-formed texts -/

namespace Source

namespace Place

/-- What a line needs where it stands, if `Known` holds of the operands that have a meaning. The words
of a constant or an instruction may end at `haltAddress`, but a head or a label must stand below
it. -/
inductive Allowed (base : Word) (Known : Operand → Prop) (q : Place) : Prop where
  | constant {name value : String} {words : List Word}
      (kind : Statement.ofLine q.line = .ok (.constant name value)) (first : q.scope = 0)
      (spells : constantWords q.line.number value = .ok words)
      (room : q.start base + words.length ≤ haltAddress.toNat)
  | subroutine {name : String} (kind : Statement.ofLine q.line = .ok (.subroutine name))
      (room : q.start base < haltAddress.toNat)
  | label {name : String} (kind : Statement.ofLine q.line = .ok (.label name))
      (inside : 0 < q.scope) (room : q.start base < haltAddress.toNat)
  | instruction {mnemonic : String} {tokens : List String} {opcode : Opcode}
      (kind : Statement.ofLine q.line = .ok (.instruction mnemonic tokens)) (inside : 0 < q.scope)
      (known : Opcode.ofMnemonic? mnemonic = some opcode)
      (count : tokens.length = opcode.operandCount)
      (operands : ∀ token ∈ tokens, ∃ operand,
        Operand.ofChars? token.toList = some operand ∧ Known operand)
      (room : q.start base + opcode.size ≤ haltAddress.toNat)

/-- Of a place, only its line, its address and its subroutine matter, and a lower address does no
harm. -/
theorem Allowed.of_le {base base' : Word} {Known Known' : Operand → Prop} {q r : Place}
    (h : q.Allowed base Known) (line : r.line = q.line) (start : r.start base' ≤ q.start base)
    (scope : r.scope = q.scope) (known : ∀ operand, Known operand → Known' operand) :
    r.Allowed base' Known' := by
  cases h with
  | constant kind first spells room =>
    rw [← line] at kind spells
    rw [← scope] at first
    exact .constant kind first spells (Nat.le_trans (Nat.add_le_add_right start _) room)
  | subroutine kind room =>
    rw [← line] at kind
    exact .subroutine kind (Nat.lt_of_le_of_lt start room)
  | label kind inside room =>
    rw [← line] at kind
    rw [← scope] at inside
    exact .label kind inside (Nat.lt_of_le_of_lt start room)
  | instruction kind inside opcode count operands room =>
    rw [← line] at kind
    rw [← scope] at inside
    refine .instruction kind inside opcode count ?_
      (Nat.le_trans (Nat.add_le_add_right start _) room)
    intro token htoken
    obtain ⟨operand, hchars, hknown⟩ := operands token htoken
    exact ⟨operand, hchars, known operand hknown⟩

/-- Whether an operand has a meaning in a text: the symbol that it names is declared, a subroutine
above, a constant anywhere, and a label anywhere in the same subroutine. -/
def Knows (text : List Line) (q : Place) : Operand → Prop
  | .constant name => .constant name ∈ symbols text
  | .subroutine name => .subroutine name ∈ symbols q.above
  | .label name => .label q.scope name ∈ symbols text
  | .literal _ | .register _ => True

/-- Whether an operand has a meaning as far as the lines above tell, where labels are not looked
for yet. -/
def Sees (q : Place) : Operand → Prop
  | .constant name => .constant name ∈ symbols q.above
  | .subroutine name => .subroutine name ∈ symbols q.above
  | .label _ | .literal _ | .register _ => True

/-- What a line declares is not declared above. -/
def Fresh (q : Place) : Prop :=
  ∀ symbol, q.symbol? = some symbol → symbol ∉ symbols q.above

theorem fresh_iff {q : Place} {symbol : Symbol} (declares : q.symbol? = some symbol) :
    q.Fresh ↔ symbol ∉ symbols q.above := by
  simp [Fresh, declares]

end Place

/-- What a text needs to have a program: every line is allowed where it stands, no name is declared
twice in its namespace and scope, and there is a last subroutine and it is named `main`. -/
structure WellFormed (base : Word) (text : List Line) : Prop where
  allowed : ∀ q ∈ places text, q.Allowed base (q.Knows text)
  distinct : (symbols text).Nodup
  main : (headNames text).getLast? = some mainName

/-- No symbol is declared twice exactly if none is declared again. -/
theorem nodup_symbols_iff {text : List Line} :
    (symbols text).Nodup ↔ ∀ q ∈ places text, q.Fresh := by
  induction text using List.reverseRecOn with
  | nil => simp [symbols, places, placesFrom]
  | append_singleton text l ih =>
    rw [symbols_concat, places_concat, List.forall_mem_append, ← ih, List.forall_mem_singleton,
      Place.Fresh]
    cases Place.symbol? ⟨text, l⟩ with
    | none => simp
    | some symbol =>
      rw [Option.toList_some, List.nodup_append']
      simp

end Source

/-! ### One line -/

namespace Assembly.Follows

variable {base : Word} {above : List Line} {s s' : Assembly} {line : Line} {name : String}
  (h : s.Follows base above)

include h

theorem lookup?_eq_none_iff (symbol : Symbol) :
    s.symbols.lookup? symbol = none ↔ symbol ∉ Source.symbols above := by
  rw [h.lookup, address?_eq_none_iff]

theorem length_drafts : s.drafts.length = (headNames above).length := by
  have hlen := congrArg List.length h.map_scope_drafts
  rw [List.length_map, List.length_reverse, List.length_range] at hlen
  exact hlen

/-- The address of a new constant is free, since the constants above end before it. So a constant is
refused for its name alone. -/
theorem insertConstant?_eq_none_iff {n : Nat} (room : s.HasRoom n) :
    s.symbols.insertConstant? name s.address = none ↔
      Symbol.constant name ∈ Source.symbols above := by
  have hcursor : s.cursor < 65535 := room.1
  have haddress : s.address.toNat = s.cursor := by
    rw [address, UInt16.toNat_ofNat']
    omega
  have free : ∀ b ∈ s.symbols.constants, b.2 ≠ s.address := by
    intro b hb heq
    have htaken := h.taken b hb
    rw [heq, haddress] at htaken
    exact Nat.lt_irrefl _ htaken
  rw [SymbolTable.insertConstant?_eq_none_iff, ← not_iff_not, ← h.lookup?_eq_none_iff,
    SymbolTable.lookup?, SymbolTable.constant?, List.lookup_eq_none_iff]
  refine ⟨?_, ?_⟩
  · intro hnone b hb
    rw [bne_iff_ne]
    rintro rfl
    exact hnone ⟨b, hb, .inl rfl⟩
  · rintro hnone ⟨b, hb, rfl | heq⟩
    · exact bne_iff_ne.1 (hnone b hb) rfl
    · exact free b hb heq

theorem insertSubroutine?_eq_none_iff :
    s.symbols.insertSubroutine? name s.address = none ↔
      Symbol.subroutine name ∈ Source.symbols above := by
  rw [SymbolTable.insertSubroutine?_eq_none_iff, ← not_iff_not, ← h.lookup?_eq_none_iff, not_not]
  rfl

theorem insertLabel?_eq_none_iff {draft : DraftSubroutine} {rest : List DraftSubroutine}
    (inside : s.drafts = draft :: rest) :
    s.symbols.insertLabel? draft.scope name s.address = none ↔
      Symbol.label (headNames above).length name ∈ Source.symbols above := by
  have hscope := (h.scope_of_drafts inside).1
  -- The open subroutine has a scope in the table.
  have hlt : draft.scope < s.symbols.scopes.size := by
    rw [h.scopes, hscope]
    exact Nat.lt_succ_self _
  rw [SymbolTable.insertLabel?_eq_none_iff hlt, ← not_iff_not, ← h.lookup?_eq_none_iff, not_not,
    hscope]
  rfl

/-- An operand is drafted if the lines above declare what it needs. -/
theorem exists_draftOperand_iff {n : Nat} {operand : Operand} :
    (∃ o, draftOperand s.symbols n operand = .ok o) ↔ Place.Sees ⟨above, line⟩ operand := by
  cases operand with
  | literal w => simp [draftOperand, Place.Sees]
  | register r => simp [draftOperand, Place.Sees]
  | label name => simp [draftOperand, Place.Sees]
  | constant name =>
    rw [Place.Sees, ← exists_address?_iff base, ← h.lookup, SymbolTable.lookup?,
      draftOperand]
    cases s.symbols.constant? name <;> simp
  | subroutine name =>
    rw [Place.Sees, ← exists_address?_iff base, ← h.lookup, SymbolTable.lookup?,
      draftOperand]
    cases s.symbols.subroutine? name <;> simp

/-- The operands of an instruction are drafted if each of them is. -/
theorem exists_draftInstruction_iff {n : Nat} {mnemonic : String} {tokens : List String}
    {size : Nat} :
    (∃ d, draftInstruction s.symbols n mnemonic tokens = .ok d ∧ d.instruction.size = size) ↔
      ∃ opcode, Opcode.ofMnemonic? mnemonic = some opcode ∧
        tokens.length = opcode.operandCount ∧
        (∀ token ∈ tokens, ∃ operand, Operand.ofChars? token.toList = some operand ∧
          Place.Sees ⟨above, line⟩ operand) ∧ opcode.size = size := by
  have each : ∀ token, (∃ o, draftToken s.symbols n token = .ok o) ↔
      ∃ operand, Operand.ofChars? token.toList = some operand ∧
        Place.Sees ⟨above, line⟩ operand := by
    intro token
    simp only [draftToken_eq_ok_iff, ← h.exists_draftOperand_iff (n := n)]
    refine ⟨?_, ?_⟩
    · rintro ⟨o, operand, hchars, ho⟩
      exact ⟨operand, hchars, o, ho⟩
    · rintro ⟨operand, hchars, o, ho⟩
      exact ⟨o, operand, hchars, ho⟩
  simp only [draftInstruction_eq_ok_iff, ← each, ← exists_forall₂_iff]
  refine ⟨?_, ?_⟩
  · rintro ⟨_, ⟨opcode, operands, hopcode, hcount, hoperands, rfl⟩, hsize⟩
    exact ⟨opcode, hopcode, hcount, ⟨operands, hoperands⟩, hsize⟩
  · rintro ⟨opcode, hopcode, hcount, ⟨operands, hoperands⟩, hsize⟩
    exact ⟨_, ⟨opcode, operands, hopcode, hcount, hoperands, rfl⟩, hsize⟩

theorem start_eq (line : Line) : Place.start base ⟨above, line⟩ = s.cursor :=
  h.cursor.symm

theorem scope_eq (line : Line) : Place.scope ⟨above, line⟩ = s.drafts.length :=
  h.length_drafts.symm

/-- An accepted line is allowed where it stands and declares nothing again. -/
theorem allowed_of_reads (hline : s.Reads line s') :
    Place.Allowed base (Place.Sees ⟨above, line⟩) ⟨above, line⟩ ∧ Place.Fresh ⟨above, line⟩ := by
  cases hline with
  | constant kind first spells room fresh =>
    refine ⟨.constant kind ?_ spells ?_, ?_⟩
    · rw [h.scope_eq, first]
      rfl
    · rw [h.start_eq]
      exact room.2
    · rw [Place.fresh_iff (Place.symbol?_constant kind), ← h.insertConstant?_eq_none_iff room, fresh]
      simp
  | subroutine kind room fresh =>
    refine ⟨.subroutine kind ?_, ?_⟩
    · rw [h.start_eq]
      exact room.1
    · rw [Place.fresh_iff (Place.symbol?_subroutine kind), ← h.insertSubroutine?_eq_none_iff, fresh]
      simp
  | label kind inside room fresh =>
    refine ⟨.label kind ?_ ?_, ?_⟩
    · rw [h.scope_eq, inside]
      exact Nat.succ_pos _
    · rw [h.start_eq]
      exact room.1
    · rw [Place.fresh_iff (Place.symbol?_label kind), Place.scope,
        ← h.insertLabel?_eq_none_iff inside, fresh]
      simp
  | instruction kind inside drafts room =>
    obtain ⟨opcode, known, count, operands, hsize⟩ :=
      h.exists_draftInstruction_iff.1 ⟨_, drafts, rfl⟩
    refine ⟨.instruction kind ?_ known count operands ?_, ?_⟩
    · rw [h.scope_eq, inside]
      exact Nat.succ_pos _
    · rw [h.start_eq, hsize]
      exact room.2
    · intro symbol hsymbol
      rw [Place.symbol?_instruction kind] at hsymbol
      cases hsymbol

/-- Such a line is accepted. -/
theorem reads_of_allowed
    (hallowed : Place.Allowed base (Place.Sees ⟨above, line⟩) ⟨above, line⟩)
    (hfresh : Place.Fresh ⟨above, line⟩) : ∃ s', s.Reads line s' := by
  cases hallowed with
  | @constant name value words kind first spells room =>
    rw [h.scope_eq, List.length_eq_zero_iff] at first
    rw [h.start_eq] at room
    have hpos := length_constantWords_pos spells
    have room : s.HasRoom words.length := ⟨by omega, room⟩
    rw [Place.fresh_iff (Place.symbol?_constant kind), ← h.insertConstant?_eq_none_iff room,
      ← ne_eq, Option.ne_none_iff_exists'] at hfresh
    obtain ⟨symbols, fresh⟩ := hfresh
    exact ⟨_, .constant kind first spells room fresh⟩
  | @subroutine name kind room =>
    rw [h.start_eq] at room
    have room : s.HasRoom 0 := ⟨room, Nat.le_of_lt room⟩
    rw [Place.fresh_iff (Place.symbol?_subroutine kind), ← h.insertSubroutine?_eq_none_iff,
      ← ne_eq, Option.ne_none_iff_exists'] at hfresh
    obtain ⟨⟨scope, symbols⟩, fresh⟩ := hfresh
    exact ⟨_, .subroutine kind room fresh⟩
  | @label name kind inside room =>
    rw [h.scope_eq] at inside
    obtain ⟨draft, rest, inside⟩ := List.exists_cons_of_length_pos inside
    rw [h.start_eq] at room
    have room : s.HasRoom 0 := ⟨room, Nat.le_of_lt room⟩
    rw [Place.fresh_iff (Place.symbol?_label kind), Place.scope,
      ← h.insertLabel?_eq_none_iff inside, ← ne_eq, Option.ne_none_iff_exists'] at hfresh
    obtain ⟨symbols, fresh⟩ := hfresh
    exact ⟨_, .label kind inside room fresh⟩
  | @instruction mnemonic tokens opcode kind inside known count operands room =>
    rw [h.scope_eq] at inside
    obtain ⟨draft, rest, inside⟩ := List.exists_cons_of_length_pos inside
    obtain ⟨d, drafts, hsize⟩ :=
      (h.exists_draftInstruction_iff (n := line.number)).2 ⟨opcode, known, count, operands, rfl⟩
    rw [h.start_eq] at room
    have hpos := opcode.one_le_size
    have room : s.HasRoom d.instruction.size := ⟨by omega, by rw [hsize]; exact room⟩
    exact ⟨_, .instruction kind inside drafts room⟩

end Assembly.Follows

/-! ### All lines -/

/-- Lines are read through if each of them is allowed where it stands and declares nothing again. -/
theorem Assembly.exists_run_iff {base : Word} {above lines : List Line} {s : Assembly}
    (h : s.Follows base above) :
    (∃ s', lines.foldlM step s = .ok s') ↔
      ∀ q ∈ placesFrom above lines, q.Allowed base q.Sees ∧ q.Fresh := by
  induction lines generalizing above s with
  | nil => simp [placesFrom, pure, Except.pure]
  | cons l lines ih =>
    rw [List.foldlM_cons, placesFrom, List.forall_mem_cons]
    refine ⟨?_, ?_⟩
    · rintro ⟨s', hrun⟩
      obtain ⟨next, hnext, hrest⟩ := bind_eq_ok_iff.1 hrun
      have hline := reads_of_step hnext
      exact ⟨h.allowed_of_reads hline, (ih (h.reads hline)).1 ⟨s', hrest⟩⟩
    · rintro ⟨⟨hallowed, hfresh⟩, hlines⟩
      obtain ⟨next, hline⟩ := h.reads_of_allowed hallowed hfresh
      obtain ⟨s', hrest⟩ := (ih (h.reads hline)).2 hlines
      exact ⟨s', bind_eq_ok_iff.2 ⟨next, step_of_reads hline, hrest⟩⟩

/-- **What is assembled.** A program is assembled from a text if every line is allowed where it
stands, no symbol is declared twice, and the text spells the program. -/
theorem assemble_eq_ok_iff {text : List Line} {base : Word} {p : Program} :
    assemble text base = .ok p ↔
      (∀ q ∈ places text, q.Allowed base q.Sees) ∧ (symbols text).Nodup ∧ Spells base text p := by
  have run : (∃ s, text.foldlM Assembly.step (Assembly.start base) = .ok s) ↔
      ∀ q ∈ places text, q.Allowed base q.Sees ∧ q.Fresh :=
    Assembly.exists_run_iff (Assembly.follows_start base)
  have hall : (∀ q ∈ places text, q.Allowed base q.Sees ∧ q.Fresh) ↔
      (∀ q ∈ places text, q.Allowed base q.Sees) ∧ (symbols text).Nodup := by
    rw [nodup_symbols_iff, ← forall₂_and]
  rw [assemble, bind_eq_ok_iff, ← and_assoc, ← hall, ← run]
  refine ⟨?_, ?_⟩
  · rintro ⟨s, hrun, hfinish⟩
    have hend := Assembly.follows_of_run hrun (Assembly.follows_start base)
    exact ⟨⟨s, hrun⟩, hend.finish_eq_ok_iff.1 hfinish⟩
  · rintro ⟨⟨s, hrun⟩, hspells⟩
    have hend := Assembly.follows_of_run hrun (Assembly.follows_start base)
    exact ⟨s, hrun, hend.finish_eq_ok_iff.2 hspells⟩

/-! ### What lines see -/

namespace Source

section Seen

variable {base : Word} {text : List Line} {q : Place}

/-- Constants stand above the first head, so any line in a subroutine stands below all of them. -/
theorem constant_mem_symbols_above {Known : Place → Operand → Prop}
    (allowed : ∀ r ∈ places text, r.Allowed base (Known r)) (hq : q ∈ places text)
    (inside : 0 < q.scope) {name : String} (h : .constant name ∈ symbols text) :
    .constant name ∈ symbols q.above := by
  obtain ⟨r, hr, hsymbol⟩ := List.mem_filterMap.1 h
  have outside : r.scope = 0 := by
    cases allowed r hr with
    | constant kind first spells room => exact first
    | subroutine kind room => simp [Place.symbol?_subroutine kind] at hsymbol
    | label kind inside room => simp [Place.symbol?_label kind] at hsymbol
    | instruction kind inside known count operands room =>
      simp [Place.symbol?_instruction kind] at hsymbol
  rcases mem_places_above_or hq hr with habove | ⟨lines, hbelow⟩
  · exact List.mem_filterMap.2 ⟨r, habove, hsymbol⟩
  · -- Else there would be a head above the constant.
    have hle : q.scope ≤ r.scope := by
      rw [Place.scope, Place.scope, hbelow]
      exact length_headNames_le q.above lines
    omega

/-- An operand has a meaning if it can be drafted and has a value in the end. -/
theorem Place.knows_iff (base : Word) {operand : Operand} (hq : q ∈ places text)
    (above : ∀ name, .constant name ∈ symbols text → .constant name ∈ symbols q.above) :
    q.Knows text operand ↔
      q.Sees operand ∧ ∃ w, q.operandValue? base text operand = some w := by
  obtain ⟨below, rfl⟩ := mem_places.1 hq
  cases operand with
  | literal w => simp [Place.Knows, Place.Sees, Place.operandValue?]
  | register r => simp [Place.Knows, Place.Sees, Place.operandValue?]
  | constant name =>
    simp only [Place.Knows, Place.Sees, Place.operandValue?, exists_address?_iff]
    exact ⟨fun h => ⟨above name h, h⟩, fun h => h.2⟩
  | subroutine name =>
    simp only [Place.Knows, Place.Sees, Place.operandValue?, exists_address?_iff]
    exact ⟨fun h => ⟨h, mem_symbols_append h _⟩, fun h => h.1⟩
  | label name =>
    simp only [Place.Knows, Place.Sees, Place.operandValue?, exists_address?_iff, true_and]

/-- A line spells an instruction if all of its operands have values. -/
theorem Place.exists_spells_iff {opcode : Opcode} {tokens : List String}
    (kind : Statement.ofLine q.line = .ok (.instruction opcode.mnemonic tokens)) :
    (∃ i, q.Spells base text i) ↔ ∀ token ∈ tokens, ∃ w, q.value? base text token = some w := by
  rw [← exists_forall₂_iff]
  refine ⟨?_, ?_⟩
  · rintro ⟨i, tokens', hkind, hws⟩
    rw [kind, Except.ok.injEq, Statement.instruction.injEq] at hkind
    obtain ⟨-, rfl⟩ := hkind
    exact ⟨_, hws⟩
  · rintro ⟨ws, hws⟩
    exact ⟨⟨opcode, ws⟩, tokens, kind, hws⟩

/-- A line is allowed in the text if it is by what the lines above tell, and if it is an instruction
spells one. -/
theorem Place.allowed_knows_iff (hq : q ∈ places text)
    (above : 0 < q.scope → ∀ name,
      .constant name ∈ symbols text → .constant name ∈ symbols q.above) :
    q.Allowed base (q.Knows text) ↔
      q.Allowed base q.Sees ∧ (q.line.isInstruction = true → ∃ i, q.Spells base text i) := by
  refine ⟨?_, ?_⟩
  · intro h
    cases h with
    | constant kind first spells room =>
      exact ⟨.constant kind first spells room, by simp [Line.isInstruction, kind]⟩
    | subroutine kind room => exact ⟨.subroutine kind room, by simp [Line.isInstruction, kind]⟩
    | label kind inside room => exact ⟨.label kind inside room, by simp [Line.isInstruction, kind]⟩
    | @instruction mnemonic tokens opcode kind inside known count operands room =>
      simp only [Place.knows_iff base hq (above inside)] at operands
      refine ⟨.instruction kind inside known count ?_ room, ?_⟩
      · intro token htoken
        obtain ⟨operand, hchars, hsees, -⟩ := operands token htoken
        exact ⟨operand, hchars, hsees⟩
      · intro _
        rw [← Opcode.ofMnemonic?_eq_some_iff.1 known] at kind
        rw [Place.exists_spells_iff kind]
        intro token htoken
        obtain ⟨operand, hchars, -, w, hw⟩ := operands token htoken
        exact ⟨w, by rw [Place.value?, hchars, Option.bind_some, hw]⟩
  · rintro ⟨h, hspells⟩
    cases h with
    | constant kind first spells room => exact .constant kind first spells room
    | subroutine kind room => exact .subroutine kind room
    | label kind inside room => exact .label kind inside room
    | @instruction mnemonic tokens opcode kind inside known count operands room =>
      have hvalues := hspells (by simp only [Line.isInstruction, kind])
      obtain rfl := Opcode.ofMnemonic?_eq_some_iff.1 known
      rw [Place.exists_spells_iff kind] at hvalues
      refine .instruction kind inside known count ?_ room
      intro token htoken
      obtain ⟨operand, hchars, hsees⟩ := operands token htoken
      obtain ⟨w, hw⟩ := hvalues token htoken
      rw [Place.value?, hchars, Option.bind_some] at hw
      exact ⟨operand, hchars, (Place.knows_iff base hq (above inside)).2 ⟨hsees, w, hw⟩⟩

/-- A text spells a program if each of its instructions has one and its last subroutine is
`main`. -/
theorem exists_spells_iff (inside : ∀ q ∈ places text, q.line.isInstruction = true → 0 < q.scope) :
    (∃ p, Spells base text p) ↔
      (∀ q ∈ places text, q.line.isInstruction = true → ∃ i, q.Spells base text i) ∧
        (headNames text).getLast? = some mainName := by
  -- The names of the subroutines are those of the heads.
  have names : ∀ ss : List Subroutine, List.Forall₂ (Place.Opens base text) (heads text) ss →
      ss.getLast?.map Subroutine.name? = (headNames text).getLast?.map some := by
    intro ss hopens
    rw [← List.getLast?_map, ← List.getLast?_map, ← map_headName?_heads,
      map_eq_of_forall₂ (fun _ _ ht => ht.name?_eq) hopens]
  refine ⟨?_, ?_⟩
  · rintro ⟨p, hspells⟩
    refine ⟨?_, ?_⟩
    · intro q hq hline
      -- The subroutine around an instruction has a head.
      have hpos := inside q hq hline
      have hle := scope_le hq
      have hopen : q.scope - 1 < (headNames text).length := by omega
      obtain ⟨r, hr, hscope⟩ := exists_mem_heads hopen
      obtain ⟨t, ht⟩ := exists_forall₂_iff.1 ⟨_, hspells.subroutines⟩ r hr
      refine exists_forall₂_iff.1 ⟨_, ht.instructions⟩ q ?_
      exact mem_body.2 ⟨hq, hline, by omega⟩
    · obtain ⟨last, hlast, hname, -⟩ := hspells.main
      have hnames := names _ hspells.subroutines
      rw [show p.subroutines.getLast? = some last from hlast, Option.map_some, hname] at hnames
      obtain ⟨name, hget, heq⟩ := Option.map_eq_some_iff.1 hnames.symm
      rw [hget, Option.some.inj heq]
  · rintro ⟨hinstructions, hmain⟩
    have hopens : ∃ ss, List.Forall₂ (Place.Opens base text) (heads text) ss := by
      rw [exists_forall₂_iff]
      intro q hq
      obtain ⟨is, his⟩ := exists_forall₂_iff.2 fun r (hr : r ∈ body text (q.scope + 1)) =>
        hinstructions r (mem_body.1 hr).1 (mem_body.1 hr).2.1
      exact ⟨⟨q.line.headName?, q.address base, is⟩, rfl, rfl, his⟩
    obtain ⟨ss, hss⟩ := hopens
    have hnames := names ss hss
    rw [hmain, Option.map_some] at hnames
    obtain ⟨last, hlast, hname⟩ := Option.map_eq_some_iff.1 hnames
    exact ⟨⟨_, ss, last.address⟩, rfl, hss, last, hlast, hname, rfl⟩

/-- An instruction that is allowed stands in a subroutine. -/
theorem Place.Allowed.inside {Known : Operand → Prop} (h : q.Allowed base Known)
    (hline : q.line.isInstruction = true) : 0 < q.scope := by
  cases h with
  | constant kind first spells room => simp [Line.isInstruction, kind] at hline
  | subroutine kind room => simp [Line.isInstruction, kind] at hline
  | label kind inside room => exact inside
  | instruction kind inside known count operands room => exact inside

/-- A text is well formed if all lines are accepted and it spells a program. -/
theorem wellFormed_iff :
    WellFormed base text ↔
      (∀ q ∈ places text, q.Allowed base q.Sees) ∧ (symbols text).Nodup ∧
        ∃ p, Spells base text p := by
  refine ⟨?_, ?_⟩
  · rintro ⟨allowed, distinct, main⟩
    have hlines : ∀ q ∈ places text, q.Allowed base q.Sees ∧
        (q.line.isInstruction = true → ∃ i, q.Spells base text i) := fun q hq =>
      (Place.allowed_knows_iff hq fun inside _ => constant_mem_symbols_above allowed hq inside).1
        (allowed q hq)
    refine ⟨fun q hq => (hlines q hq).1, distinct, ?_⟩
    rw [exists_spells_iff fun q hq => (allowed q hq).inside]
    exact ⟨fun q hq => (hlines q hq).2, main⟩
  · rintro ⟨allowed, distinct, hspells⟩
    rw [exists_spells_iff fun q hq => (allowed q hq).inside] at hspells
    refine ⟨?_, distinct, hspells.2⟩
    intro q hq
    rw [Place.allowed_knows_iff hq fun inside _ => constant_mem_symbols_above allowed hq inside]
    exact ⟨allowed q hq, hspells.1 q hq⟩

end Seen

end Source

section Assembled

variable {text : List Line} {base : Word}

/-- A text is assembled exactly if it is well formed. -/
theorem exists_assemble_iff : (∃ p, assemble text base = .ok p) ↔ WellFormed base text := by
  rw [wellFormed_iff]
  simp only [assemble_eq_ok_iff, exists_and_left]

/-- A constant is found declared only where one of its name stands above. -/
theorem duplicateConstant_of_assemble {n : Nat} {name : String}
    (h : assemble text base = .error (.duplicateConstant n name)) :
    ∃ q ∈ places text, q.line.number = n ∧ q.symbol? = some (.constant name) ∧
      .constant name ∈ symbols q.above := by
  rcases bind_eq_error_iff.1 h with hrun | ⟨s, -, hfinish⟩
  · obtain ⟨q, hq, t, hfollows, hstep⟩ :=
      Assembly.exists_place_of_run_error hrun (Assembly.follows_start base)
    refine ⟨q, hq, ?_⟩
    cases Assembly.refuses_of_step hstep with
    | malformed fault => cases fault
    | duplicateConstant kind room taken =>
      refine ⟨rfl, ?_, (hfollows.insertConstant?_eq_none_iff room).1 taken⟩
      exact Place.symbol?_constant kind
  · -- In the end only a label or `main` may be missing.
    rcases Assembly.finish_eq_error hfinish with ⟨_, _, heq⟩ | heq | ⟨_, heq⟩
    · cases heq
    · cases heq
    · cases heq

/-- **Acceptance.** A text is assembled exactly if it is well formed, and a constant is reported as
declared twice only if one of the same name stands above it, whatever the addresses are. -/
theorem assemble_ok_iff_wellFormed (text : List Line) (base : Word) :
    ((∃ p, assemble text base = .ok p) ↔ WellFormed base text) ∧
      ∀ n name, assemble text base = .error (.duplicateConstant n name) →
        ∃ q ∈ places text, q.line.number = n ∧ q.symbol? = some (.constant name) ∧
          .constant name ∈ symbols q.above :=
  ⟨exists_assemble_iff, fun _ _ => duplicateConstant_of_assemble⟩

/-- A constant declared again in the third line. -/
theorem assemble_ok_iff_wellFormed_repeated :
    ∃ q ∈ places [⟨1, ["k", "=", "1"]⟩, ⟨2, ["j", "=", "1"]⟩, ⟨3, ["k", "=", "2"]⟩],
      q.line.number = 3 ∧ q.symbol? = some (.constant "k") ∧ .constant "k" ∈ symbols q.above :=
  (assemble_ok_iff_wellFormed _ 0).2 3 "k" (by decide +kernel)

end Assembled

end WordMachine
