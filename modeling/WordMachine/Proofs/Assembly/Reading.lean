import WordMachine.Proofs.Assembly.Layout
import WordMachine.Proofs.Assembly.Text
import WordMachine.Proofs.Source.Operands

namespace WordMachine

open Sequence Source

/-!
# The state between two lines

The state that assembly carries is a function of the lines read so far: the cursor counts their
words, the symbol table holds the symbols that they declare, and the drafts are the subroutines that
they open. So whatever is decided by the state is decided by the lines above.

* `SymbolTable.lookup?` — one look-up for the three namespaces.
* `Assembly.Follows base above s` — `s` is the state behind the lines `above`.
* `Assembly.Follows.reads` — an accepted line leads from such a state to the next.
* `Assembly.follows_of_run` — so do all lines; `Assembly.exists_place_of_run_error` — and the first
  refused line of a text was met in such a state.
-/

/-! ### One look-up -/

namespace SymbolTable

/-- The address of a symbol. Scopes are numbered from zero, and subroutines counted from one. -/
def lookup? (t : SymbolTable) : Symbol → Option Word
  | .constant name => t.constant? name
  | .subroutine name => t.subroutine? name
  | .label 0 _ => none
  | .label (scope + 1) name => t.label? scope name

variable {t u : SymbolTable} {name : String} {address : Word} {scope : Nat}

theorem lookup?_insertConstant? (h : t.insertConstant? name address = some u) :
    t.lookup? (.constant name) = none ∧
      ∀ symbol, u.lookup? symbol =
        if .constant name = symbol then some address else t.lookup? symbol := by
  have hadd := constant?_insertConstant? h
  obtain ⟨free, rfl⟩ := insertConstant?_eq_some_iff.1 h
  constructor
  · rw [lookup?, constant?, List.lookup_eq_none_iff]
    intro b hb
    exact bne_iff_ne.2 (free b hb).1.symm
  · rintro (n | n | ⟨_ | k, n⟩)
    · rw [lookup?, hadd]
      simp only [Symbol.constant.injEq, eq_comm]
      rfl
    all_goals rfl

theorem lookup?_insertSubroutine? (h : t.insertSubroutine? name address = some (scope, u)) :
    t.lookup? (.subroutine name) = none ∧
      ∀ symbol, u.lookup? symbol =
        if .subroutine name = symbol then some address else t.lookup? symbol := by
  have hadd := subroutine?_insertSubroutine? h
  obtain ⟨free, -, rfl⟩ := insertSubroutine?_eq_some_iff.1 h
  refine ⟨free, ?_⟩
  rintro (n | n | ⟨_ | k, n⟩)
  · rfl
  · rw [lookup?, hadd]
    simp only [Symbol.subroutine.injEq, eq_comm]
    rfl
  · rfl
  · -- The new scope is empty.
    simp only [lookup?, label?, Array.getElem?_push]
    split
    · next hk =>
      rw [hk, Array.getElem?_eq_none (Nat.le_refl _)]
      rfl
    · rfl

theorem lookup?_insertLabel? (h : t.insertLabel? scope name address = some u) :
    t.lookup? (.label (scope + 1) name) = none ∧
      ∀ symbol, u.lookup? symbol =
        if .label (scope + 1) name = symbol then some address else t.lookup? symbol := by
  have hadd := label?_insertLabel? h
  obtain ⟨labels, hlabels, free, rfl⟩ := insertLabel?_eq_some_iff.1 h
  constructor
  · rw [lookup?, label?, hlabels]
    exact free
  · rintro (n | n | ⟨_ | k, n⟩)
    · rfl
    · rfl
    · rfl
    · rw [lookup?, hadd]
      simp only [Symbol.label.injEq, Nat.add_right_cancel_iff, eq_comm]
      rfl

/-- A table that still knows every symbol that another one knows. -/
def Extends (u t : SymbolTable) : Prop :=
  ∀ symbol a, t.lookup? symbol = some a → u.lookup? symbol = some a

/-- A declaration of a new symbol leaves the others alone. -/
theorem extends_of_lookup? {symbol : Symbol} (fresh : t.lookup? symbol = none)
    (add : ∀ other, u.lookup? other = if symbol = other then some address else t.lookup? other) :
    u.Extends t := by
  intro other a h
  have hne : symbol ≠ other := by
    rintro rfl
    rw [fresh] at h
    cases h
  rw [add, if_neg hne, h]

end SymbolTable

/-! ### Drafts -/

namespace Assembly

theorem draftToken_eq_ok_iff {t : SymbolTable} {line : Nat} {token : String} {o : DraftOperand} :
    draftToken t line token = .ok o ↔
      ∃ operand, Operand.ofChars? token.toList = some operand ∧
        draftOperand t line operand = .ok o := by
  rw [draftToken, bind_eq_ok_iff]
  simp only [Operand.parse_eq_ok_iff]

/-- What is known of an operand stays known. -/
theorem draftToken_of_extends {t u : SymbolTable} (h : u.Extends t) {line : Nat} {token : String}
    {o : DraftOperand} (ho : draftToken t line token = .ok o) : draftToken u line token = .ok o := by
  obtain ⟨operand, hchars, ho⟩ := draftToken_eq_ok_iff.1 ho
  refine draftToken_eq_ok_iff.2 ⟨operand, hchars, ?_⟩
  cases operand with
  | literal w => exact ho
  | register r => exact ho
  | label name => exact ho
  | constant name =>
    simp only [draftOperand] at ho ⊢
    split at ho
    · next a ha =>
      rw [show u.constant? name = some a from h (.constant name) a ha]
      exact ho
    · cases ho
  | subroutine name =>
    simp only [draftOperand] at ho ⊢
    split at ho
    · next a ha =>
      rw [show u.subroutine? name = some a from h (.subroutine name) a ha]
      exact ho
    · cases ho

theorem draftInstruction_of_extends {t u : SymbolTable} (h : u.Extends t) {line : Nat}
    {mnemonic : String} {tokens : List String} {d : DraftInstruction}
    (hd : draftInstruction t line mnemonic tokens = .ok d) :
    draftInstruction u line mnemonic tokens = .ok d := by
  obtain ⟨opcode, operands, hopcode, hcount, hoperands, rfl⟩ := draftInstruction_eq_ok_iff.1 hd
  exact draftInstruction_eq_ok_iff.2
    ⟨opcode, operands, hopcode, hcount, hoperands.imp fun _ _ => draftToken_of_extends h, rfl⟩

end Assembly

namespace Source.Place

/-- The words of the constant that a line declares, at their addresses. -/
def constants (base : Word) (q : Place) : List Constant :=
  match Statement.ofLine q.line with
  | .ok (.constant name value) =>
    Assembly.constantsOf name (q.address base) (q.line.valueWords value)
  | _ => []

/-- A line is an instruction, and this is what assembly makes of it with the symbols of a table. -/
def Drafts (t : SymbolTable) (q : Place) (d : DraftInstruction) : Prop :=
  ∃ mnemonic tokens, Statement.ofLine q.line = .ok (.instruction mnemonic tokens) ∧
    Assembly.draftInstruction t q.line.number mnemonic tokens = .ok d

theorem Drafts.of_extends {t u : SymbolTable} (h : u.Extends t) {q : Place} {d : DraftInstruction}
    (hd : q.Drafts t d) : q.Drafts u d := by
  obtain ⟨mnemonic, tokens, kind, hd⟩ := hd
  exact ⟨mnemonic, tokens, kind, Assembly.draftInstruction_of_extends h hd⟩

end Source.Place

/-- A constant takes words, since even an empty string has a zero at its end. -/
theorem Source.length_constantWords_pos {line : Nat} {token : String} {words : List Word}
    (h : constantWords line token = .ok words) : 0 < words.length := by
  simp only [constantWords] at h
  split at h
  · -- A string.
    cases h
    simp
  · split at h
    · -- A hexadecimal number.
      split at h
      · cases h
        exact Nat.one_pos
      · cases h
    · split at h
      · -- A decimal number.
        split at h
        · cases h
          exact Nat.one_pos
        · cases h
      · cases h

/-! ### The state behind some lines -/

namespace Assembly

/-- A state is what assembly makes of the lines above. -/
structure Follows (base : Word) (above : List Line) (s : Assembly) : Prop where
  cursor : s.cursor = base.toNat + wordCount above
  lookup : ∀ symbol, s.symbols.lookup? symbol = address? base above symbol
  /-- Constants take words, so their addresses lie behind the cursor. -/
  taken : ∀ b ∈ s.symbols.constants, b.2.toNat < s.cursor
  constants : s.constants.toList = (places above).flatMap (Place.constants base)
  scopes : s.symbols.scopes.size = (headNames above).length
  heads : s.drafts.reverse.map (fun d => (some d.name, d.address, d.scope)) =
    (heads above).map fun q => (q.line.headName?, q.address base, q.scope)
  bodies : ∀ d ∈ s.drafts,
    List.Forall₂ (Place.Drafts s.symbols) (body above (d.scope + 1)) d.instructions.reverse

variable {base : Word} {above : List Line} {s s' : Assembly} {line : Line}

theorem follows_start (base : Word) : (start base).Follows base [] where
  cursor := rfl
  lookup := by
    rintro (n | n | ⟨_ | k, n⟩)
    all_goals rfl
  taken := by simp [start, SymbolTable.empty]
  constants := rfl
  scopes := rfl
  heads := rfl
  bodies := by simp [start]

namespace Follows

/-- The next line stands where the cursor does. -/
theorem address_eq (h : s.Follows base above) (line : Line) :
    s.address = Place.address base ⟨above, line⟩ := by
  rw [address, h.cursor]
  rfl

/-- Subroutines are numbered in their order. -/
theorem map_scope_drafts (h : s.Follows base above) :
    s.drafts.reverse.map DraftSubroutine.scope = List.range (headNames above).length := by
  have hscopes := congrArg (List.map fun r => r.2.2) h.heads
  rw [List.map_map, List.map_map] at hscopes
  exact hscopes.trans (map_scope_heads above)

/-- The open subroutine has the last number. -/
theorem scope_of_drafts (h : s.Follows base above) {draft : DraftSubroutine}
    {rest : List DraftSubroutine} (inside : s.drafts = draft :: rest) :
    (headNames above).length = draft.scope + 1 ∧ ∀ d ∈ rest, d.scope < draft.scope := by
  have hscopes := h.map_scope_drafts
  rw [inside, List.reverse_cons, List.map_append] at hscopes
  have hlen := congrArg List.length hscopes
  simp only [List.length_append, List.length_map, List.length_reverse, List.length_range,
    List.length_singleton] at hlen
  rw [← hlen, List.range_succ] at hscopes
  obtain ⟨hrest, hdraft⟩ := List.append_inj' hscopes rfl
  have hscope : draft.scope = rest.length := (List.cons.inj hdraft).1
  refine ⟨by rw [hscope, hlen], ?_⟩
  intro d hd
  have hmem : d.scope ∈ rest.reverse.map DraftSubroutine.scope :=
    List.mem_map_of_mem (List.mem_reverse.2 hd)
  rw [hrest, List.mem_range] at hmem
  rw [hscope]
  exact hmem

/-- A declaration of a new symbol in the next line. -/
theorem lookup_concat (h : s.Follows base above) {symbol : Symbol} {symbols : SymbolTable}
    (declares : Place.symbol? ⟨above, line⟩ = some symbol)
    (fresh : s.symbols.lookup? symbol = none)
    (add : ∀ other, symbols.lookup? other =
      if symbol = other then some s.address else s.symbols.lookup? other) (other : Symbol) :
    symbols.lookup? other = address? base (above ++ [line]) other := by
  rw [address?_concat, declares, add, ← h.lookup, h.address_eq line]
  by_cases hother : symbol = other
  · subst hother
    simp [fresh]
  · simp [hother]

/-- A line that declares nothing. -/
theorem lookup_concat_of_none (h : s.Follows base above)
    (silent : Place.symbol? ⟨above, line⟩ = none) (other : Symbol) :
    s.symbols.lookup? other = address? base (above ++ [line]) other := by
  rw [address?_concat, silent, h.lookup]
  simp

/-- Only an instruction in the open subroutine adds to a body. -/
theorem body_concat_of_not (hline : line.isInstruction = false) (scope : Nat) :
    body (above ++ [line]) scope = body above scope := by
  rw [body_concat, hline, Bool.false_and, if_neg Bool.false_ne_true]

/-- More symbols leave the drafts as they are. -/
theorem bodies_of_extends (h : s.Follows base above) {symbols : SymbolTable}
    (more : symbols.Extends s.symbols) (hline : line.isInstruction = false) :
    ∀ d ∈ s.drafts,
      List.Forall₂ (Place.Drafts symbols) (body (above ++ [line]) (d.scope + 1))
        d.instructions.reverse := by
  intro d hd
  rw [body_concat_of_not hline]
  exact (h.bodies d hd).imp fun _ _ => Place.Drafts.of_extends more

theorem reads_constant (h : s.Follows base above) {name value : String} {words : List Word}
    {symbols : SymbolTable} (kind : Statement.ofLine line = .ok (.constant name value))
    (first : s.drafts = []) (spells : constantWords line.number value = .ok words)
    (fresh : s.symbols.insertConstant? name s.address = some symbols) :
    Follows base (above ++ [line]) { s with
      cursor := s.cursor + words.length
      symbols
      constants := s.constants ++ constantsOf name s.address words } := by
  obtain ⟨hnone, hadd⟩ := SymbolTable.lookup?_insertConstant? fresh
  have declares : Place.symbol? ⟨above, line⟩ = some (.constant name) :=
    Place.symbol?_constant kind
  have hwords : line.valueWords value = words := by
    rw [Line.valueWords, spells]
    rfl
  have hsize : line.size = words.length := by
    simp only [Line.size, kind, hwords]
  have hhead : line.headName? = none := by
    simp only [Line.headName?, kind]
  exact {
    cursor := by
      rw [wordCount_concat, hsize, ← Nat.add_assoc, ← h.cursor]
    lookup := h.lookup_concat declares hnone hadd
    taken := by
      obtain ⟨-, rfl⟩ := SymbolTable.insertConstant?_eq_some_iff.1 fresh
      have hpos := length_constantWords_pos spells
      refine List.forall_mem_cons.2 ⟨?_, ?_⟩
      · show (UInt16.ofNat s.cursor).toNat < s.cursor + words.length
        rw [UInt16.toNat_ofNat']
        omega
      · intro b hb
        exact Nat.lt_of_lt_of_le (h.taken b hb) (Nat.le_add_right _ _)
    constants := by
      rw [Array.toList_appendList, h.constants, places_concat, List.flatMap_append,
        List.flatMap_singleton, h.address_eq line]
      simp only [Place.constants, kind, hwords]
    scopes := by
      obtain ⟨-, rfl⟩ := SymbolTable.insertConstant?_eq_some_iff.1 fresh
      rw [headNames_concat, hhead, Option.toList_none, List.append_nil]
      exact h.scopes
    heads := by
      rw [heads_concat, hhead]
      exact h.heads
    bodies := by
      rw [first]
      simp }

/-- A line that takes no words and lays out no constant. -/
theorem constants_concat (h : s.Follows base above)
    (hline : Place.constants base ⟨above, line⟩ = []) :
    s.constants.toList = (places (above ++ [line])).flatMap (Place.constants base) := by
  rw [h.constants, places_concat, List.flatMap_append, List.flatMap_singleton, hline,
    List.append_nil]

theorem reads_subroutine (h : s.Follows base above) {name : String} {scope : Nat}
    {symbols : SymbolTable} (kind : Statement.ofLine line = .ok (.subroutine name))
    (fresh : s.symbols.insertSubroutine? name s.address = some (scope, symbols)) :
    Follows base (above ++ [line]) { s with
      symbols
      drafts := ⟨name, s.address, scope, []⟩ :: s.drafts } := by
  obtain ⟨hnone, hadd⟩ := SymbolTable.lookup?_insertSubroutine? fresh
  obtain ⟨-, hscope, htable⟩ := SymbolTable.insertSubroutine?_eq_some_iff.1 fresh
  have declares : Place.symbol? ⟨above, line⟩ = some (.subroutine name) :=
    Place.symbol?_subroutine kind
  have hsize : line.size = 0 := by
    simp only [Line.size, kind]
  have hhead : line.headName? = some name := by
    simp only [Line.headName?, kind]
  have hplain : line.isInstruction = false := by
    simp only [Line.isInstruction, kind]
  exact {
    cursor := by
      rw [wordCount_concat, hsize]
      exact h.cursor
    lookup := h.lookup_concat declares hnone hadd
    taken := by
      rw [htable]
      exact h.taken
    constants := h.constants_concat (by simp only [Place.constants, kind])
    scopes := by
      rw [headNames_concat, hhead, htable, Array.size_push, h.scopes, List.length_append]
      rfl
    heads := by
      rw [heads_concat, hhead, List.reverse_cons, List.map_append, h.heads, hscope, h.scopes,
        h.address_eq line, Option.isSome_some, if_pos rfl, List.map_append, List.map_singleton,
        List.map_singleton, hhead]
      rfl
    bodies := by
      refine List.forall_mem_cons.2
        ⟨?_, h.bodies_of_extends (SymbolTable.extends_of_lookup? hnone hadd) hplain⟩
      -- The new subroutine has no instructions yet.
      have hnew : (headNames above).length < scope + 1 := by
        rw [hscope, h.scopes]
        exact Nat.lt_succ_self _
      rw [body_concat_of_not hplain, body_eq_nil hnew]
      exact .nil }

theorem reads_label (h : s.Follows base above) {name : String} {draft : DraftSubroutine}
    {rest : List DraftSubroutine} {symbols : SymbolTable}
    (kind : Statement.ofLine line = .ok (.label name)) (inside : s.drafts = draft :: rest)
    (fresh : s.symbols.insertLabel? draft.scope name s.address = some symbols) :
    Follows base (above ++ [line]) { s with symbols } := by
  obtain ⟨hnone, hadd⟩ := SymbolTable.lookup?_insertLabel? fresh
  obtain ⟨labels, -, -, htable⟩ := SymbolTable.insertLabel?_eq_some_iff.1 fresh
  have declares : Place.symbol? ⟨above, line⟩ = some (.label (draft.scope + 1) name) := by
    rw [← (h.scope_of_drafts inside).1]
    exact Place.symbol?_label kind
  have hsize : line.size = 0 := by
    simp only [Line.size, kind]
  have hhead : line.headName? = none := by
    simp only [Line.headName?, kind]
  have hplain : line.isInstruction = false := by
    simp only [Line.isInstruction, kind]
  exact {
    cursor := by
      rw [wordCount_concat, hsize]
      exact h.cursor
    lookup := h.lookup_concat declares hnone hadd
    taken := by
      rw [htable]
      exact h.taken
    constants := h.constants_concat (by simp only [Place.constants, kind])
    scopes := by
      rw [headNames_concat, hhead, htable, Array.size_setIfInBounds, Option.toList_none,
        List.append_nil]
      exact h.scopes
    heads := by
      rw [heads_concat, hhead]
      exact h.heads
    bodies := h.bodies_of_extends (SymbolTable.extends_of_lookup? hnone hadd) hplain }

theorem reads_instruction (h : s.Follows base above) {mnemonic : String} {tokens : List String}
    {draft : DraftSubroutine} {rest : List DraftSubroutine} {d : DraftInstruction}
    (kind : Statement.ofLine line = .ok (.instruction mnemonic tokens))
    (inside : s.drafts = draft :: rest)
    (drafts : draftInstruction s.symbols line.number mnemonic tokens = .ok d) :
    Follows base (above ++ [line]) { s with
      cursor := s.cursor + d.instruction.size
      drafts := { draft with instructions := d :: draft.instructions } :: rest } := by
  have silent : Place.symbol? ⟨above, line⟩ = none := Place.symbol?_instruction kind
  have hsize : line.size = d.instruction.size := by
    obtain ⟨opcode, operands, hopcode, -, -, rfl⟩ := draftInstruction_eq_ok_iff.1 drafts
    simp only [Line.size, kind, hopcode, Option.elim_some]
    rfl
  have hhead : line.headName? = none := by
    simp only [Line.headName?, kind]
  have hinstruction : line.isInstruction = true := by
    simp only [Line.isInstruction, kind]
  obtain ⟨hopen, hclosed⟩ := h.scope_of_drafts inside
  have hbodies := h.bodies
  rw [inside, List.forall_mem_cons] at hbodies
  exact {
    cursor := by
      rw [wordCount_concat, hsize, ← Nat.add_assoc, ← h.cursor]
    lookup := h.lookup_concat_of_none silent
    taken := by
      intro b hb
      exact Nat.lt_of_lt_of_le (h.taken b hb) (Nat.le_add_right _ _)
    constants := h.constants_concat (by simp only [Place.constants, kind])
    scopes := by
      rw [headNames_concat, hhead, Option.toList_none, List.append_nil]
      exact h.scopes
    heads := by
      have hheads := h.heads
      rw [inside] at hheads
      rw [heads_concat, hhead, List.reverse_cons, List.map_append]
      rw [List.reverse_cons, List.map_append] at hheads
      exact hheads
    bodies := by
      refine List.forall_mem_cons.2 ⟨?_, ?_⟩
      · -- The open subroutine grows at its end.
        rw [body_concat, hinstruction, hopen, Bool.true_and, if_pos (beq_self_eq_true _),
          List.reverse_cons]
        exact List.rel_append hbodies.1 (.cons ⟨mnemonic, tokens, kind, drafts⟩ .nil)
      · intro e he
        -- The others are closed.
        have hne : ((headNames above).length == e.scope + 1) = false := by
          have hlt := hclosed e he
          rw [beq_eq_false_iff_ne]
          omega
        rw [body_concat, hne, Bool.and_false, if_neg Bool.false_ne_true]
        exact hbodies.2 e he }

/-- An accepted line leads to the state behind it. -/
theorem reads (hline : s.Reads line s') (h : s.Follows base above) :
    s'.Follows base (above ++ [line]) := by
  cases hline with
  | constant kind first spells room fresh => exact h.reads_constant kind first spells fresh
  | subroutine kind room fresh => exact h.reads_subroutine kind fresh
  | label kind inside room fresh => exact h.reads_label kind inside fresh
  | instruction kind inside drafts room => exact h.reads_instruction kind inside drafts

end Follows

/-- So do all lines of a text that is read through. -/
theorem follows_of_run {lines : List Line} (hrun : lines.foldlM step s = .ok s')
    (h : s.Follows base above) : s'.Follows base (above ++ lines) := by
  induction lines generalizing above s with
  | nil =>
    obtain rfl : s = s' := Except.ok.inj hrun
    rw [List.append_nil]
    exact h
  | cons l lines ih =>
    rw [List.foldlM_cons] at hrun
    obtain ⟨next, hnext, hrest⟩ := bind_eq_ok_iff.1 hrun
    have hend := ih hrest (h.reads (reads_of_step hnext))
    rw [List.append_assoc, List.singleton_append] at hend
    exact hend

/-- A text that is not read through has a line that is refused in such a state. -/
theorem exists_place_of_run_error {lines : List Line} {e : AssemblyError}
    (hrun : lines.foldlM step s = .error e) (h : s.Follows base above) :
    ∃ q ∈ placesFrom above lines, ∃ t : Assembly,
      t.Follows base q.above ∧ t.step q.line = .error e := by
  obtain ⟨before, line, below, t, rfl, hbefore, hline⟩ := foldlM_eq_error_iff.1 hrun
  exact ⟨⟨above ++ before, line⟩, mem_placesFrom.2 ⟨before, below, rfl, rfl⟩, t,
    follows_of_run hbefore h, hline⟩

end Assembly

end WordMachine
