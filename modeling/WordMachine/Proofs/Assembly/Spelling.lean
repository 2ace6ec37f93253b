import WordMachine.Proofs.Assembly.Reading

namespace WordMachine

open Sequence Source

/-!
# The program that a text spells

Every word of a program follows from the text: the words of constants stand in it, and so do the
mnemonics, and an operand is a number, a register, or the address of a line. No order of resolution
has a part in this, and it is what assembly yields in the end.

* `Source.Place.value?` — the word that an operand token stands for.
* `Source.Place.Spells` — the instruction of a line.
* `Source.Spells` — the program of a text.
* `DraftInstruction.resolve_ofOperands` — putting labels in place, operand by operand.
* `Assembly.Follows.finish_eq_ok_iff` — what is finished behind a text is the program it spells.
-/

namespace Source

/-! ### Values of operands -/

namespace Place

/-- The word that an operand stands for: a number, the id of a register, or the address of the line
that declares the symbol. A label belongs to the subroutine around the operand. -/
def operandValue? (base : Word) (text : List Line) (q : Place) : Operand → Option Word
  | .literal w => some w
  | .register r => some r.id
  | .constant name => address? base text (.constant name)
  | .subroutine name => address? base text (.subroutine name)
  | .label name => address? base text (.label q.scope name)

/-- The word that an operand token stands for. -/
def value? (base : Word) (text : List Line) (q : Place) (token : String) : Option Word :=
  (Operand.ofChars? token.toList).bind (q.operandValue? base text)

/-- The instruction that a line spells: its mnemonic, and the values of its operands in their
order. -/
def Spells (base : Word) (text : List Line) (q : Place) (i : Instruction) : Prop :=
  ∃ tokens, Statement.ofLine q.line = .ok (.instruction i.opcode.mnemonic tokens) ∧
    List.Forall₂ (fun token w => q.value? base text token = some w) tokens i.operands

/-- The subroutine that a head opens: it stands where the head does, and its instructions are those
up to the next head. -/
structure Opens (base : Word) (text : List Line) (q : Place) (s : Subroutine) : Prop where
  name?_eq : s.name? = q.line.headName?
  address_eq : s.address = q.address base
  instructions : List.Forall₂ (Place.Spells base text) (body text (q.scope + 1)) s.instructions

end Place

/-- The program that a text spells. -/
structure Spells (base : Word) (text : List Line) (p : Program) : Prop where
  constants : p.constants = (places text).flatMap (Place.constants base)
  subroutines : List.Forall₂ (Place.Opens base text) (heads text) p.subroutines
  main : ∃ last, p.main? = some last ∧ last.name? = some mainName ∧ p.entry = last.address

end Source

/-! ### Resolving labels -/

/-- The word of an operand, once all labels are known. -/
def DraftOperand.value? (t : SymbolTable) (scope : Nat) : DraftOperand → Option Word
  | word w => some w
  | label name => t.label? scope name

namespace DraftInstruction

theorem resolveReference_eq_ok_iff {t : SymbolTable} {scope position line : Nat} {name : String}
    {i j : Instruction} :
    resolveReference t scope i ⟨position, line, name⟩ = .ok j ↔
      ∃ w, t.label? scope name = some w ∧ j = { i with operands := i.operands.set position w } := by
  unfold resolveReference
  cases t.label? scope name with
  | none => simp
  | some w => simp [eq_comm]

/-- The references of operands whose first one stands at a position. -/
def referencesFrom (line position : Nat) (operands : List DraftOperand) : List LabelReference :=
  (operands.zipIdx position).filterMap fun (o, k) => o.reference? line k

theorem referencesFrom_word (line position : Nat) (w : Word) (operands : List DraftOperand) :
    referencesFrom line position (.word w :: operands) =
      referencesFrom line (position + 1) operands := rfl

theorem referencesFrom_label (line position : Nat) (name : String)
    (operands : List DraftOperand) :
    referencesFrom line position (.label name :: operands) =
      ⟨position, line, name⟩ :: referencesFrom line (position + 1) operands := rfl

/-- Of the operands behind those that are in place already, each label is put in place. -/
theorem foldlM_resolveReference {t : SymbolTable} {scope line : Nat} {opcode : Opcode}
    (done : List Word) (operands : List DraftOperand) {i : Instruction} :
    (referencesFrom line done.length operands).foldlM (resolveReference t scope)
        ⟨opcode, done ++ operands.map DraftOperand.placeholder⟩ = .ok i ↔
      ∃ ws, List.Forall₂ (fun o w => o.value? t scope = some w) operands ws ∧
        i = ⟨opcode, done ++ ws⟩ := by
  induction operands generalizing done with
  | nil => simp [referencesFrom, pure, Except.pure, eq_comm]
  | cons o operands ih =>
    -- One more word is in place, and the rest is put in place behind it.
    have hnext : ∀ w, (referencesFrom line (done.length + 1) operands).foldlM
        (resolveReference t scope)
          ⟨opcode, done ++ w :: operands.map DraftOperand.placeholder⟩ = .ok i ↔
        ∃ ws, List.Forall₂ (fun o w => o.value? t scope = some w) operands ws ∧
          i = ⟨opcode, done ++ w :: ws⟩ := by
      intro w
      have hrest := ih (done ++ [w])
      simp only [List.length_append, List.length_singleton, List.append_assoc,
        List.singleton_append] at hrest
      exact hrest
    rw [List.map_cons]
    cases o with
    | word w =>
      rw [referencesFrom_word, DraftOperand.placeholder, hnext]
      constructor
      · rintro ⟨ws, hws, rfl⟩
        exact ⟨w :: ws, .cons rfl hws, rfl⟩
      · rintro ⟨_, _ | ⟨hw, hws⟩, rfl⟩
        cases hw
        exact ⟨_, hws, rfl⟩
    | label name =>
      have hset : ∀ w ws, (done ++ 0 :: ws).set done.length w = done ++ w :: ws := fun w ws => by
        simp
      rw [referencesFrom_label, DraftOperand.placeholder, List.foldlM_cons, bind_eq_ok_iff]
      constructor
      · rintro ⟨_, href, hrest⟩
        obtain ⟨w, hw, rfl⟩ := resolveReference_eq_ok_iff.1 href
        rw [hset, hnext] at hrest
        obtain ⟨ws, hws, rfl⟩ := hrest
        exact ⟨w :: ws, .cons hw hws, rfl⟩
      · rintro ⟨_, _ | ⟨hw, hws⟩, rfl⟩
        refine ⟨_, resolveReference_eq_ok_iff.2 ⟨_, hw, rfl⟩, ?_⟩
        rw [hset, hnext]
        exact ⟨_, hws, rfl⟩

/-- Putting labels in place gives every operand its word. -/
theorem resolve_ofOperands {t : SymbolTable} {scope line : Nat} {opcode : Opcode}
    {operands : List DraftOperand} {i : Instruction} :
    (ofOperands line opcode operands).resolve t scope = .ok i ↔
      ∃ ws, List.Forall₂ (fun o w => o.value? t scope = some w) operands ws ∧ i = ⟨opcode, ws⟩ :=
  foldlM_resolveReference [] operands

end DraftInstruction

/-- A subroutine is resolved if each of its instructions is. -/
theorem DraftSubroutine.resolve_eq_ok_iff {t : SymbolTable} {d : DraftSubroutine} {s : Subroutine} :
    d.resolve t = .ok s ↔
      s.name? = some d.name ∧ s.address = d.address ∧
        List.Forall₂ (fun e i => e.resolve t d.scope = .ok i) d.instructions.reverse
          s.instructions := by
  rw [resolve, bind_eq_ok_iff]
  simp only [mapM_eq_ok_iff]
  constructor
  · rintro ⟨is, his, hs⟩
    cases hs
    exact ⟨rfl, rfl, his⟩
  · obtain ⟨name?, address, is⟩ := s
    rintro ⟨rfl, rfl, his⟩
    exact ⟨is, his, rfl⟩

/-! ### From drafts to what is spelled -/

section Known

variable {base : Word} {text : List Line} {t : SymbolTable} {q : Place} {scope : Nat}
  (known : ∀ symbol, t.lookup? symbol = address? base text symbol) (inside : q.scope = scope + 1)

include known inside

/-- Whatever an operand token was drafted to stands for its value in the end. -/
theorem value?_of_draftToken {line : Nat} {token : String} {o : DraftOperand}
    (h : Assembly.draftToken t line token = .ok o) :
    o.value? t scope = q.value? base text token := by
  obtain ⟨operand, hchars, ho⟩ := Assembly.draftToken_eq_ok_iff.1 h
  rw [Place.value?, hchars, Option.bind_some]
  cases operand with
  | literal w =>
    cases ho
    rfl
  | register r =>
    cases ho
    rfl
  | label name =>
    cases ho
    rw [DraftOperand.value?, Place.operandValue?, inside, ← known]
    rfl
  | constant name =>
    simp only [Assembly.draftOperand] at ho
    split at ho
    · next a ha =>
      cases ho
      rw [DraftOperand.value?, Place.operandValue?, ← known]
      exact ha.symm
    · cases ho
  | subroutine name =>
    simp only [Assembly.draftOperand] at ho
    split at ho
    · next a ha =>
      cases ho
      rw [DraftOperand.value?, Place.operandValue?, ← known]
      exact ha.symm
    · cases ho

/-- So a draft is resolved to the instruction that its line spells. -/
theorem resolve_eq_ok_iff_of_drafts {d : DraftInstruction} (h : q.Drafts t d) {i : Instruction} :
    d.resolve t scope = .ok i ↔ q.Spells base text i := by
  obtain ⟨mnemonic, tokens, kind, hd⟩ := h
  obtain ⟨opcode, operands, hopcode, -, hoperands, rfl⟩ := Assembly.draftInstruction_eq_ok_iff.1 hd
  have values : ∀ ws, List.Forall₂ (fun o w => o.value? t scope = some w) operands ws ↔
      List.Forall₂ (fun token w => q.value? base text token = some w) tokens ws := fun ws =>
    forall₂_iff_of_forall₂
      (fun token o w ho => by rw [value?_of_draftToken known inside ho]) hoperands
  rw [Opcode.ofMnemonic?_eq_some_iff] at hopcode
  subst hopcode
  simp only [DraftInstruction.resolve_ofOperands, values, Place.Spells, kind, Except.ok.injEq,
    Statement.instruction.injEq]
  constructor
  · rintro ⟨ws, hws, rfl⟩
    exact ⟨tokens, ⟨rfl, rfl⟩, hws⟩
  · rintro ⟨_, ⟨hmnemonic, rfl⟩, hws⟩
    have hopcode : opcode = i.opcode := by
      apply Option.some.inj
      rw [← Opcode.ofMnemonic?_eq_some_iff.2 rfl, hmnemonic, Opcode.ofMnemonic?_eq_some_iff]
    exact ⟨i.operands, hws, by rw [hopcode]⟩

end Known

/-! ### The end of a text -/

namespace Assembly.Follows

variable {base : Word} {text : List Line} {s : Assembly} (h : s.Follows base text)

include h

/-- The instructions of a draft are resolved to those that the body of its subroutine spells. -/
theorem resolve_iff_spells {d : DraftSubroutine} (hd : d ∈ s.drafts) {is : List Instruction} :
    List.Forall₂ (fun e i => e.resolve s.symbols d.scope = .ok i) d.instructions.reverse is ↔
      List.Forall₂ (Place.Spells base text) (body text (d.scope + 1)) is := by
  have hbody : List.Forall₂ (fun q e => q.scope = d.scope + 1 ∧ q.Drafts s.symbols e)
      (body text (d.scope + 1)) d.instructions.reverse :=
    (List.forall₂_and_left _ _).2 ⟨fun q hq => (mem_body.1 hq).2.2, h.bodies d hd⟩
  refine forall₂_iff_of_forall₂ ?_ hbody
  rintro q e i ⟨inside, hdrafts⟩
  exact resolve_eq_ok_iff_of_drafts h.lookup inside hdrafts

/-- The drafts are resolved to the subroutines that the heads open. -/
theorem resolve_iff_opens {ss : List Subroutine} :
    List.Forall₂ (fun d t => d.resolve s.symbols = .ok t) s.drafts.reverse ss ↔
      List.Forall₂ (Place.Opens base text) (Source.heads text) ss := by
  have hheads : List.Forall₂ (fun (d : DraftSubroutine) (q : Place) => d ∈ s.drafts ∧
      (some d.name, d.address, d.scope) = (q.line.headName?, q.address base, q.scope))
      s.drafts.reverse (Source.heads text) :=
    (List.forall₂_and_left _ _).2
      ⟨fun d hd => List.mem_reverse.1 hd, forall₂_iff_map_eq.2 h.heads⟩
  refine (forall₂_iff_of_forall₂ ?_ hheads).symm
  rintro d q t ⟨hd, heq⟩
  obtain ⟨hname, heq⟩ := Prod.mk.inj heq
  obtain ⟨haddress, hscope⟩ := Prod.mk.inj heq
  rw [DraftSubroutine.resolve_eq_ok_iff, h.resolve_iff_spells hd, hname, haddress, hscope]
  exact ⟨fun ⟨hn, ha, hi⟩ => ⟨hn, ha, hi⟩, fun ⟨hn, ha, hi⟩ => ⟨hn, ha, hi⟩⟩

/-- So they have the names and addresses of the drafts. -/
theorem map_of_opens {ss : List Subroutine}
    (hopens : List.Forall₂ (Place.Opens base text) (Source.heads text) ss) :
    ss.map (fun t => (t.name?, t.address)) =
      s.drafts.reverse.map fun d => (some d.name, d.address) := by
  have hheads := congrArg (List.map fun r => (r.1, r.2.1)) h.heads
  rw [List.map_map, List.map_map] at hheads
  refine Eq.trans ?_ hheads.symm
  refine map_eq_of_forall₂ ?_ hopens
  intro q t ht
  exact Prod.ext ht.name?_eq ht.address_eq

/-- The last of them is that of the open subroutine. -/
theorem getLast?_of_opens {ss : List Subroutine}
    (hopens : List.Forall₂ (Place.Opens base text) (Source.heads text) ss) :
    ss.getLast?.map (fun t => (t.name?, t.address)) =
      s.drafts.head?.map fun d => (some d.name, d.address) := by
  rw [← List.getLast?_map, h.map_of_opens hopens, List.getLast?_map, List.getLast?_reverse]

/-- What is finished behind a text is the program that it spells. -/
theorem finish_eq_ok_iff {p : Program} : s.finish = .ok p ↔ Source.Spells base text p := by
  rw [Assembly.finish_eq_ok_iff]
  simp only [resolve, mapM_eq_ok_iff, h.resolve_iff_opens]
  constructor
  · rintro ⟨subroutines, last, rest, hopens, inside, hmain, rfl⟩
    refine ⟨h.constants, hopens, ?_⟩
    have hlast := h.getLast?_of_opens hopens
    rw [inside, List.head?_cons, Option.map_some] at hlast
    obtain ⟨t, ht, heq⟩ := Option.map_eq_some_iff.1 hlast
    obtain ⟨hname, haddress⟩ := Prod.mk.inj heq
    exact ⟨t, ht, by rw [hname, hmain], haddress.symm⟩
  · obtain ⟨constants, subroutines, entry⟩ := p
    rintro ⟨hconstants, hopens, t, ht, hname, rfl⟩
    have hlast := h.getLast?_of_opens hopens
    rw [show subroutines.getLast? = some t from ht, Option.map_some] at hlast
    obtain ⟨last, hhead, heq⟩ := Option.map_eq_some_iff.1 hlast.symm
    obtain ⟨rest, inside⟩ := List.head?_eq_some_iff.1 hhead
    obtain ⟨hlastname, haddress⟩ := Prod.mk.inj heq
    rw [hname] at hlastname
    refine ⟨subroutines, last, rest, hopens, inside, Option.some.inj hlastname, ?_⟩
    rw [h.constants, haddress]
    exact congrArg (Program.mk · subroutines t.address) hconstants

end Assembly.Follows

end WordMachine
