import WordMachine.Proofs.Assembly.Acceptance
import WordMachine.Proofs.Assembly.Relocation

namespace WordMachine

open Sequence Source

/-!
# The first error of a text

Assembly stops at the first line that it refuses, and the lines below have no part in that. Labels
are looked for when all lines have been read, in the order of the text, and `main` is looked for
last. So each error is tied to one place of the text, or to all of it.

* `AssemblyError.AtEnd` — the errors that only the end of a text brings to light.
* `Source.Accepted` — no line of a text is refused.
* `Source.labelUses` — the operands that name a label, in the order of the text.
* `Assembly.Follows.error?_resolve` — the first of them without a label is reported.
* `exists_place_of_assemble` — where assembly stops before the end.
* `assemble_reports_first_error` — the error of a text.
-/

/-- The errors that only the end of a text brings to light. -/
inductive AssemblyError.AtEnd : AssemblyError → Prop where
  | undeclaredLabel (line : Nat) (name : String) : AtEnd (.undeclaredLabel line name)
  | missingMain : AtEnd .missingMain
  | misnamedMain (found : String) : AtEnd (.misnamedMain found)

namespace Source

/-- No line of a text is refused: each is allowed where it stands and declares nothing again. -/
def Accepted (base : Word) (text : List Line) : Prop :=
  ∀ q ∈ places text, q.Allowed base q.Sees ∧ q.Fresh

/-! ### Uses of labels -/

/-- An operand that names a label. -/
structure LabelUse where
  place : Place
  name : String
  deriving DecidableEq, Repr

namespace LabelUse

/-- The symbol that is named: the label belongs to the subroutine around the operand. -/
def symbol (u : LabelUse) : Symbol :=
  .label u.place.scope u.name

/-- The error of a use whose label is not declared in a text. -/
def error? (text : List Line) (u : LabelUse) : Option AssemblyError :=
  if u.symbol ∈ symbols text then none else some (.undeclaredLabel u.place.line.number u.name)

theorem error?_eq_none_iff {text : List Line} {u : LabelUse} :
    u.error? text = none ↔ u.symbol ∈ symbols text := by
  simp [error?]

theorem error?_eq_some_iff {text : List Line} {u : LabelUse} {e : AssemblyError} :
    u.error? text = some e ↔
      u.symbol ∉ symbols text ∧ e = .undeclaredLabel u.place.line.number u.name := by
  simp [error?, eq_comm]

end LabelUse

/-- The use of a label in an operand token. -/
def Place.labelUse? (q : Place) (token : String) : Option LabelUse :=
  match Operand.ofChars? token.toList with
  | some (.label name) => some ⟨q, name⟩
  | _ => none

/-- The uses of labels in a line, from left to right. -/
def Place.labelUses (q : Place) : List LabelUse :=
  q.line.operands.filterMap q.labelUse?

/-- The uses of labels in the order of a text. -/
def labelUses (text : List Line) : List LabelUse :=
  (places text).flatMap Place.labelUses

/-- Only instructions use labels. -/
theorem Place.labelUses_eq_nil {q : Place} (h : q.line.isInstruction = false) :
    q.labelUses = [] := by
  have hoperands : q.line.operands = [] := by
    unfold Line.operands
    split
    · next hkind => simp [Line.isInstruction, hkind] at h
    · rfl
  rw [labelUses, hoperands]
  rfl

/-- The head of a subroutine is no instruction. -/
theorem Line.isInstruction_eq_false_of_headName? {l : Line} {name : String}
    (h : l.headName? = some name) : l.isInstruction = false := by
  unfold Line.headName? at h
  unfold Line.isInstruction
  split at h
  · next hkind => rw [hkind]
  · cases h

/-- The bodies of all subroutines, one behind the other, are the instructions below the first
head. -/
theorem flatMap_body (text : List Line) :
    (List.range (headNames text).length).flatMap (fun scope => body text (scope + 1)) =
      (places text).filter fun q => q.line.isInstruction && decide (0 < q.scope) := by
  induction text using List.reverseRecOn with
  | nil => rfl
  | append_singleton text l ih =>
    rw [places_concat, List.filter_append, ← ih, headNames_concat]
    cases hhead : l.headName? with
    | some name =>
      -- A head opens a body that has no instructions yet.
      have plain : l.isInstruction = false := Line.isInstruction_eq_false_of_headName? hhead
      have hbody : ∀ scope, body (text ++ [l]) scope = body text scope :=
        Assembly.Follows.body_concat_of_not plain
      simp only [hbody, Option.toList_some, List.length_append, List.length_singleton,
        List.range_succ, List.flatMap_append, List.flatMap_singleton,
        body_eq_nil (Nat.lt_succ_self _)]
      simp [plain]
    | none =>
      rw [Option.toList_none, List.append_nil]
      cases hline : l.isInstruction with
      | false =>
        simp only [Assembly.Follows.body_concat_of_not hline]
        simp [hline]
      | true =>
        cases hlen : (headNames text).length with
        | zero => simp [Place.scope, hlen]
        | succ last =>
          -- Of the bodies, the last one grows.
          have hclosed : ∀ scope ∈ List.range last,
              body (text ++ [l]) (scope + 1) = body text (scope + 1) := by
            intro scope hscope
            have hne : ((headNames text).length == scope + 1) = false := by
              rw [List.mem_range] at hscope
              rw [beq_eq_false_iff_ne]
              omega
            rw [body_concat, hne, Bool.and_false, if_neg Bool.false_ne_true]
          have hopen : body (text ++ [l]) (last + 1) = body text (last + 1) ++ [⟨text, l⟩] := by
            rw [body_concat, hline, hlen, Bool.true_and, if_pos (beq_self_eq_true _)]
          rw [List.range_succ, List.flatMap_append, List.flatMap_append,
            List.flatMap_congr hclosed, List.flatMap_singleton, List.flatMap_singleton, hopen,
            List.append_assoc]
          simp [hline, Place.scope, hlen]

end Source

/-! ### The first label that is missing -/

/-- An instruction fails by the first of its references that has no label. -/
theorem DraftInstruction.error?_resolve (t : SymbolTable) (scope : Nat) (d : DraftInstruction) :
    error? (d.resolve t scope) = d.references.findSome? fun r =>
      if t.label? scope r.name = none then some (.undeclaredLabel r.line r.name) else none := by
  refine error?_foldlM ?_ d.references d.instruction
  intro i r
  unfold resolveReference
  cases t.label? scope r.name <;> rfl

/-- A subroutine fails by the first of its instructions that does. -/
theorem DraftSubroutine.error?_resolve (t : SymbolTable) (d : DraftSubroutine) :
    error? (d.resolve t) =
      d.instructions.reverse.findSome? fun i => error? (i.resolve t d.scope) := by
  rw [← error?_mapM, resolve]
  cases d.instructions.reverse.mapM (DraftInstruction.resolve t d.scope) <;> rfl

section Uses

variable {q : Place} {t : SymbolTable}

/-- What a token is drafted to tells whether it names a label. -/
theorem labelUse?_of_draftToken {line : Nat} {token : String} {o : DraftOperand}
    (h : Assembly.draftToken t line token = .ok o) :
    q.labelUse? token =
      match o with
      | .label name => some ⟨q, name⟩
      | .word _ => none := by
  obtain ⟨operand, hchars, ho⟩ := Assembly.draftToken_eq_ok_iff.1 h
  rw [Place.labelUse?, hchars]
  cases operand with
  | literal w =>
    cases ho
    rfl
  | register r =>
    cases ho
    rfl
  | label name =>
    cases ho
    rfl
  | constant name =>
    simp only [Assembly.draftOperand] at ho
    split at ho
    · cases ho
      rfl
    · cases ho
  | subroutine name =>
    simp only [Assembly.draftOperand] at ho
    split at ho
    · cases ho
      rfl
    · cases ho

variable {base : Word} {text : List Line} {scope : Nat}
  (known : ∀ symbol, t.lookup? symbol = address? base text symbol) (inside : q.scope = scope + 1)

include known inside

/-- A use of a label is in error if the table has no such label in the scope. -/
theorem error?_labelUse (name : String) :
    LabelUse.error? text ⟨q, name⟩ =
      if t.label? scope name = none then some (.undeclaredLabel q.line.number name) else none := by
  have hnone : t.label? scope name = none ↔ (⟨q, name⟩ : LabelUse).symbol ∉ symbols text := by
    rw [LabelUse.symbol, inside]
    show t.lookup? (.label (scope + 1) name) = none ↔ .label (scope + 1) name ∉ symbols text
    rw [known, address?_eq_none_iff]
  by_cases hlabel : t.label? scope name = none
  · rw [if_pos hlabel, LabelUse.error?_eq_some_iff]
    exact ⟨hnone.1 hlabel, rfl⟩
  · rw [if_neg hlabel, LabelUse.error?_eq_none_iff]
    exact Decidable.not_not.1 (mt hnone.2 hlabel)

/-- The references of a draft fail as the uses of labels in its line do. -/
theorem findSome?_referencesFrom {tokens : List String} {operands : List DraftOperand}
    (h : List.Forall₂ (fun token o => Assembly.draftToken t q.line.number token = .ok o) tokens
      operands) (position : Nat) :
    ((DraftInstruction.referencesFrom q.line.number position operands).findSome? fun r =>
        if t.label? scope r.name = none then some (.undeclaredLabel r.line r.name) else none) =
      (tokens.filterMap q.labelUse?).findSome? (LabelUse.error? text) := by
  induction h generalizing position with
  | nil => rfl
  | @cons token o tokens operands ho _ ih =>
    rw [List.filterMap_cons, labelUse?_of_draftToken ho]
    cases o with
    | word w => exact ih (position + 1)
    | label name =>
      rw [DraftInstruction.referencesFrom_label, List.findSome?_cons, ih]
      simp only [List.findSome?_cons, error?_labelUse known inside]

/-- So does the draft of a line. -/
theorem error?_resolve_of_drafts {d : DraftInstruction} (h : q.Drafts t d) :
    error? (d.resolve t scope) = q.labelUses.findSome? (LabelUse.error? text) := by
  obtain ⟨mnemonic, tokens, kind, hd⟩ := h
  obtain ⟨opcode, operands, -, -, hoperands, rfl⟩ := Assembly.draftInstruction_eq_ok_iff.1 hd
  have htokens : q.line.operands = tokens := by simp only [Line.operands, kind]
  rw [DraftInstruction.error?_resolve, Place.labelUses, htokens]
  exact findSome?_referencesFrom known inside hoperands 0

end Uses

namespace Assembly

variable {base : Word} {text : List Line} {s : Assembly} {e : AssemblyError}

namespace Follows

variable (h : s.Follows base text)

include h

/-- A draft fails as the body of its subroutine does. -/
theorem error?_resolve_draft {d : DraftSubroutine} (hd : d ∈ s.drafts) :
    error? (d.resolve s.symbols) =
      (body text (d.scope + 1)).findSome? fun q => q.labelUses.findSome? (LabelUse.error? text) := by
  rw [DraftSubroutine.error?_resolve]
  have hbody : List.Forall₂ (fun q e => q.scope = d.scope + 1 ∧ q.Drafts s.symbols e)
      (body text (d.scope + 1)) d.instructions.reverse :=
    (List.forall₂_and_left _ _).2 ⟨fun q hq => (mem_body.1 hq).2.2, h.bodies d hd⟩
  refine findSome?_eq_of_forall₂ ?_ hbody
  rintro q i ⟨inside, hdrafts⟩
  exact error?_resolve_of_drafts h.lookup inside hdrafts

/-- If all instructions stand below a head, the first use of a label that is not declared is what
fails. -/
theorem error?_resolve (inside : ∀ q ∈ places text, q.line.isInstruction = true → 0 < q.scope) :
    error? s.resolve = (labelUses text).findSome? (LabelUse.error? text) := by
  have hdrafts : error? s.resolve = (s.drafts.reverse.map DraftSubroutine.scope).findSome?
      fun scope => (body text (scope + 1)).findSome?
        fun q => q.labelUses.findSome? (LabelUse.error? text) := by
    rw [resolve, error?_mapM, List.findSome?_map]
    refine findSome?_eq_of_forall₂ (R := fun d d' => d' = d ∧ d ∈ s.drafts) ?_
      (List.forall₂_same.2 fun d hd => ⟨rfl, List.mem_reverse.1 hd⟩)
    rintro d _ ⟨rfl, hd⟩
    exact h.error?_resolve_draft hd
  -- Places without a subroutine around them use no labels.
  have silent : ∀ q ∈ places text, (q.line.isInstruction && decide (0 < q.scope)) = false →
      q.labelUses.findSome? (LabelUse.error? text) = none := by
    intro q hq hsilent
    cases hline : q.line.isInstruction with
    | false =>
      rw [Place.labelUses_eq_nil hline]
      rfl
    | true => simp [hline, inside q hq hline] at hsilent
  rw [hdrafts, h.map_scope_drafts, ← findSome?_flatMap, flatMap_body, findSome?_filter silent,
    ← findSome?_flatMap]
  rfl

/-- The drafts have the names of the heads. -/
theorem map_name_drafts : s.drafts.reverse.map DraftSubroutine.name = headNames text := by
  have hnames := congrArg (List.map fun r => r.1) h.heads
  rw [List.map_map, List.map_map] at hnames
  apply List.map_injective_iff.2 (Option.some_injective String)
  rw [List.map_map, ← map_headName?_heads]
  exact hnames

theorem drafts_eq_nil_iff : s.drafts = [] ↔ headNames text = [] := by
  rw [← h.map_name_drafts, List.map_eq_nil_iff, List.reverse_eq_nil_iff]

/-- The open subroutine is that of the last head. -/
theorem getLast?_headNames : (headNames text).getLast? = s.drafts.head?.map DraftSubroutine.name := by
  rw [← h.map_name_drafts, List.getLast?_map, List.getLast?_reverse]

end Follows

/-! ### Errors of a line and errors of the end -/

variable {line : Line} {n : Nat} {name : String}

/-- The error of a line carries its number. -/
theorem line?_of_step (h : s.step line = .error e) : e.line? = some line.number := by
  cases refuses_of_step h with
  | malformed fault => cases fault <;> rfl
  | _ => rfl

theorem not_atEnd_of_step (h : s.step line = .error e) : ¬e.AtEnd := by
  intro late
  cases refuses_of_step h with
  | malformed fault => cases fault <;> cases late
  | _ => cases late

theorem atEnd_of_finish (h : s.finish = .error e) : e.AtEnd := by
  rcases finish_eq_error h with ⟨n, name, rfl⟩ | rfl | ⟨name, rfl⟩
  · exact .undeclaredLabel n name
  · exact .missingMain
  · exact .misnamedMain name

theorem finish_eq_undeclaredLabel_iff :
    s.finish = .error (.undeclaredLabel n name) ↔
      error? s.resolve = some (.undeclaredLabel n name) := by
  rw [error?_eq_some_iff, finish, bind_eq_error_iff]
  constructor
  · rintro (hresolve | ⟨subroutines, -, h⟩)
    · exact hresolve
    · split at h
      · cases h
      · split at h <;> cases h
  · exact .inl

theorem finish_eq_missingMain_iff :
    s.finish = .error .missingMain ↔ error? s.resolve = none ∧ s.drafts = [] := by
  rw [error?_eq_none_iff, finish, bind_eq_error_iff]
  constructor
  · rintro (hresolve | ⟨subroutines, hresolve, h⟩)
    · obtain ⟨n, name, heq⟩ := resolve_eq_error hresolve
      cases heq
    · split at h
      · next hdrafts => exact ⟨⟨subroutines, hresolve⟩, hdrafts⟩
      · split at h <;> cases h
  · rintro ⟨⟨subroutines, hresolve⟩, hdrafts⟩
    exact .inr ⟨subroutines, hresolve, by rw [hdrafts]⟩

theorem finish_eq_misnamedMain_iff :
    s.finish = .error (.misnamedMain name) ↔
      error? s.resolve = none ∧ s.drafts.head?.map DraftSubroutine.name = some name ∧
        name ≠ mainName := by
  rw [error?_eq_none_iff, finish, bind_eq_error_iff]
  constructor
  · rintro (hresolve | ⟨subroutines, hresolve, h⟩)
    · obtain ⟨n, name, heq⟩ := resolve_eq_error hresolve
      cases heq
    · split at h
      · cases h
      · next last rest hdrafts =>
        split at h
        · cases h
        · next hname =>
          cases h
          exact ⟨⟨subroutines, hresolve⟩, by rw [hdrafts]; rfl, hname⟩
  · rintro ⟨⟨subroutines, hresolve⟩, hlast, hname⟩
    obtain ⟨last, hhead, rfl⟩ := Option.map_eq_some_iff.1 hlast
    obtain ⟨rest, hdrafts⟩ := List.head?_eq_some_iff.1 hhead
    exact .inr ⟨subroutines, hresolve, by simp only [hdrafts, if_neg hname]⟩

end Assembly

/-! ### The error of a text -/

section Texts

variable {base : Word} {text : List Line} {e : AssemblyError}

/-- All lines are read if none is refused. -/
theorem exists_run_iff_accepted :
    (∃ s, text.foldlM Assembly.step (Assembly.start base) = .ok s) ↔ Accepted base text :=
  Assembly.exists_run_iff (Assembly.follows_start base)

/-- Where assembly stops before the end of a text: at a line that is refused behind lines that are
not, whatever follows. -/
theorem exists_place_of_assemble (h : assemble text base = .error e) (early : ¬e.AtEnd) :
    ∃ q ∈ places text, e.line? = some q.line.number ∧ Accepted base q.above ∧
      ∀ below, assemble (q.above ++ q.line :: below) base = .error e := by
  rcases bind_eq_error_iff.1 h with hrun | ⟨s, -, hfinish⟩
  · obtain ⟨above, line, below, t, rfl, habove, hline⟩ := foldlM_eq_error_iff.1 hrun
    refine ⟨⟨above, line⟩, mem_places.2 ⟨below, rfl⟩, Assembly.line?_of_step hline,
      exists_run_iff_accepted.1 ⟨t, habove⟩, ?_⟩
    intro below
    exact bind_eq_error_iff.2
      (.inl (foldlM_eq_error_iff.2 ⟨above, line, below, t, rfl, habove, hline⟩))
  · exact absurd (Assembly.atEnd_of_finish hfinish) early

/-- An error of the end is one behind lines that have all been read. -/
theorem assemble_eq_error_iff (late : e.AtEnd) :
    assemble text base = .error e ↔
      ∃ s, text.foldlM Assembly.step (Assembly.start base) = .ok s ∧ s.finish = .error e := by
  rw [assemble, bind_eq_error_iff]
  constructor
  · rintro (hrun | h)
    · obtain ⟨_, _, _, t, -, -, hline⟩ := foldlM_eq_error_iff.1 hrun
      exact absurd late (Assembly.not_atEnd_of_step hline)
    · exact h
  · exact .inr

/-- No line is refused exactly if only the end of the text may bring an error to light. -/
theorem accepted_iff : Accepted base text ↔ ∀ e, assemble text base = .error e → e.AtEnd := by
  constructor
  · intro accepted e h
    obtain ⟨s, hrun⟩ := exists_run_iff_accepted.2 accepted
    rcases bind_eq_error_iff.1 h with hrefused | ⟨t, -, hfinish⟩
    · rw [hrun] at hrefused
      cases hrefused
    · exact Assembly.atEnd_of_finish hfinish
  · intro late
    rw [← exists_run_iff_accepted, ← error?_eq_none_iff, Option.eq_none_iff_forall_ne_some]
    intro e herror
    have hrun := error?_eq_some_iff.1 herror
    have hend := late e (bind_eq_error_iff.2 (.inl hrun))
    obtain ⟨_, _, _, t, -, -, hline⟩ := foldlM_eq_error_iff.1 hrun
    exact Assembly.not_atEnd_of_step hline hend

/-- What the end of a text that is read through brings to light follows from the text. -/
theorem assemble_eq_error_iff_of_finish (late : e.AtEnd) {P : Prop}
    (finish : ∀ s : Assembly, s.Follows base text →
      error? s.resolve = (labelUses text).findSome? (LabelUse.error? text) →
        (s.finish = .error e ↔ P)) :
    assemble text base = .error e ↔ Accepted base text ∧ P := by
  have read : ∀ s, text.foldlM Assembly.step (Assembly.start base) = .ok s →
      (s.finish = .error e ↔ P) := by
    intro s hrun
    have accepted := exists_run_iff_accepted.1 ⟨s, hrun⟩
    have hend := Assembly.follows_of_run hrun (Assembly.follows_start base)
    exact finish s hend (hend.error?_resolve fun q hq => (accepted q hq).1.inside)
  rw [assemble_eq_error_iff late, ← exists_run_iff_accepted]
  constructor
  · rintro ⟨s, hrun, hfinish⟩
    exact ⟨⟨s, hrun⟩, (read s hrun).1 hfinish⟩
  · rintro ⟨⟨s, hrun⟩, holds⟩
    exact ⟨s, hrun, (read s hrun).2 holds⟩

/-- All uses of labels find one exactly if none of them is in error. -/
theorem findSome?_labelUses_eq_none_iff :
    (labelUses text).findSome? (LabelUse.error? text) = none ↔
      ∀ u ∈ labelUses text, u.symbol ∈ symbols text := by
  simp only [List.findSome?_eq_none_iff, LabelUse.error?_eq_none_iff]

theorem assemble_eq_undeclaredLabel_iff {n : Nat} {name : String} :
    assemble text base = .error (.undeclaredLabel n name) ↔
      Accepted base text ∧ ∃ before u after, labelUses text = before ++ u :: after ∧
        (∀ v ∈ before, v.symbol ∈ symbols text) ∧ u.symbol ∉ symbols text ∧
          u.place.line.number = n ∧ u.name = name := by
  refine assemble_eq_error_iff_of_finish (.undeclaredLabel n name) ?_
  intro s _ hresolve
  rw [Assembly.finish_eq_undeclaredLabel_iff, hresolve, List.findSome?_eq_some_iff]
  simp only [LabelUse.error?_eq_some_iff, LabelUse.error?_eq_none_iff,
    AssemblyError.undeclaredLabel.injEq]
  constructor
  · rintro ⟨before, u, after, hsplit, ⟨hmissing, rfl, rfl⟩, hbefore⟩
    exact ⟨before, u, after, hsplit, hbefore, hmissing, rfl, rfl⟩
  · rintro ⟨before, u, after, hsplit, hbefore, hmissing, rfl, rfl⟩
    exact ⟨before, u, after, hsplit, ⟨hmissing, rfl, rfl⟩, hbefore⟩

theorem assemble_eq_missingMain_iff :
    assemble text base = .error .missingMain ↔
      Accepted base text ∧ (∀ u ∈ labelUses text, u.symbol ∈ symbols text) ∧
        headNames text = [] := by
  refine assemble_eq_error_iff_of_finish .missingMain ?_
  intro s hend hresolve
  rw [Assembly.finish_eq_missingMain_iff, hresolve, findSome?_labelUses_eq_none_iff,
    hend.drafts_eq_nil_iff]

theorem assemble_eq_misnamedMain_iff {name : String} :
    assemble text base = .error (.misnamedMain name) ↔
      Accepted base text ∧ (∀ u ∈ labelUses text, u.symbol ∈ symbols text) ∧
        (headNames text).getLast? = some name ∧ name ≠ mainName := by
  refine assemble_eq_error_iff_of_finish (.misnamedMain name) ?_
  intro s hend hresolve
  rw [Assembly.finish_eq_misnamedMain_iff, hresolve, findSome?_labelUses_eq_none_iff,
    hend.getLast?_headNames]

/-- **The first error.** An error that does not wait for the end of the text is that of one line: it
carries the number of the line, the lines above have no such error, and with the same lines above,
the line fails in the same way whatever stands below. Errors of the end arise only if no line is
refused. The first use of a label that is not declared in its subroutine is reported before a
missing or misnamed `main`, and those only if all uses find their labels. -/
theorem assemble_reports_first_error (text : List Line) (base : Word) :
    (∀ e, assemble text base = .error e → ¬e.AtEnd →
      ∃ q ∈ places text, e.line? = some q.line.number ∧
        (∀ e', assemble q.above base = .error e' → e'.AtEnd) ∧
        ∀ below, assemble (q.above ++ q.line :: below) base = .error e) ∧
      (Accepted base text ↔ ∀ e, assemble text base = .error e → e.AtEnd) ∧
      (∀ n name, assemble text base = .error (.undeclaredLabel n name) ↔
        Accepted base text ∧ ∃ before u after, labelUses text = before ++ u :: after ∧
          (∀ v ∈ before, v.symbol ∈ symbols text) ∧ u.symbol ∉ symbols text ∧
            u.place.line.number = n ∧ u.name = name) ∧
      (assemble text base = .error .missingMain ↔
        Accepted base text ∧ (∀ u ∈ labelUses text, u.symbol ∈ symbols text) ∧
          headNames text = []) ∧
      ∀ name, assemble text base = .error (.misnamedMain name) ↔
        Accepted base text ∧ (∀ u ∈ labelUses text, u.symbol ∈ symbols text) ∧
          (headNames text).getLast? = some name ∧ name ≠ mainName := by
  refine ⟨?_, accepted_iff, fun _ _ => assemble_eq_undeclaredLabel_iff,
    assemble_eq_missingMain_iff, fun _ => assemble_eq_misnamedMain_iff⟩
  intro e h early
  obtain ⟨q, hq, hline, above, below⟩ := exists_place_of_assemble h early
  exact ⟨q, hq, hline, accepted_iff.1 above, below⟩

/-- A label is missing in the second line and `main` altogether, but the mnemonic in the third line
is what is reported, and so it is with any lines below. -/
theorem assemble_reports_first_error_mnemonic :
    assemble [⟨1, ["f:"]⟩, ⟨2, ["gto", "&end"]⟩, ⟨3, ["jump", "&end"]⟩, ⟨4, ["=", "="]⟩] 0 =
        .error (.unknownMnemonic 3 "jump") ∧
      ∃ q ∈ places [⟨1, ["f:"]⟩, ⟨2, ["gto", "&end"]⟩, ⟨3, ["jump", "&end"]⟩, ⟨4, ["=", "="]⟩],
        some 3 = some q.line.number ∧
          ∀ below, assemble (q.above ++ q.line :: below) 0 =
            .error (.unknownMnemonic 3 "jump") := by
  have h : assemble [⟨1, ["f:"]⟩, ⟨2, ["gto", "&end"]⟩, ⟨3, ["jump", "&end"]⟩, ⟨4, ["=", "="]⟩] 0 =
      .error (.unknownMnemonic 3 "jump") := by decide +kernel
  obtain ⟨q, hq, hline, -, hbelow⟩ :=
    (assemble_reports_first_error _ 0).1 _ h fun late => by cases late
  exact ⟨h, q, hq, hline, hbelow⟩

end Texts

end WordMachine
