import WordMachine.Proofs.Assembly.Indexed
import WordMachine.Proofs.Assembly.Spelling

namespace WordMachine

open Sequence Source

/-!
# Patches and their slots

A patch is recorded before the instruction that it is for, and some of what is recorded is left when
a line is refused. What always holds is that scopes are the indices of subroutines. Between two
lines the slot of each patch is there as well, and waits for this patch alone.

* `DraftInstruction.Waits` — the references of a draft have operands of their own.
* `Assembler.Leaves` — what holds of a result, and of the state that a refusal leaves behind.
* `Assembler.Scoped` and `Assembler.Slotted` — the two things that hold of scopes and of patches.
* `Assembler.emit_eq` — what an instruction comes to.
* `Assembler.leaves_read` — the first pass keeps to them, and finds every index.
* `Assembler.Patched` — how far the second pass has come.
* `Assembler.leaves_patchLabels` — it finds every index, and fills slots that hold zero.
-/

/-! ### Drafts -/

theorem DraftOperand.reference?_eq_some_iff {o : DraftOperand} {line position : Nat}
    {r : LabelReference} :
    o.reference? line position = some r ↔ ∃ name, o = .label name ∧ r = ⟨position, line, name⟩ := by
  cases o with
  | word w => simp [reference?]
  | label name => simp [reference?, eq_comm]

/-- The references of a draft wait for operands of their own, which hold zero. -/
structure DraftInstruction.Waits (d : DraftInstruction) : Prop where
  zero : ∀ r ∈ d.references, d.instruction.operands[r.position]? = some 0
  apart : (d.references.map LabelReference.position).Nodup

theorem DraftInstruction.Waits.position_lt {d : DraftInstruction} (h : d.Waits) :
    ∀ r ∈ d.references, r.position < d.instruction.operands.length := by
  intro r hr
  exact (List.getElem?_eq_some_iff.1 (h.zero r hr)).1

theorem Assembly.waits_of_draftInstruction {symbols : SymbolTable} {line : Nat}
    {mnemonic : String} {tokens : List String} {d : DraftInstruction}
    (h : draftInstruction symbols line mnemonic tokens = .ok d) : d.Waits := by
  obtain ⟨opcode, os, -, -, -, rfl⟩ := draftInstruction_eq_ok_iff.1 h
  rw [DraftInstruction.ofOperands]
  constructor
  · intro r hr
    obtain ⟨⟨o, i⟩, ho, hr⟩ := List.mem_filterMap.1 hr
    obtain ⟨name, rfl, rfl⟩ := DraftOperand.reference?_eq_some_iff.1 hr
    rw [List.getElem?_map, List.mem_zipIdx_iff_getElem?.1 ho]
    rfl
  · have hindices : (os.zipIdx.map Prod.snd).Nodup := by
      rw [List.zipIdx_map_snd]
      exact List.nodup_range'
    rw [List.Nodup, List.pairwise_map] at hindices ⊢
    refine List.Pairwise.filterMap _ ?_ hindices
    rintro ⟨o, i⟩ ⟨o', i'⟩ hne r hr r' hr'
    obtain ⟨name, rfl, rfl⟩ := DraftOperand.reference?_eq_some_iff.1 hr
    obtain ⟨name', rfl, rfl⟩ := DraftOperand.reference?_eq_some_iff.1 hr'
    exact hne

namespace Assembler

/-! ### What holds of an outcome -/

/-- A result is as `Q` says, a refusal leaves a state behind that is as `P` says, and no index is
missing. -/
inductive Leaves {α : Type} (P : Assembler → Prop) (Q : α → Prop) : Outcome α → Prop where
  | ok {a : α} (h : Q a) : Leaves P Q (.ok a)
  | refused {e : AssemblyError} {s : Assembler} (h : P s) : Leaves P Q (.error (.refused e, s))

section Leaves

variable {α β : Type} {P : Assembler → Prop} {Q : α → Prop} {s : Assembler}

theorem Leaves.bind {R : β → Prop} {x : Outcome α} {k : α → Outcome β} (hx : Leaves P Q x)
    (hk : ∀ a, Q a → Leaves P R (k a)) : Leaves P R (x >>= k) := by
  cases hx with
  | ok h => exact hk _ h
  | refused h => exact .refused h

theorem Leaves.foldlM {Q : Assembler → Prop} {step : Assembler → α → Outcome Assembler}
    (hstep : ∀ s a, Q s → Leaves P Q (step s a)) (as : List α) (hs : Q s) :
    Leaves P Q (as.foldlM step s) := by
  induction as generalizing s with
  | nil => exact .ok hs
  | cons a as ih =>
    rw [List.foldlM_cons]
    exact (hstep s a hs).bind fun _ => ih

theorem Leaves.state {Q : Assembler → Prop} {x : Outcome Assembler} (h : Leaves P Q x)
    (hQ : ∀ s, Q s → P s) : P x.state := by
  cases h with
  | ok h => exact hQ _ h
  | refused h => exact h

theorem Leaves.of_eq_ok {x : Outcome α} {a : α} (h : Leaves P Q x) (hx : x = .ok a) : Q a := by
  cases h with
  | ok h =>
    cases hx
    exact h
  | refused _ => cases hx

theorem leaves_attempt (h : P s) (x : Except AssemblyError α) :
    Leaves P (fun a => x = .ok a) (s.attempt x) := by
  cases x with
  | ok a => exact .ok rfl
  | error e => exact .refused h

theorem leaves_demand {x : Option α} {a : α} (h : x = some a) :
    Leaves P (fun b => b = a) (s.demand x) := by
  rw [h]
  exact .ok rfl

theorem leaves_reserve (h : P s) (line size : Nat) :
    Leaves P (fun t => t = { s with cursor := s.cursor + size }) (s.reserve line size) := by
  unfold reserve
  split
  · exact .ok rfl
  · exact .refused h

end Leaves

/-! ### Scopes and patches -/

/-- Scopes are the indices of subroutines: each subroutine has one, the open one is that of the last
subroutine, and each patch looks for its label where its slot is. -/
structure Scoped (s : Assembler) : Prop where
  scopes : s.symbols.scopes.size = s.subroutines.length
  last : ∀ scope, s.scope? = some scope → scope + 1 = s.subroutines.length
  patches : ∀ p ∈ s.patches,
    p.scope = p.slot.subroutine ∧ p.slot.subroutine < s.subroutines.length

/-- The slot of each patch is there and holds zero, and no two patches share one. -/
structure Slotted (s : Assembler) : Prop where
  holds : ∀ p ∈ s.patches, p.slot.word? s.subroutines = some 0
  distinct : (s.patches.map Patch.slot).Nodup

/-- What holds between two lines. -/
structure Ready (s : Assembler) : Prop extends Scoped s, Slotted s

variable {s : Assembler}

theorem ready_start (base : Word) : (start base).Ready where
  scopes := rfl
  last := by simp [start]
  patches := by simp [start]
  holds := by simp [start]
  distinct := List.nodup_nil

theorem Scoped.close (h : s.Scoped) : s.close.Scoped where
  scopes := h.scopes
  last := by simp [Assembler.close]
  patches := h.patches

theorem leaves_declareConstant (h : s.Ready) (line : Nat) (name value : String) :
    Leaves Scoped Ready (s.declareConstant line name value) := by
  have hscoped := h.toScoped
  unfold declareConstant
  split
  · exact .refused hscoped
  · refine (leaves_attempt hscoped _).bind fun words _ => ?_
    refine (leaves_reserve hscoped line words.length).bind ?_
    rintro _ rfl
    split
    · next symbols fresh =>
      obtain ⟨-, rfl⟩ := SymbolTable.insertConstant?_eq_some_iff.1 fresh
      exact .ok ⟨⟨h.scopes, h.last, h.patches⟩, ⟨h.holds, h.distinct⟩⟩
    · exact .refused ⟨h.scopes, h.last, h.patches⟩

theorem leaves_openSubroutine (h : s.Ready) (line : Nat) (name : String) :
    Leaves Scoped Ready (s.openSubroutine line name) := by
  have closed := h.toScoped.close
  unfold openSubroutine
  refine (leaves_reserve closed line 0).bind ?_
  rintro _ rfl
  split
  · next scope symbols fresh =>
    obtain ⟨rfl, hscopes⟩ := SymbolTable.scope_insertSubroutine? fresh
    refine .ok ⟨⟨?_, ?_, fun p hp => ?_⟩, ⟨fun p hp => ?_, h.distinct⟩⟩
    · simp [hscopes, h.scopes]
    · simp [h.scopes]
    · obtain ⟨hscope, hlt⟩ := h.patches p hp
      refine ⟨hscope, ?_⟩
      simp only [List.length_append, List.length_singleton]
      exact Nat.lt_succ_of_lt hlt
    · exact Slot.word?_append (h.holds p hp) _
  · -- No subroutine is open now, though one was.
    exact .refused ⟨closed.scopes, closed.last, closed.patches⟩

theorem leaves_declareLabel (h : s.Ready) (line : Nat) (name : String) :
    Leaves Scoped Ready (s.declareLabel line name) := by
  have hscoped := h.toScoped
  unfold declareLabel
  split
  · exact .refused hscoped
  · refine (leaves_reserve hscoped line 0).bind ?_
    rintro _ rfl
    split
    · next symbols fresh =>
      obtain ⟨labels, -, -, rfl⟩ := SymbolTable.insertLabel?_eq_some_iff.1 fresh
      refine .ok ⟨⟨?_, h.last, h.patches⟩, ⟨h.holds, h.distinct⟩⟩
      rw [Array.size_setIfInBounds]
      exact h.scopes
    · exact .refused ⟨h.scopes, h.last, h.patches⟩

/-! ### Operands -/

@[simp]
theorem symbols_record (s : Assembler) (ps : List Patch) : (s.record ps).symbols = s.symbols := rfl

theorem record_record (s : Assembler) (ps qs : List Patch) :
    (s.record ps).record qs = s.record (ps ++ qs) := by
  simp only [record, List.append_assoc]

/-- Operands are taken as they are drafted, and each reference to a label leaves its patch behind.
Where one of them is refused, patches for the same subroutine are left. -/
theorem foldlM_takeOperand (s : Assembler) (line scope k n : Nat) (tokens : List String)
    (done : List Word) :
    (∃ os, tokens.mapM (Assembly.draftToken s.symbols line) = .ok os ∧
      (tokens.zipIdx done.length).foldlM (takeOperand line scope k n) (s, done) =
        .ok (s.record ((DraftInstruction.referencesFrom line done.length os).map
            (·.patch scope k n)),
          done ++ os.map DraftOperand.placeholder)) ∨
    ∃ e left, tokens.mapM (Assembly.draftToken s.symbols line) = .error e ∧
      (∀ p ∈ left, p.scope = scope ∧ p.slot.subroutine = k) ∧
      (tokens.zipIdx done.length).foldlM (takeOperand line scope k n) (s, done) =
        .error (.refused e, s.record left) := by
  induction tokens generalizing s done with
  | nil =>
    refine .inl ⟨[], rfl, ?_⟩
    simp [DraftInstruction.referencesFrom, record, pure, Except.pure]
  | cons token tokens ih =>
    rw [List.mapM_cons, List.zipIdx_cons, List.foldlM_cons, takeOperand]
    cases Assembly.draftToken s.symbols line token with
    | error e =>
      refine .inr ⟨e, [], rfl, by simp, ?_⟩
      simp [refuse, record, bind, Except.bind]
    | ok o =>
      -- The others start behind what this operand leaves: a word, and the patch of a label.
      cases o with
      | word w =>
        have hnext := ih s (done ++ [w])
        rw [List.length_append, List.length_singleton] at hnext
        rcases hnext with ⟨os, hos, hrest⟩ | ⟨e, left, he, hleft, hrest⟩
        · refine .inl ⟨.word w :: os, by rw [hos]; rfl, hrest.trans ?_⟩
          rw [DraftInstruction.referencesFrom_word, List.map_cons, List.append_assoc]
          rfl
        · exact .inr ⟨e, left, by rw [he]; rfl, hleft, hrest⟩
      | label name =>
        have hnext := ih (s.record [⟨line, scope, ⟨k, n, done.length⟩, name⟩]) (done ++ [0])
        rw [List.length_append, List.length_singleton, symbols_record] at hnext
        rcases hnext with ⟨os, hos, hrest⟩ | ⟨e, left, he, hleft, hrest⟩
        · refine .inl ⟨.label name :: os, by rw [hos]; rfl, hrest.trans ?_⟩
          rw [record_record, DraftInstruction.referencesFrom_label, List.map_cons, List.map_cons,
            List.append_assoc]
          rfl
        · refine .inr ⟨e, ⟨line, scope, ⟨k, n, done.length⟩, name⟩ :: left, by rw [he]; rfl,
            List.forall_mem_cons.2 ⟨⟨rfl, rfl⟩, hleft⟩, hrest.trans ?_⟩
          rw [record_record]
          rfl

/-- More patches for subroutines that are there. -/
theorem Scoped.record (h : s.Scoped) {left : List Patch}
    (hleft : ∀ p ∈ left, p.scope = p.slot.subroutine ∧ p.slot.subroutine < s.subroutines.length) :
    (s.record left).Scoped where
  scopes := h.scopes
  last := h.last
  patches := List.forall_mem_append.2 ⟨h.patches, hleft⟩

/-- Behind an open subroutine an instruction is written as it is drafted. A draft that is refused
leaves patches for that subroutine at most. -/
theorem emit_eq {k : Nat} {sub : Subroutine} (h : s.Scoped) (hscope : s.scope? = some k)
    (hsub : s.subroutines[k]? = some sub) (line : Nat) (mnemonic : String)
    (tokens : List String) :
    (∃ d, Assembly.draftInstruction s.symbols line mnemonic tokens = .ok d ∧
      s.emit line mnemonic tokens = do
        let next ← (s.record (d.references.map (·.patch k k sub.instructions.length))).reserve line
          d.instruction.size
        let subroutines ← next.demand (Slot.emit? next.subroutines k d.instruction)
        return { next with subroutines }) ∨
    ∃ e left, Assembly.draftInstruction s.symbols line mnemonic tokens = .error e ∧
      (∀ p ∈ left, p.scope = k ∧ p.slot.subroutine = k) ∧
      s.emit line mnemonic tokens = .error (.refused e, s.record left) := by
  have hlast : s.subroutines.length - 1 = k := by
    rw [← h.last k hscope, Nat.add_sub_cancel]
  have hnone : s.record [] = s := by simp only [record, List.append_nil]
  unfold emit Assembly.draftInstruction
  rw [hscope]
  cases Opcode.ofMnemonic? mnemonic with
  | none => exact .inr ⟨_, [], rfl, by simp, by rw [hnone]; rfl⟩
  | some opcode =>
    by_cases hcount : tokens.length = opcode.operandCount
    · simp only [hcount, if_true, hlast, hsub]
      rcases foldlM_takeOperand s line k k sub.instructions.length tokens [] with
        ⟨os, hos, htake⟩ | ⟨e, left, he, hleft, htake⟩
      · refine .inl ⟨.ofOperands line opcode os, by rw [hos]; rfl, ?_⟩
        rw [List.length_nil] at htake
        simp only [demand, htake, bind, Except.bind]
        rfl
      · refine .inr ⟨e, left, by rw [he]; rfl, hleft, ?_⟩
        rw [List.length_nil] at htake
        simp only [demand, htake, bind, Except.bind]
    · simp only [hcount, if_false]
      exact .inr ⟨_, [], rfl, by simp, by rw [hnone]; rfl⟩

/-- One more instruction brings a new slot for each of its references. -/
theorem Slotted.emit {k : Nat} {sub : Subroutine} {ts : List Subroutine} {d : DraftInstruction}
    (h : s.Slotted) (hsub : s.subroutines[k]? = some sub)
    (hts : Slot.emit? s.subroutines k d.instruction = some ts) (waits : d.Waits)
    (cursor : Nat) :
    Slotted { s.record (d.references.map (·.patch k k sub.instructions.length)) with
      cursor
      subroutines := ts } := by
  have hslots : (d.references.map (·.patch k k sub.instructions.length)).map Patch.slot =
      (d.references.map LabelReference.position).map (⟨k, sub.instructions.length, ·⟩) := by
    rw [List.map_map, List.map_map]
    rfl
  constructor
  · refine List.forall_mem_append.2 ⟨fun p hp => Slot.word?_of_emit? hts (h.holds p hp), ?_⟩
    intro p hp
    obtain ⟨r, hr, rfl⟩ := List.mem_map.1 hp
    exact (Slot.word?_new_of_emit? hts hsub r.position).trans (waits.zero r hr)
  · show ((s.patches ++ d.references.map _).map Patch.slot).Nodup
    rw [List.map_append, hslots, List.nodup_append]
    refine ⟨h.distinct, waits.apart.map fun a b same => congrArg Slot.operand same, ?_⟩
    -- The slots of the instruction were not there before it.
    rintro _ hold _ hnew rfl
    obtain ⟨p, hp, hslot⟩ := List.mem_map.1 hold
    obtain ⟨position, -, rfl⟩ := List.mem_map.1 hnew
    have hzero := h.holds p hp
    rw [hslot, Slot.word?_new hsub] at hzero
    cases hzero

/-- The patches of an instruction are recorded while its place is still empty. They are in scope at
once, and have their slots when it is written. -/
theorem leaves_emit (h : s.Ready) (line : Nat) (mnemonic : String) (tokens : List String) :
    Leaves Scoped Ready (s.emit line mnemonic tokens) := by
  cases hscope : s.scope? with
  | none =>
    unfold emit
    rw [hscope]
    exact .refused h.toScoped
  | some k =>
    have hk : k < s.subroutines.length := by
      rw [← h.last k hscope]
      exact Nat.lt_succ_self k
    have hsub := List.getElem?_eq_getElem hk
    generalize s.subroutines[k] = sub at hsub
    rcases emit_eq h.toScoped hscope hsub line mnemonic tokens with
      ⟨d, hd, hemit⟩ | ⟨e, left, -, hleft, hemit⟩
    · rw [hemit]
      have hpatches : (s.record (d.references.map (·.patch k k sub.instructions.length))).Scoped :=
        h.toScoped.record fun p hp => by
          obtain ⟨r, -, rfl⟩ := List.mem_map.1 hp
          exact ⟨rfl, hk⟩
      refine (leaves_reserve hpatches _ _).bind ?_
      rintro _ rfl
      obtain ⟨ts, hts⟩ := Slot.exists_emit? hk d.instruction
      have hlength : ts.length = s.subroutines.length := length_of_changeAt? hts
      refine (leaves_demand hts).bind ?_
      rintro _ rfl
      refine .ok ⟨⟨h.scopes.trans hlength.symm, fun scope hs => ?_, fun p hp => ?_⟩,
        h.toSlotted.emit hsub hts (Assembly.waits_of_draftInstruction hd) _⟩
      · exact (h.last scope hs).trans hlength.symm
      · exact hlength ▸ hpatches.patches p hp
    · rw [hemit]
      exact .refused (h.toScoped.record fun p hp => by
        obtain ⟨hscope, hslot⟩ := hleft p hp
        exact ⟨hscope.trans hslot.symm, hslot ▸ hk⟩)

/-- A line keeps what holds between two lines, and a refusal keeps scopes. -/
theorem leaves_step (h : s.Ready) (line : Line) : Leaves Scoped Ready (s.step line) := by
  unfold step
  refine (leaves_attempt h.toScoped _).bind fun statement _ => ?_
  cases statement with
  | constant name value => exact leaves_declareConstant h line.number name value
  | subroutine name => exact leaves_openSubroutine h line.number name
  | label name => exact leaves_declareLabel h line.number name
  | instruction mnemonic operands => exact leaves_emit h line.number mnemonic operands

/-- Whatever the lines, the first pass finds every index. -/
theorem leaves_read (lines : List Line) (base : Word) : Leaves Scoped Ready (read lines base) :=
  Leaves.foldlM (fun _ line h => leaves_step h line) lines (ready_start base)

/-- Of a line whose second operand is refused, the patch of the first is left. -/
example : (read [⟨1, ["main:"]⟩, ⟨2, ["cpl", "&end", "[x]"]⟩] 0x0900).state.patches =
    [⟨2, 0, ⟨0, 0, 0⟩, "end"⟩] := by
  decide +kernel

/-! ### Labels -/

/-- Patches that are still to come have other slots than those before them. -/
theorem Slotted.slot_notMem {before after : List Patch} (h : s.Slotted)
    (split : s.patches = before ++ after) : ∀ p ∈ after, p.slot ∉ before.map Patch.slot := by
  intro p hp hold
  have distinct := h.distinct
  rw [split, List.map_append] at distinct
  exact List.disjoint_of_nodup_append distinct hold (List.mem_map_of_mem hp)

/-- The state `t` differs from `s` in the slots of some patches, each of which holds the address of
its label. -/
structure Patched (s t : Assembler) (done : List Patch) : Prop where
  frame : t = { s with subroutines := t.subroutines }
  length : t.subroutines.length = s.subroutines.length
  resolved : ∀ p ∈ done, ∃ address, s.symbols.label? p.scope p.name = some address ∧
    p.slot.word? t.subroutines = some address
  others : ∀ slot, slot ∉ done.map Patch.slot →
    slot.word? t.subroutines = slot.word? s.subroutines

theorem Patched.scoped {t : Assembler} {done : List Patch} (h : Patched s t done)
    (hs : s.Scoped) : t.Scoped := by
  rw [h.frame]
  exact ⟨hs.scopes.trans h.length.symm, fun k hk => (hs.last k hk).trans h.length.symm,
    fun p hp => h.length.symm ▸ hs.patches p hp⟩

/-- The slots of patches that are still to come hold zero. -/
theorem Patched.zero {t : Assembler} {before after : List Patch} (h : Patched s t before)
    (hs : s.Slotted) (split : s.patches = before ++ after) :
    ∀ p ∈ after, p.slot.word? t.subroutines = some 0 := by
  intro p hp
  rw [h.others p.slot (hs.slot_notMem split p hp)]
  exact hs.holds p (split ▸ List.mem_append_right before hp)

/-- One more label is put in place, and no slot but its own changes. -/
theorem leaves_patchLabel {t : Assembler} {before after : List Patch} {p : Patch} (hs : s.Ready)
    (split : s.patches = before ++ p :: after) (ht : Patched s t before) :
    Leaves Scoped (fun u => Patched s u (before ++ [p])) (t.patchLabel p) := by
  have hnew := hs.toSlotted.slot_notMem split p List.mem_cons_self
  have hsymbols : t.symbols = s.symbols := by rw [ht.frame]
  unfold patchLabel
  rw [hsymbols]
  cases haddress : s.symbols.label? p.scope p.name with
  | none => exact .refused (ht.scoped hs.toScoped)
  | some address =>
    obtain ⟨us, hus⟩ :=
      Slot.exists_fill? (ht.zero hs.toSlotted split p List.mem_cons_self) address
    refine (leaves_demand hus).bind ?_
    rintro _ rfl
    refine .ok ⟨?_, (length_of_changeAt? hus).trans ht.length, ?_, fun slot hslot => ?_⟩
    · rw [ht.frame]
    · refine List.forall_mem_append.2 ⟨fun q hq => ?_, List.forall_mem_singleton.2 ?_⟩
      · -- What is in place already stands in another slot.
        obtain ⟨a, ha, hword⟩ := ht.resolved q hq
        refine ⟨a, ha, ?_⟩
        have hne : q.slot ≠ p.slot := fun same => hnew (same ▸ List.mem_map_of_mem hq)
        rw [Slot.word?_of_fill? hus, if_neg hne, hword]
      · exact ⟨address, haddress, by rw [Slot.word?_of_fill? hus, if_pos rfl]⟩
    · rw [List.map_append, List.mem_append, not_or, List.map_singleton, List.mem_singleton] at hslot
      rw [Slot.word?_of_fill? hus, if_neg hslot.2, ht.others slot hslot.1]

/-- The second pass finds every index, and puts one label after the other in place. -/
theorem leaves_patchLabels (hs : s.Ready) {before after : List Patch}
    (split : s.patches = before ++ after) :
    Leaves Scoped (fun t => Patched s t before) (s.patchLabels before) := by
  induction before using List.reverseRecOn generalizing after with
  | nil => exact .ok ⟨rfl, rfl, by simp, fun _ _ => rfl⟩
  | append_singleton before p ih =>
    rw [List.append_assoc, List.singleton_append] at split
    rw [patchLabels, List.foldlM_append]
    refine (ih split).bind fun t ht => ?_
    rw [List.foldlM_cons]
    exact (leaves_patchLabel hs split ht).bind fun u hu => .ok hu

end Assembler

end WordMachine
