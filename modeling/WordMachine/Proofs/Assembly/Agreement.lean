import WordMachine.Proofs.Assembly.Patches

namespace WordMachine

open Sequence Source

/-!
# Assembly with drafts and by indices

Both read the same lines in the same order, and what the one keeps in drafts the other keeps in a
list. So each state of the one is a state of the other, and both refuse for the same reasons.

* `Assembly.indexed` — the state by indices.
* `Assembler.Agrees` — both have a result, or both refuse for the same reason.
* `Assembler.agrees_read` and `Assembler.agrees_patchLabels` — the two passes.
* `Assembler.patches_stay_in_bounds` — assembly by indices never misses an index, keeps scopes and
  patches in order, and is `assemble`.
-/

/-! ### States -/

/-- The patches of the references of some instructions, of which the first has the index `n`. -/
def DraftInstruction.patches (scope k n : Nat) (ds : List DraftInstruction) : List Patch :=
  (ds.zipIdx n).flatMap fun (d, i) => d.references.map (·.patch scope k i)

/-- The patches of some subroutines, of which the first has the index `k`. -/
def DraftSubroutine.patches (k : Nat) (ds : List DraftSubroutine) : List Patch :=
  (ds.zipIdx k).flatMap fun (d, i) =>
    DraftInstruction.patches d.scope i 0 d.instructions.reverse

/-- The state by indices: subroutines as they stand, and all references in one list. The open scope
is that of the latest draft. -/
def Assembly.indexed (s : Assembly) : Assembler where
  cursor := s.cursor
  symbols := s.symbols
  constants := s.constants.toList
  subroutines := s.drafts.reverse.map DraftSubroutine.unresolved
  scope? := s.drafts.head?.map DraftSubroutine.scope
  patches := DraftSubroutine.patches 0 s.drafts.reverse

theorem DraftInstruction.patches_append (scope k : Nat) (ds : List DraftInstruction)
    (d : DraftInstruction) :
    patches scope k 0 (ds ++ [d]) =
      patches scope k 0 ds ++ d.references.map (·.patch scope k ds.length) := by
  simp [patches, List.zipIdx_append]

theorem DraftSubroutine.patches_append (ds : List DraftSubroutine) (d : DraftSubroutine) :
    patches 0 (ds ++ [d]) =
      patches 0 ds ++ DraftInstruction.patches d.scope ds.length 0 d.instructions.reverse := by
  simp [patches, List.zipIdx_append]

namespace Assembler

/-! ### Results and refusals -/

section Agrees

variable {α β γ δ : Type} {t : β → α} {x : Outcome α} {y : Except AssemblyError β}

/-- Both computations have a result, the same but for `t`, or both are refused for the same
reason. -/
inductive Agrees (t : β → α) : Outcome α → Except AssemblyError β → Prop where
  | ok (b : β) : Agrees t (.ok (t b)) (.ok b)
  | refused (e : AssemblyError) (s : Assembler) : Agrees t (.error (.refused e, s)) (.error e)

theorem Agrees.bind {u : δ → γ} {k : α → Outcome γ} {l : β → Except AssemblyError δ}
    (h : Agrees t x y) (hk : ∀ b, y = .ok b → Agrees u (k (t b)) (l b)) :
    Agrees u (x >>= k) (y >>= l) := by
  cases h with
  | ok b => exact hk b rfl
  | refused e s => exact .refused e s

/-- The same result with a function behind it. -/
theorem Agrees.map {u : δ → α} {g : β → δ} (h : Agrees t x y) (same : ∀ b, u (g b) = t b) :
    Agrees u x (y >>= fun b => pure (g b)) := by
  cases h with
  | ok b => exact same b ▸ .ok (g b)
  | refused e s => exact .refused e s

theorem Agrees.result {a : α} {b : β} (h : a = t b) : Agrees t (.ok a) (.ok b) :=
  h ▸ .ok b

theorem Agrees.mapError {y : Except AssemblyError α} (h : Agrees id x y) :
    x.mapError Prod.fst = y.mapError Stop.refused := by
  cases h with
  | ok b => rfl
  | refused e s => rfl

theorem agrees_attempt (s : Assembler) (y : Except AssemblyError β) :
    Agrees id (s.attempt y) y := by
  cases y with
  | ok b => exact .ok b
  | error e => exact .refused e s

theorem agrees_reserve {s : Assembler} {a : Assembly} (same : s.cursor = a.cursor)
    (line size : Nat) :
    Agrees (fun b => { s with cursor := b.cursor }) (s.reserve line size)
      (a.reserve line size) := by
  unfold reserve Assembly.reserve
  rw [same]
  split
  · exact .ok { a with cursor := a.cursor + size }
  · exact .refused _ _

end Agrees

/-! ### The first pass -/

variable {a : Assembly}

theorem agrees_declareConstant (a : Assembly) (line : Nat) (name value : String) :
    Agrees Assembly.indexed (a.indexed.declareConstant line name value)
      (a.declareConstant line name value) := by
  obtain ⟨cursor, symbols, constants, drafts⟩ := a
  unfold declareConstant Assembly.declareConstant
  cases drafts with
  | cons d rest =>
    rw [if_pos (by simp [Assembly.indexed])]
    exact .refused _ _
  | nil =>
    rw [if_neg (by simp [Assembly.indexed])]
    refine (agrees_attempt _ _).bind fun words _ => ?_
    refine (agrees_reserve rfl line _).bind fun b hb => ?_
    obtain ⟨-, rfl⟩ := Assembly.reserve_eq_ok_iff.1 hb
    simp only [Assembly.indexed, Assembly.address, address, id]
    cases symbols.insertConstant? name (UInt16.ofNat cursor) with
    | none => exact .refused _ _
    | some symbols => exact .result (by simp [Assembly.indexed])

theorem agrees_openSubroutine (a : Assembly) (line : Nat) (name : String) :
    Agrees Assembly.indexed (a.indexed.openSubroutine line name) (a.openSubroutine line name) := by
  obtain ⟨cursor, symbols, constants, drafts⟩ := a
  unfold openSubroutine Assembly.openSubroutine
  refine (agrees_reserve rfl line _).bind fun b hb => ?_
  obtain ⟨-, rfl⟩ := Assembly.reserve_eq_ok_iff.1 hb
  simp only [Assembly.indexed, Assembly.address, address]
  cases symbols.insertSubroutine? name (UInt16.ofNat cursor) with
  | none => exact .refused _ _
  | some opened =>
    obtain ⟨scope, symbols⟩ := opened
    refine .result ?_
    simp [Assembly.indexed, DraftSubroutine.patches_append, DraftSubroutine.unresolved,
      DraftInstruction.patches, close]

theorem agrees_declareLabel (a : Assembly) (line : Nat) (name : String) :
    Agrees Assembly.indexed (a.indexed.declareLabel line name) (a.declareLabel line name) := by
  obtain ⟨cursor, symbols, constants, drafts⟩ := a
  unfold declareLabel Assembly.declareLabel
  cases drafts with
  | nil => exact .refused _ _
  | cons d rest =>
    refine (agrees_reserve rfl line _).bind fun b hb => ?_
    obtain ⟨-, rfl⟩ := Assembly.reserve_eq_ok_iff.1 hb
    simp only [Assembly.indexed, Assembly.address, address]
    cases symbols.insertLabel? d.scope name (UInt16.ofNat cursor) with
    | none => exact .refused _ _
    | some symbols => exact .result rfl

/-- The latest draft is the last subroutine. -/
theorem getElem?_unresolved (draft : DraftSubroutine) (rest : List DraftSubroutine) :
    ((draft :: rest).reverse.map DraftSubroutine.unresolved)[rest.length]? =
      some draft.unresolved := by
  simp

/-- One more instruction of the latest draft is one more of the last subroutine. -/
theorem emit?_unresolved (draft : DraftSubroutine) (rest : List DraftSubroutine)
    (d : DraftInstruction) :
    Slot.emit? ((draft :: rest).reverse.map DraftSubroutine.unresolved) rest.length
        d.instruction =
      some (({ draft with instructions := d :: draft.instructions } :: rest).reverse.map
        DraftSubroutine.unresolved) := by
  have hlength : (rest.reverse.map DraftSubroutine.unresolved).length = rest.length := by simp
  rw [List.reverse_cons, List.map_append, List.map_singleton, ← hlength, Slot.emit?,
    changeAt?_append]
  simp [DraftSubroutine.unresolved]

theorem agrees_emit (h : a.indexed.Scoped) (line : Nat) (mnemonic : String)
    (tokens : List String) :
    Agrees Assembly.indexed (a.indexed.emit line mnemonic tokens)
      (a.emit line mnemonic tokens) := by
  obtain ⟨cursor, symbols, constants, drafts⟩ := a
  unfold Assembly.emit
  cases drafts with
  | nil => exact .refused _ _
  | cons draft rest =>
    -- The open scope is the index of the last subroutine.
    have hscope : draft.scope = rest.length := by
      have hlast := h.last draft.scope rfl
      simp only [Assembly.indexed, List.length_map, List.length_reverse, List.length_cons] at hlast
      omega
    have hopen := congrArg some hscope
    rcases emit_eq h hopen (getElem?_unresolved draft rest) line mnemonic tokens with
      ⟨d, hd, hemit⟩ | ⟨e, left, he, -, hemit⟩
    · have hd : Assembly.draftInstruction symbols line mnemonic tokens = .ok d := hd
      rw [hemit]
      simp only [hd]
      show Agrees _ (_ >>= _) (Assembly.reserve ⟨cursor, symbols, constants, _⟩ line _ >>= _)
      refine Agrees.bind (agrees_reserve rfl line _) fun b hb => ?_
      obtain ⟨-, rfl⟩ := Assembly.reserve_eq_ok_iff.1 hb
      simp only [Assembly.indexed, record, emit?_unresolved]
      refine .result ?_
      simp [Assembly.indexed, DraftSubroutine.patches_append, DraftInstruction.patches_append,
        DraftSubroutine.unresolved, hscope]
    · have he : Assembly.draftInstruction symbols line mnemonic tokens = .error e := he
      rw [hemit]
      simp only [he]
      exact .refused _ _

theorem agrees_step (h : a.indexed.Scoped) (line : Line) :
    Agrees Assembly.indexed (a.indexed.step line) (a.step line) := by
  refine (agrees_attempt _ _).bind fun statement _ => ?_
  cases statement with
  | constant name value => exact agrees_declareConstant a line.number name value
  | subroutine name => exact agrees_openSubroutine a line.number name
  | label name => exact agrees_declareLabel a line.number name
  | instruction mnemonic operands => exact agrees_emit h line.number mnemonic operands

theorem agrees_foldlM_step (h : a.indexed.Ready) (lines : List Line) :
    Agrees Assembly.indexed (lines.foldlM step a.indexed) (lines.foldlM Assembly.step a) := by
  induction lines generalizing a with
  | nil => exact .ok a
  | cons line lines ih =>
    rw [List.foldlM_cons, List.foldlM_cons]
    have hready := leaves_step h line
    have hstep := agrees_step h.toScoped line
    generalize a.indexed.step line = x at hready hstep
    generalize a.step line = y at hstep
    cases hstep with
    | ok b => exact ih (hready.of_eq_ok rfl)
    | refused e s => exact .refused e s

/-- The first pass. -/
theorem agrees_read (lines : List Line) (base : Word) :
    Agrees Assembly.indexed (read lines base) (lines.foldlM Assembly.step (Assembly.start base)) :=
  agrees_foldlM_step (a := Assembly.start base) (ready_start base) lines

/-! ### The second pass -/

theorem patchLabels_append (s : Assembler) (ps qs : List Patch) :
    s.patchLabels (ps ++ qs) = s.patchLabels ps >>= fun t => t.patchLabels qs :=
  List.foldlM_append

/-- An assembler with other subroutines. -/
def withSubroutines (s : Assembler) (subroutines : List Subroutine) : Assembler :=
  { s with subroutines }

/-- The label of a reference is put in place, if there is such a label. -/
theorem agrees_patchLabel (s : Assembler) (before after : List Subroutine) (name? : Option String)
    (address : Word) (done rest : List Instruction) {i : Instruction} {r : LabelReference}
    (inside : r.position < i.operands.length) (scope : Nat) :
    Agrees (fun j => s.withSubroutines (before ++ ⟨name?, address, done ++ j :: rest⟩ :: after))
      (patchLabel (s.withSubroutines (before ++ ⟨name?, address, done ++ i :: rest⟩ :: after))
        (r.patch scope before.length done.length))
      (DraftInstruction.resolveReference s.symbols scope i r) := by
  have hfill (w : Word) : Slot.fill? (before ++ ⟨name?, address, done ++ i :: rest⟩ :: after)
      ⟨before.length, done.length, r.position⟩ w =
        some (before ++ ⟨name?, address,
          done ++ { i with operands := i.operands.set r.position w } :: rest⟩ :: after) := by
    simp [Slot.fill?, changeAt?, List.getElem?_eq_getElem inside]
  unfold patchLabel DraftInstruction.resolveReference
  simp only [withSubroutines, LabelReference.patch, hfill]
  cases s.symbols.label? scope r.name with
  | none => exact .refused _ _
  | some w => exact .ok { i with operands := i.operands.set r.position w }

section Labels

variable {s : Assembler}

/-- The labels of an instruction. -/
theorem agrees_patchLabels_instruction (before after : List Subroutine) (name? : Option String)
    (address : Word) (done rest : List Instruction) (scope : Nat) {d : DraftInstruction}
    (waits : d.Waits) :
    Agrees (fun i => s.withSubroutines (before ++ ⟨name?, address, done ++ i :: rest⟩ :: after))
      (patchLabels
        (s.withSubroutines (before ++ ⟨name?, address, done ++ d.instruction :: rest⟩ :: after))
        (d.references.map (·.patch scope before.length done.length)))
      (d.resolve s.symbols scope) := by
  have inside := waits.position_lt
  obtain ⟨i, references⟩ := d
  rw [DraftInstruction.resolve]
  clear waits
  induction references generalizing i with
  | nil => exact .ok i
  | cons r references ih =>
    rw [List.forall_mem_cons] at inside
    refine (agrees_patchLabel s before after name? address done rest inside.1 scope).bind
      fun j hj => ih j fun r hr => ?_
    obtain ⟨w, -, rfl⟩ := DraftInstruction.resolveReference_eq_ok_iff.1 hj
    exact (inside.2 r hr).trans_eq List.length_set.symm

/-- The labels of the instructions of a subroutine. -/
theorem agrees_patchLabels_instructions (before after : List Subroutine) (name? : Option String)
    (address : Word) (done : List Instruction) (scope : Nat) {ds : List DraftInstruction}
    (waits : ∀ d ∈ ds, d.Waits) :
    Agrees (fun is => s.withSubroutines (before ++ ⟨name?, address, done ++ is⟩ :: after))
      (patchLabels
        (s.withSubroutines
          (before ++ ⟨name?, address, done ++ ds.map DraftInstruction.instruction⟩ :: after))
        (DraftInstruction.patches scope before.length done.length ds))
      (ds.mapM (DraftInstruction.resolve s.symbols scope)) := by
  induction ds generalizing done with
  | nil => exact .ok []
  | cons d ds ih =>
    rw [List.forall_mem_cons] at waits
    rw [DraftInstruction.patches, List.zipIdx_cons, List.flatMap_cons, patchLabels_append,
      List.mapM_cons]
    refine (agrees_patchLabels_instruction before after name? address done _ scope waits.1).bind
      fun i _ => ?_
    have hrest := ih (done ++ [i]) waits.2
    simp only [List.length_append, List.length_singleton, List.append_assoc,
      List.singleton_append] at hrest
    exact hrest.map fun is => rfl

/-- The labels of subroutines. -/
theorem agrees_patchLabels_subroutines (done : List Subroutine) {ds : List DraftSubroutine}
    (waits : ∀ d ∈ ds, ∀ i ∈ d.instructions, i.Waits) :
    Agrees (fun ss => s.withSubroutines (done ++ ss))
      (patchLabels (s.withSubroutines (done ++ ds.map DraftSubroutine.unresolved))
        (DraftSubroutine.patches done.length ds))
      (ds.mapM (DraftSubroutine.resolve s.symbols)) := by
  induction ds generalizing done with
  | nil => exact .ok []
  | cons d ds ih =>
    rw [List.forall_mem_cons] at waits
    rw [DraftSubroutine.patches, List.zipIdx_cons, List.flatMap_cons, patchLabels_append,
      List.mapM_cons]
    have hfirst : Agrees
        (fun t => s.withSubroutines (done ++ t :: ds.map DraftSubroutine.unresolved))
        (patchLabels
          (s.withSubroutines (done ++ d.unresolved :: ds.map DraftSubroutine.unresolved))
          (DraftInstruction.patches d.scope done.length 0 d.instructions.reverse))
        (d.resolve s.symbols) :=
      (agrees_patchLabels_instructions done _ (some d.name) d.address [] d.scope
        fun i hi => waits.1 i (List.mem_reverse.1 hi)).map fun is => rfl
    refine hfirst.bind fun t _ => ?_
    have hrest := ih (done ++ [t]) waits.2
    simp only [List.length_append, List.length_singleton, List.append_assoc,
      List.singleton_append] at hrest
    exact hrest.map fun ss => rfl

end Labels

/-- The second pass. -/
theorem agrees_patchLabels
    (waits : ∀ d ∈ a.drafts, ∀ i ∈ d.instructions, i.Waits) :
    Agrees (a.indexed.close.withSubroutines) (a.indexed.close.patchLabels a.indexed.patches)
      a.resolve :=
  agrees_patchLabels_subroutines [] fun d hd => waits d (List.mem_reverse.1 hd)

/-! ### Whole programs -/

/-- Behind the first pass all references wait. -/
theorem waits_of_foldlM_step {lines : List Line} {base : Word}
    (h : lines.foldlM Assembly.step (Assembly.start base) = .ok a) :
    ∀ d ∈ a.drafts, ∀ i ∈ d.instructions, i.Waits := by
  refine Assembly.run_induction (P := fun a => ∀ d ∈ a.drafts, ∀ i ∈ d.instructions, i.Waits)
    ?_ h (by simp [Assembly.start])
  intro a line b hline ha
  cases hline with
  | constant kind first spells room fresh => exact ha
  | subroutine kind room fresh => exact List.forall_mem_cons.2 ⟨by simp, ha⟩
  | label kind inside room fresh => exact ha
  | instruction kind inside drafts room =>
    rw [inside, List.forall_mem_cons] at ha
    have waits := Assembly.waits_of_draftInstruction drafts
    exact List.forall_mem_cons.2 ⟨List.forall_mem_cons.2 ⟨waits, ha.1⟩, ha.2⟩

/-- The program behind both passes. -/
theorem agrees_finish
    (waits : ∀ d ∈ a.drafts, ∀ i ∈ d.instructions, i.Waits) :
    Agrees id (a.indexed.close.patchLabels a.indexed.patches >>= finish) a.finish := by
  refine (agrees_patchLabels waits).bind fun ss hss => ?_
  -- The last subroutine is that of the latest draft.
  have hheads : ss.map (fun t => (t.name?, t.address)) =
      a.drafts.reverse.map fun d => (some d.name, d.address) := by
    refine map_eq_of_forall₂ (fun d t hdt => ?_) (mapM_eq_ok_iff.1 hss)
    exact Prod.ext (DraftSubroutine.name?_of_resolve hdt)
      (DraftSubroutine.sameShape_of_resolve hdt).address
  have hlast := congrArg List.getLast? hheads
  rw [List.getLast?_map] at hlast
  unfold finish
  cases drafts : a.drafts with
  | nil =>
    rw [drafts] at hlast
    have hnone : ss.getLast? = none := Option.map_eq_none_iff.1 hlast
    simp only [withSubroutines, hnone]
    exact .refused _ _
  | cons last rest =>
    rw [drafts, List.reverse_cons, List.map_append, List.map_singleton,
      List.getLast?_concat] at hlast
    obtain ⟨t, ht, heq⟩ := Option.map_eq_some_iff.1 hlast
    obtain ⟨hname, haddress⟩ := Prod.mk.inj heq
    simp only [withSubroutines, ht, hname, haddress, Option.some.injEq]
    split
    · exact .ok (⟨a.constants.toList, ss, last.address⟩ : Program)
    · exact .refused _ _

/-- Both passes and the end. -/
theorem agrees_assemble (lines : List Line) (base : Word) :
    Agrees id (Assembler.assemble lines base) (WordMachine.assemble lines base) :=
  (agrees_read lines base).bind fun _ ha => agrees_finish (waits_of_foldlM_step ha)

/-- **Patches stay in bounds.** Assembly by indices keeps its scopes and patches in order in every
state, those included that a refusal leaves behind. Behind the first pass each patch has a slot for
itself, and when its turn comes in the second pass, this slot still holds zero, while the slots of
the patches before it hold the addresses of their labels and no other slot has changed. No index is
ever missing, and the program or the refusal is that of `assemble`. -/
theorem patches_stay_in_bounds (lines : List Line) (base : Word) :
    (read lines base).state.Scoped ∧
    (∀ s, read lines base = .ok s →
      s.Slotted ∧
      ∀ before after, s.patches = before ++ after →
        (s.close.patchLabels before).state.Scoped ∧
        ∀ t, s.close.patchLabels before = .ok t →
          Patched s.close t before ∧ ∀ p ∈ after, p.slot.word? t.subroutines = some 0) ∧
    (∀ s, Assembler.assemble lines base ≠ .error (.outOfBounds, s)) ∧
    (Assembler.assemble lines base).mapError Prod.fst =
      (WordMachine.assemble lines base).mapError Stop.refused := by
  have agrees := agrees_assemble lines base
  refine ⟨(leaves_read lines base).state fun s h => h.toScoped, fun s hs => ?_, ?_,
    agrees.mapError⟩
  · have ready := (leaves_read lines base).of_eq_ok hs
    refine ⟨ready.toSlotted, fun before after split => ?_⟩
    have closed : s.close.Ready := ⟨ready.toScoped.close, ⟨ready.holds, ready.distinct⟩⟩
    have leaves := leaves_patchLabels closed split
    refine ⟨leaves.state fun t ht => ht.scoped closed.toScoped, fun t ht => ?_⟩
    have patched := leaves.of_eq_ok ht
    exact ⟨patched, patched.zero closed.toSlotted split⟩
  · rintro s h
    rw [h] at agrees
    cases agrees

end Assembler

end WordMachine
