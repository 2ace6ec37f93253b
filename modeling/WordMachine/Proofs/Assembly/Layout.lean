import WordMachine.Proofs.Assembly.Step
import WordMachine.Proofs.Shape
import WordMachine.Proofs.SymbolTable

namespace WordMachine

open Sequence SymbolTable

/-!
# Where assembly puts a program

The cursor counts the words laid out so far, and every word is laid out where the cursor stands. So
between two lines the constants and subroutines read so far fill the addresses from the base up to
the cursor, and at the end the whole program fills one stretch.

* `Assembly.LaidOut` and `Assembly.Named` — what holds between two lines, of addresses and of names.
* `drafts_of_assemble` — how a program comes from the state behind the last line.
* `laidOut_of_assemble`, `main_of_assemble`, `names_of_assemble` — what follows for a program.
* `assemble_fills_addresses` — all of it in terms of numbers.
-/

/-! ### Resolving labels -/

/-- A draft as it stands, with zeros in place of labels. -/
def DraftSubroutine.unresolved (d : DraftSubroutine) : Subroutine :=
  ⟨some d.name, d.address, d.instructions.reverse.map DraftInstruction.instruction⟩

/-- Putting addresses in place keeps an instruction in shape. -/
theorem DraftInstruction.sameShape_of_resolve {symbols : SymbolTable} {scope : Nat}
    {d : DraftInstruction} {i : Instruction} (h : d.resolve symbols scope = .ok i) :
    d.instruction.SameShape i := by
  -- Each reference sets one operand, so no step changes their number.
  refine foldlM_induction (P := d.instruction.SameShape) ?_ h ⟨rfl, rfl⟩
  intro i r j hstep hshape
  unfold resolveReference at hstep
  split at hstep
  · cases hstep
    exact ⟨hshape.opcode, (List.length_set).trans hshape.count⟩
  · cases hstep

theorem DraftSubroutine.name?_of_resolve {symbols : SymbolTable} {d : DraftSubroutine}
    {s : Subroutine} (h : d.resolve symbols = .ok s) : s.name? = some d.name := by
  obtain ⟨is, -, hs⟩ := bind_eq_ok_iff.1 h
  cases hs
  rfl

theorem DraftSubroutine.sameShape_of_resolve {symbols : SymbolTable} {d : DraftSubroutine}
    {s : Subroutine} (h : d.resolve symbols = .ok s) : d.unresolved.SameShape s := by
  obtain ⟨is, his, hs⟩ := bind_eq_ok_iff.1 h
  cases hs
  refine ⟨rfl, ?_⟩
  rw [unresolved, List.forall₂_map_left_iff]
  exact (mapM_eq_ok_iff.1 his).imp fun _ _ => DraftInstruction.sameShape_of_resolve

/-! ### The words that a line adds -/

/-- The cells of a constant are its words at consecutive addresses. -/
theorem Assembly.map_constantsOf (name : String) (a : Word) (ws : List Word) :
    (constantsOf name a ws).map (fun c => (c.address, c.value)) = placed a ws := by
  rw [constantsOf]
  split
  · next h => rw [h, List.map_nil]
  · next h =>
    rw [h, List.map_cons, List.map_map]
    simp [Function.comp_def]

theorem Assembly.length_constantsOf (name : String) (a : Word) (ws : List Word) :
    (constantsOf name a ws).length = ws.length := by
  have h := congrArg List.length (map_constantsOf name a ws)
  rwa [List.length_map, length_placed] at h

theorem Assembly.value_constantsOf (name : String) (a : Word) (ws : List Word) :
    (constantsOf name a ws).map Constant.value = ws := by
  -- Only the first word of a text has the name, so values are read off the cells.
  have values : (constantsOf name a ws).map Constant.value =
      ((constantsOf name a ws).map fun c => (c.address, c.value)).map Prod.snd := by
    rw [List.map_map]
    rfl
  rw [values, map_constantsOf, placed, List.map_map]
  exact List.zipIdx_map_fst 0 ws

/-- An accepted instruction carries the operands that its opcode takes. -/
theorem Assembly.wellFormed_of_draftInstruction {symbols : SymbolTable} {line : Nat}
    {mnemonic : String} {tokens : List String} {d : DraftInstruction}
    (h : draftInstruction symbols line mnemonic tokens = .ok d) : d.instruction.WellFormed := by
  obtain ⟨opcode, operands, -, hcount, hoperands, rfl⟩ := draftInstruction_eq_ok_iff.1 h
  show (operands.map DraftOperand.placeholder).length = opcode.operandCount
  rw [List.length_map, ← hoperands.length_eq, hcount]

/-! ### Addresses between two lines -/

namespace Assembly

/-- The program read so far, with zeros in place of labels. Its entry is not known yet and counts as
zero. -/
def unresolved (s : Assembly) : Program :=
  ⟨s.constants.toList, s.drafts.reverse.map DraftSubroutine.unresolved, 0⟩

/-- The program read so far fills the addresses from `base` up to the cursor. -/
structure LaidOut (base : Word) (s : Assembly) : Prop where
  program : s.unresolved.LaidOut base
  cursor_eq : s.cursor = base.toNat + s.unresolved.size

variable {base : Word} {s s' : Assembly} {line : Source.Line}

theorem LaidOut.address_eq (h : s.LaidOut base) :
    s.address = base + UInt16.ofNat s.unresolved.size := by
  rw [address, h.cursor_eq, UInt16.ofNat_add, UInt16.ofNat_toNat]

/-- Where there is room, the next free address is not `haltAddress`. -/
theorem HasRoom.address_ne {n : Nat} (room : s.HasRoom n) : s.address ≠ haltAddress := by
  have hlt : s.cursor < 65535 := room.1
  intro h
  have hcursor : (UInt16.ofNat s.cursor).toNat = 65535 := congrArg UInt16.toNat h
  rw [UInt16.toNat_ofNat'] at hcursor
  omega

theorem laidOut_start (base : Word) : (start base).LaidOut base where
  program := Program.laidOut_nil
  cursor_eq := rfl

/-- The words of a constant stand behind those of the constants before it. -/
theorem LaidOut.constant (h : s.LaidOut base) (first : s.drafts = []) (name : String)
    {words : List Word} (room : s.HasRoom words.length) (symbols : SymbolTable) :
    LaidOut base { s with
      cursor := s.cursor + words.length
      symbols
      constants := s.constants ++ constantsOf name s.address words } := by
  -- No subroutine is open yet, so the program ends with its constants.
  have now : s.unresolved = ⟨s.constants.toList, [], 0⟩ := by rw [unresolved, first]; rfl
  have next : unresolved { s with
      cursor := s.cursor + words.length
      symbols
      constants := s.constants ++ constantsOf name s.address words } =
        ⟨s.constants.toList ++ constantsOf name s.address words, [], 0⟩ := by
    rw [unresolved, first, Array.toList_appendList]
    rfl
  have hroom : s.cursor + words.length ≤ haltAddress.toNat := room.2
  have haddress := h.address_eq
  obtain ⟨hprogram, hcursor⟩ := h
  rw [now] at hprogram hcursor haddress
  have hcursor : s.cursor = base.toNat + s.constants.toList.length := hcursor
  constructor
  · rw [next]
    refine hprogram.append_constants ?_ ?_
    · rw [map_constantsOf, value_constantsOf, haddress]
      rfl
    · rw [length_constantsOf]
      omega
  · rw [next, Program.size_eq, List.length_append, length_constantsOf]
    show s.cursor + words.length = _ + (_ + 0)
    omega

/-- A subroutine opens where the cursor stands, and takes no words. -/
theorem LaidOut.subroutine (h : s.LaidOut base) (name : String) (scope : Nat) (room : s.HasRoom 0)
    (symbols : SymbolTable) :
    LaidOut base { s with symbols, drafts := ⟨name, s.address, scope, []⟩ :: s.drafts } := by
  have next : unresolved { s with symbols, drafts := ⟨name, s.address, scope, []⟩ :: s.drafts } =
      ⟨s.constants.toList,
        s.drafts.reverse.map DraftSubroutine.unresolved ++ [⟨some name, s.address, []⟩], 0⟩ := by
    rw [unresolved, List.reverse_cons, List.map_append]
    rfl
  have hroom : s.cursor ≤ haltAddress.toNat := room.2
  have haddress := h.address_eq
  obtain ⟨hprogram, hcursor⟩ := h
  rw [unresolved] at hprogram hcursor haddress
  constructor
  · rw [next, Program.laidOut_append_iff, ← hcursor]
    exact ⟨hprogram, by simp [Subroutine.WellFormed], haddress, room.address_ne, hroom⟩
  · rw [next, Program.size_append]
    exact hcursor

/-- An instruction stands behind those before it in the open subroutine. -/
theorem LaidOut.instruction (h : s.LaidOut base) {draft : DraftSubroutine}
    {rest : List DraftSubroutine} (inside : s.drafts = draft :: rest) {d : DraftInstruction}
    (wf : d.instruction.WellFormed) (room : s.HasRoom d.instruction.size) :
    LaidOut base { s with
      cursor := s.cursor + d.instruction.size
      drafts := { draft with instructions := d :: draft.instructions } :: rest } := by
  -- Drafts are kept latest first: the open subroutine is the last of the program, and nothing
  -- stands behind it that its growth could move.
  have now : s.unresolved = ⟨s.constants.toList,
      rest.reverse.map DraftSubroutine.unresolved ++ [draft.unresolved], 0⟩ := by
    rw [unresolved, inside, List.reverse_cons, List.map_append]
    rfl
  have next : unresolved { s with
      cursor := s.cursor + d.instruction.size
      drafts := { draft with instructions := d :: draft.instructions } :: rest } =
        ⟨s.constants.toList, rest.reverse.map DraftSubroutine.unresolved ++
          [{ draft.unresolved with
            instructions := draft.unresolved.instructions ++ [d.instruction] }], 0⟩ := by
    rw [unresolved, List.reverse_cons, List.map_append]
    simp [DraftSubroutine.unresolved]
  have longer : Subroutine.size { draft.unresolved with
      instructions := draft.unresolved.instructions ++ [d.instruction] } =
        draft.unresolved.size + d.instruction.size := by
    simp [Subroutine.size_eq_sum]
  have hroom : s.cursor + d.instruction.size ≤ haltAddress.toNat := room.2
  obtain ⟨hprogram, hcursor⟩ := h
  rw [now] at hprogram
  rw [now, Program.size_append] at hcursor
  obtain ⟨hbefore, hwf, haddress, hne, -⟩ := Program.laidOut_append_iff.1 hprogram
  constructor
  · rw [next, Program.laidOut_append_iff, longer]
    refine ⟨hbefore, ?_, haddress, hne, by omega⟩
    exact List.forall_mem_append.2 ⟨hwf, List.forall_mem_singleton.2 wf⟩
  · rw [next, Program.size_append, longer]
    show s.cursor + d.instruction.size = _
    omega

/-- Every accepted line is laid out behind the lines before it. -/
theorem LaidOut.reads (hline : s.Reads line s') (h : s.LaidOut base) : s'.LaidOut base := by
  cases hline with
  | constant kind first spells room fresh => exact h.constant first _ room _
  | subroutine kind room fresh => exact h.subroutine _ _ room _
  | label kind inside room fresh => exact ⟨h.program, h.cursor_eq⟩
  | instruction kind inside drafts room =>
    exact h.instruction inside (wellFormed_of_draftInstruction drafts) room

/-! ### Names between two lines -/

/-- The symbol table knows the subroutines read so far, each by a name of its own. -/
structure Named (s : Assembly) : Prop where
  subroutines : s.symbols.subroutines = s.drafts.map fun d => (d.name, d.address)
  distinct : (s.drafts.map DraftSubroutine.name).Nodup

theorem named_start (base : Word) : (start base).Named where
  subroutines := rfl
  distinct := List.nodup_nil

theorem Named.reads (hline : s.Reads line s') (h : s.Named) : s'.Named := by
  obtain ⟨hsubroutines, hdistinct⟩ := h
  cases hline with
  | constant kind first spells room fresh =>
    obtain ⟨-, rfl⟩ := insertConstant?_eq_some_iff.1 fresh
    exact ⟨hsubroutines, hdistinct⟩
  | @subroutine name scope symbols kind room fresh =>
    obtain ⟨hnone, -, rfl⟩ := insertSubroutine?_eq_some_iff.1 fresh
    -- The table refuses the names it knows, which are those of all drafts.
    have hnew : name ∉ s.drafts.map DraftSubroutine.name := by
      rw [subroutine?, hsubroutines, List.lookup_eq_none_iff] at hnone
      intro hmem
      obtain ⟨d, hd, hname⟩ := List.mem_map.1 hmem
      exact bne_iff_ne.1 (hnone (d.name, d.address) (List.mem_map_of_mem hd)) hname.symm
    exact ⟨by rw [hsubroutines]; rfl, List.nodup_cons.2 ⟨hnew, hdistinct⟩⟩
  | label kind inside room fresh =>
    obtain ⟨labels, -, -, rfl⟩ := insertLabel?_eq_some_iff.1 fresh
    exact ⟨hsubroutines, hdistinct⟩
  | instruction kind inside drafts room =>
    rw [inside] at hsubroutines hdistinct
    exact ⟨hsubroutines, hdistinct⟩

end Assembly

/-! ### Assembled programs -/

section Assembled

variable {lines : List Source.Line} {base : Word} {p : Program}

/-- A program comes from the state behind the last line by putting labels in place. -/
theorem drafts_of_assemble (h : assemble lines base = .ok p) :
    ∃ (s : Assembly) (last : DraftSubroutine) (rest : List DraftSubroutine),
      s.LaidOut base ∧ s.Named ∧ s.drafts = last :: rest ∧ last.name = mainName ∧
        p.constants = s.constants.toList ∧ p.entry = last.address ∧
        List.Forall₂ (fun d t => d.resolve s.symbols = .ok t) s.drafts.reverse p.subroutines := by
  obtain ⟨s, hrun, hfinish⟩ := bind_eq_ok_iff.1 h
  obtain ⟨subroutines, last, rest, hresolve, inside, hmain, rfl⟩ :=
    Assembly.finish_eq_ok_iff.1 hfinish
  refine ⟨s, last, rest, ?_, ?_, inside, hmain, rfl, rfl, mapM_eq_ok_iff.1 hresolve⟩
  · exact Assembly.run_induction Assembly.LaidOut.reads hrun (Assembly.laidOut_start base)
  · exact Assembly.run_induction Assembly.Named.reads hrun (Assembly.named_start base)

theorem laidOut_of_assemble (h : assemble lines base = .ok p) : p.LaidOut base := by
  obtain ⟨s, last, rest, hs, -, -, -, hconstants, -, hresolve⟩ := drafts_of_assemble h
  refine hs.program.of_sameShape (by rw [hconstants]; rfl) ?_
  rw [Assembly.unresolved, List.forall₂_map_left_iff]
  exact hresolve.imp fun _ _ => DraftSubroutine.sameShape_of_resolve

/-- The names of subroutines with their addresses are those that the text declares. -/
theorem heads_of_assemble (h : assemble lines base = .ok p) :
    ∃ (s : Assembly) (last : DraftSubroutine) (rest : List DraftSubroutine),
      s.Named ∧ s.drafts = last :: rest ∧ last.name = mainName ∧ p.entry = last.address ∧
        p.subroutines.map (fun s => (s.name?, s.address)) =
          s.drafts.reverse.map fun d => (some d.name, d.address) := by
  obtain ⟨s, last, rest, -, hnamed, inside, hmain, -, hentry, hresolve⟩ := drafts_of_assemble h
  refine ⟨s, last, rest, hnamed, inside, hmain, hentry, ?_⟩
  refine map_eq_of_forall₂ ?_ hresolve
  intro d t hdt
  have hname := DraftSubroutine.name?_of_resolve hdt
  have haddress := (DraftSubroutine.sameShape_of_resolve hdt).address
  exact Prod.ext hname haddress

/-- A run starts at the last subroutine, which is named `main`. -/
theorem main_of_assemble (h : assemble lines base = .ok p) :
    ∃ last, p.main? = some last ∧ last.name? = some mainName ∧ p.entry = last.address := by
  obtain ⟨s, last, rest, -, inside, hmain, hentry, hheads⟩ := heads_of_assemble h
  -- The latest draft is the last subroutine.
  have hlast := congrArg List.getLast? hheads
  rw [inside, List.reverse_cons, List.map_append, List.getLast?_map, List.map_singleton,
    List.getLast?_concat] at hlast
  obtain ⟨t, ht, heq⟩ := Option.map_eq_some_iff.1 hlast
  obtain ⟨hname, haddress⟩ := Prod.mk.inj heq
  exact ⟨t, ht, by rw [hname, hmain], by rw [hentry, haddress]⟩

/-- Every subroutine has a name, and no two have the same. -/
theorem names_of_assemble (h : assemble lines base = .ok p) :
    ∃ names : List String, p.subroutines.map Subroutine.name? = names.map some ∧ names.Nodup := by
  obtain ⟨s, last, rest, hnamed, -, -, -, hheads⟩ := heads_of_assemble h
  refine ⟨s.drafts.reverse.map DraftSubroutine.name, ?_, ?_⟩
  · have hnames := congrArg (List.map Prod.fst) hheads
    rw [List.map_map, List.map_map] at hnames
    rw [List.map_map]
    exact hnames
  · rw [List.map_reverse, List.nodup_reverse]
    exact hnamed.distinct

/-- **Address layout.** An assembled program occupies the addresses from the base on, one after the
other and without wrapping around, and ends below `haltAddress`. Each subroutine stands behind the
constants and the subroutines before it, every instruction has the operands that its opcode takes,
the names of subroutines are distinct, and a run starts at the last one, which is `main`. -/
theorem assemble_fills_addresses (h : assemble lines base = .ok p) :
    p.image.map (fun cell => cell.1.toNat) = List.range' base.toNat p.size ∧
      base.toNat + p.size ≤ haltAddress.toNat ∧
      (∀ before s after, p.subroutines = before ++ s :: after →
        s.address.toNat =
            base.toNat + p.constants.length + (before.map Subroutine.size).sum ∧
          s.address.toNat < haltAddress.toNat) ∧
      (∀ s ∈ p.subroutines, ∀ i ∈ s.instructions,
        i.operands.length = i.opcode.operandCount) ∧
      (∃ names : List String,
        p.subroutines.map Subroutine.name? = names.map some ∧ names.Nodup) ∧
      ∃ last, p.subroutines.getLast? = some last ∧ last.name? = some mainName ∧
        p.entry = last.address := by
  have hlaid := laidOut_of_assemble h
  refine ⟨hlaid.toNat_fst_image, hlaid.fits, ?_, hlaid.wellFormed, names_of_assemble h,
    main_of_assemble h⟩
  intro before s after hsplit
  obtain ⟨haddress, hend⟩ := hlaid.toNat_address hsplit
  have hne : s.address ≠ haltAddress := hlaid.below s (by simp [hsplit])
  have hne : s.address.toNat ≠ haltAddress.toNat := fun heq => hne (UInt16.toNat_inj.1 heq)
  exact ⟨haddress, by omega⟩

/-- A string, an empty subroutine and one that ends at the last address before `haltAddress`. -/
def brimful : List Source.Line :=
  [⟨1, ["s", "=", "\"a\""]⟩, ⟨2, ["empty:"]⟩, ⟨3, ["main:"]⟩, ⟨4, ["nop"]⟩, ⟨5, ["ret"]⟩]

theorem assemble_brimful :
    assemble brimful 0xFFFB = .ok
      ⟨[⟨some "s", 0xFFFB, 0x61⟩, ⟨none, 0xFFFC, 0⟩],
        [⟨some "empty", 0xFFFD, []⟩, ⟨some "main", 0xFFFD, [⟨.nop, []⟩, ⟨.ret, []⟩]⟩], 0xFFFD⟩ := by
  decide +kernel

theorem assemble_fills_addresses_brimful :
    ∃ p, assemble brimful 0xFFFB = .ok p ∧
      p.image.map (fun cell => cell.1.toNat) = [0xFFFB, 0xFFFC, 0xFFFD, 0xFFFE] :=
  ⟨_, assemble_brimful, (assemble_fills_addresses assemble_brimful).1⟩

end Assembled

end WordMachine
