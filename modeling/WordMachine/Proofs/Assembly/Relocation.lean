import WordMachine.Proofs.Assembly.Literals

namespace WordMachine

open Sequence Source

/-!
# Relocation

A text that assembles at a base assembles at any lower one, to the same program further down. What
moves is what is an address: those of constants and subroutines, the entry, and the operand words
that come from symbols. A literal stays as it is, even if it looks like an address.

* `Source.Operand.isAddress` — whether an operand stands for an address.
* `Source.operandAt?` — the operand that an operand word of a program comes from.
* `Program.relocated` — the program of a text, further down.
* `Source.address?_sub` — symbols further down; `Source.Spells.relocated` — and what is spelled.
* `Source.le_of_address?` — no symbol is below the base, so nothing wraps.
* `assemble_relocates` — what is assembled at a lower base.
-/

/-! ### Programs further down -/

namespace Source

/-- Whether an operand stands for an address. -/
def Operand.isAddress : Operand → Bool
  | .label _ | .constant _ | .subroutine _ => true
  | .literal _ | .register _ => false

/-- The word of an operand when all addresses are lower by `d`. -/
def Operand.moved (d : Word) (o : Operand) (w : Word) : Word :=
  if o.isAddress then w - d else w

/-- The operand tokens of a line. -/
def Line.operands (l : Line) : List String :=
  match Statement.ofLine l with
  | .ok (.instruction _ tokens) => tokens
  | _ => []

/-- The operand at a position in a line. -/
def Line.operand? (l : Line) (position : Nat) : Option Operand :=
  l.operands[position]?.bind fun token => Operand.ofChars? token.toList

/-- The operand that a word of the program of a text comes from, by the subroutine, the instruction
in it and the position there, all counted from zero. -/
def operandAt? (text : List Line) (subroutine instruction position : Nat) : Option Operand :=
  (body text (subroutine + 1))[instruction]?.bind fun q => q.line.operand? position

end Source

/-- An instruction when all addresses are lower by `d`, given the operands that its words come
from. -/
def Instruction.relocated (i : Instruction) (operand? : Nat → Option Operand) (d : Word) :
    Instruction :=
  { i with operands := i.operands.mapIdx fun k w => (operand? k).elim w fun o => o.moved d w }

/-- The program of a text when all addresses are lower by `d`. -/
def Program.relocated (p : Program) (text : List Line) (d : Word) : Program where
  constants := p.constants.map fun c => { c with address := c.address - d }
  subroutines := p.subroutines.mapIdx fun k s =>
    { s with
      address := s.address - d
      instructions := s.instructions.mapIdx fun j i => i.relocated (operandAt? text k j) d }
  entry := p.entry - d

/-! ### Addresses further down -/

theorem placed_sub (a d : Word) (ws : List Word) :
    placed (a - d) ws = (placed a ws).map fun (b, w) => (b - d, w) := by
  induction ws generalizing a with
  | nil => rfl
  | cons w ws ih =>
    have hnext : a - d + 1 = a + 1 - d := by grind
    rw [placed_cons, placed_cons, List.map_cons, hnext, ih]

theorem Assembly.constantsOf_sub (name : String) (a d : Word) (ws : List Word) :
    constantsOf name (a - d) ws =
      (constantsOf name a ws).map fun c => { c with address := c.address - d } := by
  rw [constantsOf, constantsOf, placed_sub]
  cases placed a ws with
  | nil => rfl
  | cons cell rest =>
    simp only [List.map_cons, List.map_map]
    rfl

namespace Source

variable {base d : Word} {text : List Line} {q : Place} {mnemonic : String} {tokens : List String}

namespace Place

theorem address_sub (base d : Word) (q : Place) : q.address (base - d) = q.address base - d := by
  simp only [address, start, UInt16.ofNat_add, UInt16.ofNat_toNat]
  grind

theorem constants_sub (base d : Word) (q : Place) :
    q.constants (base - d) =
      (q.constants base).map fun c => { c with address := c.address - d } := by
  unfold constants
  split
  · rw [address_sub, Assembly.constantsOf_sub]
  · rfl

end Place

/-- Every symbol stands for an address that is lower. -/
theorem address?_sub (base d : Word) (text : List Line) (symbol : Symbol) :
    address? (base - d) text symbol = (address? base text symbol).map (· - d) := by
  induction text using List.reverseRecOn with
  | nil => rfl
  | append_singleton text l ih =>
    rw [address?_concat, address?_concat, ih, Place.address_sub, Option.map_or]
    congr 1
    split <;> rfl

namespace Place

theorem operandValue?_sub (base d : Word) (text : List Line) (q : Place) (operand : Operand) :
    q.operandValue? (base - d) text operand =
      (q.operandValue? base text operand).map (operand.moved d) := by
  cases operand with
  | literal w => rfl
  | register r => rfl
  | constant name => exact address?_sub ..
  | subroutine name => exact address?_sub ..
  | label name => exact address?_sub ..

/-- An operand of a line is that of its token. -/
theorem operand?_eq (h : Statement.ofLine q.line = .ok (.instruction mnemonic tokens)) {k : Nat}
    {token : String} (htoken : tokens[k]? = some token) :
    q.line.operand? k = Operand.ofChars? token.toList := by
  simp only [Line.operand?, Line.operands, h, htoken, Option.bind_some]

/-- A line spells the same instruction with its addresses lower. -/
theorem Spells.relocated {i : Instruction} (h : q.Spells base text i) :
    q.Spells (base - d) text (i.relocated q.line.operand? d) := by
  obtain ⟨tokens, kind, hws⟩ := h
  refine ⟨tokens, kind, forall₂_mapIdx ?_ hws⟩
  intro k token w htoken hw
  obtain ⟨operand, hchars, hvalue⟩ := Option.bind_eq_some_iff.1 hw
  rw [operand?_eq kind htoken, value?, hchars, Option.bind_some, operandValue?_sub, hvalue]
  rfl

/-- A head opens the same subroutine, further down. -/
theorem Opens.relocated {s : Subroutine} (h : q.Opens base text s) :
    q.Opens (base - d) text { s with
      address := s.address - d
      instructions :=
        s.instructions.mapIdx fun j i => i.relocated (operandAt? text q.scope j) d } where
  name?_eq := h.name?_eq
  address_eq := by rw [address_sub, ← h.address_eq]
  instructions := by
    refine forall₂_mapIdx ?_ h.instructions
    intro j r i hr hspells
    have hoperands : operandAt? text q.scope j = r.line.operand? := by
      funext k
      rw [operandAt?, hr, Option.bind_some]
    rw [hoperands]
    exact hspells.relocated

end Place

/-- Heads are counted from zero. -/
theorem scope_of_getElem?_heads {k : Nat} (h : (heads text)[k]? = some q) : q.scope = k := by
  have hscope : ((heads text).map Place.scope)[k]? = some q.scope := by
    rw [List.getElem?_map, h, Option.map_some]
  rw [map_scope_heads] at hscope
  obtain ⟨hk, heq⟩ := List.getElem?_eq_some_iff.1 hscope
  rw [← heq, List.getElem_range]

/-- A text spells the same program, further down. -/
theorem Spells.relocated {p : Program} (h : Spells base text p) :
    Spells (base - d) text (p.relocated text d) where
  constants := by
    have hplaces := funext (Place.constants_sub base d)
    rw [hplaces, ← List.map_flatMap, ← h.constants]
    rfl
  subroutines := by
    refine forall₂_mapIdx ?_ h.subroutines
    intro k q s hq hopens
    rw [← scope_of_getElem?_heads hq]
    exact hopens.relocated
  main := by
    obtain ⟨last, hlast, hname, hentry⟩ := h.main
    have hmoved : (p.relocated text d).main? = p.subroutines.getLast?.map _ :=
      List.getLast?_mapIdx ..
    rw [show p.subroutines.getLast? = some last from hlast, Option.map_some] at hmoved
    exact ⟨_, hmoved, hname, congrArg (· - d) hentry⟩

/-! ### Where symbols stand -/

section Assembled

variable {text : List Line} {base base' : Word} {p : Program}

/-- No symbol stands below the base. -/
theorem le_of_address? {Known : Place → Operand → Prop}
    (allowed : ∀ q ∈ places text, q.Allowed base (Known q)) (distinct : (symbols text).Nodup)
    {symbol : Symbol} {a : Word} (h : address? base text symbol = some a) : base ≤ a := by
  obtain ⟨q, hq, hsymbol⟩ := List.mem_filterMap.1 ((exists_address?_iff base).1 ⟨a, h⟩)
  rw [address?_of_mem_places distinct hq hsymbol] at h
  obtain rfl := Option.some.inj h
  rw [UInt16.le_iff_toNat_le, (allowed q hq).toNat_address hsymbol]
  exact Nat.le_add_right _ _

/-- An operand that stands for an address has a word that is not below the base. -/
theorem Place.le_of_operandValue? {Known : Place → Operand → Prop}
    (allowed : ∀ q ∈ places text, q.Allowed base (Known q)) (distinct : (symbols text).Nodup)
    {q : Place} {operand : Operand} {w : Word} (h : q.operandValue? base text operand = some w)
    (haddress : operand.isAddress = true) : base ≤ w := by
  cases operand with
  | literal w => cases haddress
  | register r => cases haddress
  | constant name => exact le_of_address? allowed distinct h
  | subroutine name => exact le_of_address? allowed distinct h
  | label name => exact le_of_address? allowed distinct h

/-- Every operand word comes from an operand, whose value it is. -/
theorem Spells.exists_operandAt? (h : Spells base text p) {k j n : Nat} {s : Subroutine}
    (hs : p.subroutines[k]? = some s) {i : Instruction} (hi : s.instructions[j]? = some i)
    {w : Word} (hw : i.operands[n]? = some w) :
    ∃ q operand, operandAt? text k j n = some operand ∧
      Place.operandValue? base text q operand = some w := by
  obtain ⟨q, hq, tokens, kind, hws⟩ := exists_getElem?_of_forall₂ (h.instructions hs) hi
  obtain ⟨token, htoken, hvalue⟩ := exists_getElem?_of_forall₂ hws hw
  obtain ⟨operand, hchars, hvalue⟩ := Option.bind_eq_some_iff.1 hvalue
  refine ⟨q, operand, ?_, hvalue⟩
  rw [operandAt?, hq, Option.bind_some, Place.operand?_eq kind htoken, hchars]

end Assembled

end Source

/-! ### Assembly at a lower base -/

section Assembled

variable {text : List Line} {base base' : Word} {p : Program}

/-- **Relocation.** A text that assembles at a base assembles at any lower one. The addresses of
constants and subroutines, the entry, and the operand words that come from a label, a constant or a
subroutine are lower by the distance; every other word and name is the same. Each operand word comes
from an operand of the text, and nothing that moves stands below the old base, so nothing wraps. -/
theorem assemble_relocates (h : assemble text base = .ok p) (lower : base' ≤ base) :
    assemble text base' = .ok (p.relocated text (base - base')) ∧
      (∀ k s j i n w, p.subroutines[k]? = some s → s.instructions[j]? = some i →
        i.operands[n]? = some w →
          ∃ operand, operandAt? text k j n = some operand ∧
            (operand.isAddress = true → base ≤ w)) ∧
      (∀ c ∈ p.constants, base ≤ c.address) ∧
      (∀ s ∈ p.subroutines, base ≤ s.address) ∧ base ≤ p.entry := by
  obtain ⟨allowed, distinct, spells⟩ := assemble_eq_ok_iff.1 h
  have laidOut := laidOut_of_assemble h
  have hsubroutine : ∀ s ∈ p.subroutines, base ≤ s.address := by
    intro s hs
    have hstart := (laidOut.toNat_address_add_size_le hs).1
    exact UInt16.le_iff_toNat_le.2 (Nat.le_trans (Nat.le_add_right _ _) hstart)
  refine ⟨?_, ?_, ?_, hsubroutine, ?_⟩
  · have hspells := spells.relocated (d := base - base')
    have hbase : base - (base - base') = base' := by grind
    rw [hbase] at hspells
    refine assemble_eq_ok_iff.2 ⟨?_, distinct, hspells⟩
    -- Only the room for a line depends on the base, and there is more of it further down.
    intro q hq
    refine (allowed q hq).of_le rfl ?_ rfl fun _ known => known
    exact Nat.add_le_add_right (UInt16.le_iff_toNat_le.1 lower) _
  · intro k s j i n w hs hi hw
    obtain ⟨q, operand, hoperand, hvalue⟩ := spells.exists_operandAt? hs hi hw
    exact ⟨operand, hoperand, Place.le_of_operandValue? allowed distinct hvalue⟩
  · intro c hc
    have hcell := Program.mem_image_of_mem_constants hc
    exact UInt16.le_iff_toNat_le.2 (laidOut.toNat_of_mem_image hcell).1
  · obtain ⟨last, hlast, -, hentry⟩ := spells.main
    rw [hentry]
    exact hsubroutine last (List.mem_of_getLast? hlast)

/-- A literal that looks like the address of the constant. -/
def lookalikes : List Line :=
  [⟨1, ["k", "=", "7"]⟩, ⟨2, ["main:"]⟩, ⟨3, ["cop", "0x100", "bb"]⟩, ⟨4, ["cop", "[k]", "bb"]⟩,
    ⟨5, ["gto", "&end"]⟩, ⟨6, ["cal", "\x7bmain\x7d"]⟩, ⟨7, ["&end"]⟩, ⟨8, ["ret"]⟩]

theorem assemble_lookalikes :
    assemble lookalikes 0x100 = .ok
      ⟨[⟨some "k", 0x100, 7⟩],
        [⟨some "main", 0x101,
          [⟨.cop, [0x100, 1]⟩, ⟨.cop, [0x100, 1]⟩, ⟨.gto, [0x10b]⟩, ⟨.cal, [0x101]⟩, ⟨.ret, []⟩]⟩],
        0x101⟩ := by
  decide +kernel

/-- The literal stays, and the address next to it moves. -/
theorem assemble_relocates_lookalikes :
    assemble lookalikes 0x40 = .ok
      ⟨[⟨some "k", 0x40, 7⟩],
        [⟨some "main", 0x41,
          [⟨.cop, [0x100, 1]⟩, ⟨.cop, [0x40, 1]⟩, ⟨.gto, [0x4b]⟩, ⟨.cal, [0x41]⟩, ⟨.ret, []⟩]⟩],
        0x41⟩ := by
  have lower : (0x40 : Word) ≤ 0x100 := by decide
  rw [(assemble_relocates assemble_lookalikes lower).1]
  decide +kernel

end Assembled

end WordMachine
