import Mathlib.Algebra.GroupWithZero.Nat
import Mathlib.Data.List.Nodup
import WordMachine.Program

namespace WordMachine

/-!
# Programs without gaps

An assembled program fills one stretch of addresses: first its constants and then its subroutines,
each behind the one before it. Then the addresses that its image is made of, which are computed
modulo the address space, are a range of numbers.

* `placed` — words at consecutive addresses; `toNat_fst_placed` gives those addresses as numbers.
* `Subroutine.words` and `Program.words` — the words of a program without their addresses.
* `Program.LaidOut base p` — `p` fills the addresses from `base` on, below `haltAddress`.
* `Program.LaidOut.image_eq_placed` — its image is `p.words`, placed at `base`.
-/

/-! ### Consecutive addresses -/

theorem toNat_add_ofNat {a : Word} {n : Nat} (h : a.toNat + n < 65536) :
    (a + UInt16.ofNat n).toNat = a.toNat + n := by
  rw [UInt16.toNat_add, UInt16.toNat_ofNat']
  omega

/-- Going on by `m + n` addresses is going on by `m` and then by `n`. -/
theorem add_ofNat_add (a : Word) (m n : Nat) :
    a + UInt16.ofNat (m + n) = a + UInt16.ofNat m + UInt16.ofNat n := by
  rw [UInt16.ofNat_add, UInt16.add_assoc]

@[simp]
theorem length_placed (a : Word) (ws : List Word) : (placed a ws).length = ws.length := by
  simp only [placed, List.length_map, List.length_zipIdx]

theorem placed_append (a : Word) (ws vs : List Word) :
    placed a (ws ++ vs) = placed a ws ++ placed (a + UInt16.ofNat ws.length) vs := by
  induction ws generalizing a with
  | nil => simp
  | cons w ws ih =>
    -- The rest starts one address on, whatever the wrap-around makes of that.
    have next : a + 1 + UInt16.ofNat ws.length = a + UInt16.ofNat (w :: ws).length := by
      rw [List.length_cons, Nat.add_comm, add_ofNat_add]
      rfl
    rw [List.cons_append, placed_cons, placed_cons, ih, next, List.cons_append]

theorem fst_placed (a : Word) (ws : List Word) :
    (placed a ws).map Prod.fst = (List.range ws.length).map fun i => a + UInt16.ofNat i := by
  rw [List.range_eq_range', ← List.zipIdx_map_snd 0 ws, List.map_map, placed, List.map_map]
  rfl

/-- Words that end within the address space have the addresses of a range. -/
theorem toNat_fst_placed {a : Word} {ws : List Word} (h : a.toNat + ws.length ≤ 65536) :
    (placed a ws).map (fun c => c.1.toNat) = List.range' a.toNat ws.length := by
  have split : (placed a ws).map (fun c => c.1.toNat) =
      ((placed a ws).map Prod.fst).map UInt16.toNat := by
    rw [List.map_map]
    rfl
  -- Both sides count from the first address, so they are compared offset by offset.
  have shift : List.range' a.toNat ws.length = (List.range ws.length).map (a.toNat + ·) := by
    rw [List.range_eq_range', List.map_add_range', Nat.add_zero]
  rw [split, shift, fst_placed, List.map_map]
  apply List.map_congr_left
  intro i hi
  have hi : i < ws.length := List.mem_range.1 hi
  exact toNat_add_ofNat (by omega)

/-! ### The words of a subroutine -/

namespace Subroutine

/-- Whether every instruction carries the operands that its opcode takes. -/
def WellFormed (s : Subroutine) : Prop :=
  ∀ i ∈ s.instructions, i.WellFormed

instance (s : Subroutine) : Decidable s.WellFormed :=
  inferInstanceAs (Decidable (∀ _ ∈ _, _))

/-- The words of all instructions. -/
def words (s : Subroutine) : List Word :=
  s.instructions.flatMap Instruction.words

theorem size_eq_sum (s : Subroutine) : s.size = (s.instructions.map Instruction.size).sum := by
  rw [size, List.sum, List.foldr_map]

/-- The instruction table gives as many words as there are. -/
theorem WellFormed.length_words {s : Subroutine} (h : s.WellFormed) :
    s.words.length = s.size := by
  rw [words, List.length_flatMap, size_eq_sum]
  congr 1
  apply List.map_congr_left
  intro i hi
  exact (h i hi).length_words

theorem flatMap_addressedFrom {is : List Instruction} (h : ∀ i ∈ is, i.WellFormed) (a : Word) :
    (addressedFrom [] a is).flatMap (fun (a, i) => placed a i.words) =
      placed a (is.flatMap Instruction.words) := by
  induction is generalizing a with
  | nil => rfl
  | cons i is ih =>
    -- `addressedFrom` moves on by the size in the table, `placed` by the words there are.
    have hi : i.words.length = i.size := (h i List.mem_cons_self).length_words
    have htail := ih fun j hj => h j (List.mem_cons_of_mem i hj)
    rw [addressedFrom_cons, List.flatMap_cons, List.flatMap_cons, placed_append, hi, htail]

theorem WellFormed.image_eq_placed {s : Subroutine} (h : s.WellFormed) :
    s.image = placed s.address s.words :=
  flatMap_addressedFrom h s.address

/-- The address of an instruction lies as far behind that of the subroutine as the instructions
before it are long. -/
theorem getElem?_addressed (s : Subroutine) (k : Nat) :
    s.addressed[k]? = s.instructions[k]?.map fun i =>
      (s.address + UInt16.ofNat ((s.instructions.take k).map Instruction.size).sum, i) := by
  -- The rest of the instructions is a subroutine that starts where the first one ends.
  obtain ⟨_, a, is⟩ := s
  simp only [addressed]
  induction is generalizing a k with
  | nil => rfl
  | cons i is ih =>
    rw [addressedFrom_cons]
    cases k with
    | zero => simp
    | succ k =>
      simp only [List.getElem?_cons_succ, ih, List.take_succ_cons, List.map_cons, List.sum_cons,
        add_ofNat_add]

/-- An instruction that is listed belongs to the subroutine. -/
theorem mem_instructions_of_mem_addressed {s : Subroutine} {a : Word} {i : Instruction}
    (h : (a, i) ∈ s.addressed) : i ∈ s.instructions := by
  obtain ⟨k, hk⟩ := List.mem_iff_getElem?.1 h
  rw [getElem?_addressed, Option.map_eq_some_iff] at hk
  obtain ⟨j, hj, heq⟩ := hk
  obtain ⟨-, rfl⟩ := Prod.mk.inj heq
  exact List.mem_of_getElem? hj

/-- In a subroutine that does not wrap around, an instruction is listed where the one before it
ends. -/
theorem toNat_addressed_succ {s : Subroutine} (fits : s.address.toNat + s.size < 65536) {k : Nat}
    {a b : Word} {i j : Instruction} (ha : s.addressed[k]? = some (a, i))
    (hb : s.addressed[k + 1]? = some (b, j)) : b.toNat = a.toNat + i.size := by
  rw [getElem?_addressed, Option.map_eq_some_iff] at ha hb
  obtain ⟨i, hi, heq⟩ := ha
  obtain ⟨rfl, rfl⟩ := Prod.mk.inj heq
  obtain ⟨j, hj, heq⟩ := hb
  obtain ⟨rfl, rfl⟩ := Prod.mk.inj heq
  have before : ((s.instructions.take (k + 1)).map Instruction.size).sum =
      ((s.instructions.take k).map Instruction.size).sum + i.size := by
    simp [List.take_add_one, hi]
  -- So neither sum wraps around.
  have inside : s.size = ((s.instructions.take (k + 1)).map Instruction.size).sum +
      ((s.instructions.drop (k + 1)).map Instruction.size).sum := by
    rw [size_eq_sum, ← List.sum_append, ← List.map_append, List.take_append_drop]
  rw [toNat_add_ofNat (by omega), toNat_add_ofNat (by omega), before, Nat.add_assoc]

end Subroutine

/-! ### Subroutines one behind the other -/

namespace Subroutine

/-- Subroutines that start at an address, each where the one before it ends. -/
def Consecutive (a : Word) : List Subroutine → Prop
  | [] => True
  | s :: ss => s.address = a ∧ Consecutive (a + UInt16.ofNat s.size) ss

theorem consecutive_append {a : Word} {ss ts : List Subroutine} :
    Consecutive a (ss ++ ts) ↔
      Consecutive a ss ∧ Consecutive (a + UInt16.ofNat (ss.map size).sum) ts := by
  induction ss generalizing a with
  | nil => simp [Consecutive]
  | cons s ss ih =>
    simp only [List.cons_append, Consecutive, List.map_cons, List.sum_cons, add_ofNat_add, ih,
      and_assoc]

theorem Consecutive.image_eq_placed {a : Word} {ss : List Subroutine} (h : Consecutive a ss)
    (wf : ∀ s ∈ ss, s.WellFormed) : ss.flatMap image = placed a (ss.flatMap words) := by
  induction ss generalizing a with
  | nil => rfl
  | cons s ss ih =>
    obtain ⟨rfl, hss⟩ := h
    have hs : s.WellFormed := wf s List.mem_cons_self
    have htail := ih hss fun t ht => wf t (List.mem_cons_of_mem s ht)
    rw [List.flatMap_cons, List.flatMap_cons, placed_append, hs.length_words, hs.image_eq_placed,
      htail]

end Subroutine

/-! ### Programs in one stretch -/

namespace Program

theorem size_eq (p : Program) :
    p.size = p.constants.length + (p.subroutines.map Subroutine.size).sum := by
  rw [size, List.sum, List.foldr_map]

/-- Whether every instruction carries the operands that its opcode takes. -/
def WellFormed (p : Program) : Prop :=
  ∀ s ∈ p.subroutines, s.WellFormed

instance (p : Program) : Decidable p.WellFormed :=
  inferInstanceAs (Decidable (∀ _ ∈ _, _))

/-- The words of a program, constants first. -/
def words (p : Program) : List Word :=
  p.constants.map Constant.value ++ p.subroutines.flatMap Subroutine.words

/-- A program that fills the addresses from `base` on without a gap. It ends below `haltAddress`,
and not even a subroutine without instructions stands there. -/
structure LaidOut (base : Word) (p : Program) : Prop where
  wellFormed : p.WellFormed
  constants : p.constants.map (fun c => (c.address, c.value)) =
    placed base (p.constants.map Constant.value)
  subroutines : Subroutine.Consecutive (base + UInt16.ofNat p.constants.length) p.subroutines
  below : ∀ s ∈ p.subroutines, s.address ≠ haltAddress
  fits : base.toNat + p.size ≤ haltAddress.toNat

/-- The words of constants are in the image. -/
theorem mem_image_of_mem_constants {p : Program} {c : Constant} (hc : c ∈ p.constants) :
    (c.address, c.value) ∈ p.image :=
  List.mem_append_left _ (List.mem_map.2 ⟨c, hc, rfl⟩)

theorem WellFormed.length_words {p : Program} (h : p.WellFormed) : p.words.length = p.size := by
  rw [words, List.length_append, List.length_map, List.length_flatMap, size_eq]
  congr 2
  apply List.map_congr_left
  intro s hs
  exact (h s hs).length_words

namespace LaidOut

variable {base : Word} {p : Program}

theorem image_eq_placed (h : p.LaidOut base) : p.image = placed base p.words := by
  rw [image, h.constants, h.subroutines.image_eq_placed h.wellFormed, words, placed_append,
    List.length_map]

/-- The addresses of the image are those from `base` on, in their order. -/
theorem toNat_fst_image (h : p.LaidOut base) :
    p.image.map (fun c => c.1.toNat) = List.range' base.toNat p.size := by
  have hfits : base.toNat + p.size ≤ 65535 := h.fits
  have hlen := h.wellFormed.length_words
  rw [h.image_eq_placed, toNat_fst_placed (by omega), hlen]

/-- No address occurs twice in the image. -/
theorem nodup_image (h : p.LaidOut base) : (p.image.map Prod.fst).Nodup := by
  apply List.Nodup.of_map UInt16.toNat
  rw [List.map_map]
  exact h.toNat_fst_image ▸ List.nodup_range'

theorem toNat_of_mem_image (h : p.LaidOut base) {cell : Word × Word} (hc : cell ∈ p.image) :
    base.toNat ≤ cell.1.toNat ∧ cell.1.toNat < base.toNat + p.size := by
  have hmem : cell.1.toNat ∈ p.image.map fun c => c.1.toNat := List.mem_map_of_mem hc
  rw [h.toNat_fst_image, List.mem_range'_1] at hmem
  exact hmem

theorem ascending_constants (h : p.LaidOut base) :
    p.constants.Pairwise fun c d => c.address ≤ d.address := by
  -- The image begins with the constants, and its addresses ascend.
  have hsub : (p.constants.map fun c => c.address.toNat).Sublist
      (p.image.map fun c => c.1.toNat) := by
    rw [image, List.map_append, List.map_map]
    exact List.sublist_append_left _ _
  rw [h.toNat_fst_image] at hsub
  have hrange : (List.range' base.toNat p.size).Pairwise (· < ·) := List.pairwise_lt_range'
  have hlt := List.pairwise_map.1 (hrange.sublist hsub)
  exact hlt.imp fun hcd => UInt16.le_iff_toNat_le.2 (Nat.le_of_lt hcd)

theorem toNat_constant_lt (h : p.LaidOut base) {c : Constant} (hc : c ∈ p.constants) :
    c.address.toNat < haltAddress.toNat :=
  Nat.lt_of_lt_of_le (h.toNat_of_mem_image (mem_image_of_mem_constants hc)).2 h.fits

/-- A subroutine starts behind all constants and the subroutines before it. -/
theorem toNat_address (h : p.LaidOut base) {before after : List Subroutine} {s : Subroutine}
    (hs : p.subroutines = before ++ s :: after) :
    s.address.toNat =
        base.toNat + p.constants.length + (before.map Subroutine.size).sum ∧
      s.address.toNat + s.size ≤ haltAddress.toNat := by
  have hsize := p.size_eq
  have hfits : base.toNat + p.size ≤ 65535 := h.fits
  have hseq := h.subroutines
  rw [hs, Subroutine.consecutive_append] at hseq
  obtain ⟨-, haddr, -⟩ := hseq
  simp only [hs, List.map_append, List.map_cons, List.sum_append, List.sum_cons] at hsize
  rw [haddr, ← add_ofNat_add, toNat_add_ofNat (by omega)]
  constructor
  · omega
  · show _ ≤ 65535
    omega

/-- The same for a subroutine wherever it stands. -/
theorem toNat_address_add_size_le (h : p.LaidOut base) {s : Subroutine} (hs : s ∈ p.subroutines) :
    base.toNat + p.constants.length ≤ s.address.toNat ∧
      s.address.toNat + s.size ≤ haltAddress.toNat := by
  obtain ⟨before, after, hsplit⟩ := List.append_of_mem hs
  obtain ⟨haddr, hend⟩ := h.toNat_address hsplit
  exact ⟨by omega, hend⟩

end LaidOut

/-! ### Growing a program -/

section Growth

variable {base entry : Word} {cs : List Constant} {ss : List Subroutine}

theorem laidOut_nil : LaidOut base ⟨[], [], entry⟩ where
  wellFormed := by simp [WellFormed]
  constants := rfl
  subroutines := trivial
  below := by simp
  fits := by
    have := base.toNat_lt
    show base.toNat + 0 ≤ 65535
    omega

/-- Constants are added behind those already there, before any subroutine. -/
theorem LaidOut.append_constants {new : List Constant} (h : LaidOut base ⟨cs, [], entry⟩)
    (hnew : new.map (fun c => (c.address, c.value)) =
      placed (base + UInt16.ofNat cs.length) (new.map Constant.value))
    (hfits : base.toNat + (cs.length + new.length) ≤ haltAddress.toNat) :
    LaidOut base ⟨cs ++ new, [], entry⟩ where
  wellFormed := h.wellFormed
  constants := by
    have hcs : cs.map (fun c => (c.address, c.value)) = placed base (cs.map Constant.value) :=
      h.constants
    rw [List.map_append, List.map_append, placed_append, hcs, hnew, List.length_map]
  subroutines := trivial
  below := h.below
  fits := by
    rw [size_eq, List.length_append]
    exact hfits

theorem size_append {s : Subroutine} :
    size ⟨cs, ss ++ [s], entry⟩ = size ⟨cs, ss, entry⟩ + s.size := by
  simp only [size_eq, List.map_append, List.map_singleton, List.sum_append, List.sum_singleton,
    Nat.add_assoc]

/-- A program up to its last subroutine is laid out, and the last one stands where it ends. -/
theorem laidOut_append_iff {s : Subroutine} :
    LaidOut base ⟨cs, ss ++ [s], entry⟩ ↔
      LaidOut base ⟨cs, ss, entry⟩ ∧ s.WellFormed ∧
        s.address = base + UInt16.ofNat (size ⟨cs, ss, entry⟩) ∧ s.address ≠ haltAddress ∧
        base.toNat + size ⟨cs, ss, entry⟩ + s.size ≤ haltAddress.toNat := by
  -- Of the five parts, only the place of the last subroutine speaks of the ones before it.
  have place : Subroutine.Consecutive (base + UInt16.ofNat cs.length) (ss ++ [s]) ↔
      Subroutine.Consecutive (base + UInt16.ofNat cs.length) ss ∧
        s.address = base + UInt16.ofNat (size ⟨cs, ss, entry⟩) := by
    simp [Subroutine.consecutive_append, Subroutine.Consecutive, size_eq, UInt16.add_assoc]
  constructor
  · rintro ⟨wf, hc, hs, hbelow, hfits⟩
    obtain ⟨wf, hwf⟩ := List.forall_mem_append.1 wf
    obtain ⟨hbelow, hne⟩ := List.forall_mem_append.1 hbelow
    obtain ⟨hs, haddr⟩ := place.1 hs
    rw [size_append] at hfits
    exact ⟨⟨wf, hc, hs, hbelow, by omega⟩, hwf s List.mem_cons_self, haddr,
      hne s List.mem_cons_self, by omega⟩
  · rintro ⟨⟨wf, hc, hs, hbelow, -⟩, hwf, haddr, hne, hfits⟩
    exact {
      wellFormed := List.forall_mem_append.2 ⟨wf, List.forall_mem_singleton.2 hwf⟩
      constants := hc
      subroutines := place.2 ⟨hs, haddr⟩
      below := List.forall_mem_append.2 ⟨hbelow, List.forall_mem_singleton.2 hne⟩
      fits := by
        rw [size_append]
        omega }

end Growth

end Program

end WordMachine
