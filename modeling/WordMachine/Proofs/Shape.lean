import WordMachine.Proofs.Placement
import WordMachine.Proofs.Sequence

namespace WordMachine

open Sequence

/-!
# Changes that move nothing

What a program occupies depends on the opcodes of its instructions alone. Neither the words of
operands, which are known late where they stand for labels, nor the names of subroutines, which a
binary drops, have a part in it.

* `Subroutine.SameShape` — two subroutines that differ in names and words of operands at most.
* `Program.LaidOut.of_sameShape` — such a change leaves a program where it is.
* `forall₂_onlyMainNamed` — dropping names is such a change, and a smaller one.
* `Program.image_withoutSymbols` — it leaves the whole image as it is.
-/

/-! ### Changes of operand words -/

/-- Two instructions that differ in the words of operands at most. -/
structure Instruction.SameShape (i j : Instruction) : Prop where
  opcode : j.opcode = i.opcode
  count : j.operands.length = i.operands.length

/-- Two subroutines that differ in their names and the words of operands at most. -/
structure Subroutine.SameShape (s t : Subroutine) : Prop where
  address : t.address = s.address
  instructions : List.Forall₂ Instruction.SameShape s.instructions t.instructions

namespace Subroutine

variable {s t : Subroutine}

theorem SameShape.size_eq (h : s.SameShape t) : t.size = s.size := by
  have sizes : t.instructions.map Instruction.size = s.instructions.map Instruction.size :=
    map_eq_of_forall₂ (fun _ _ hi => congrArg Opcode.size hi.opcode) h.instructions
  rw [size_eq_sum, size_eq_sum, sizes]

theorem SameShape.wellFormed (h : s.SameShape t) (wf : s.WellFormed) : t.WellFormed := by
  refine forall_mem_of_forall₂ ?_ h.instructions wf
  intro i j hi hwf
  show j.operands.length = j.opcode.operandCount
  rw [hi.count, hi.opcode]
  exact hwf

theorem Consecutive.of_sameShape {a : Word} {ss ts : List Subroutine}
    (hs : List.Forall₂ SameShape ss ts) (h : Consecutive a ss) : Consecutive a ts := by
  induction hs generalizing a with
  | nil => trivial
  | cons hst _ ih =>
    -- The rest stays where it is because the sizes before it stay.
    obtain ⟨haddr, hrest⟩ := h
    exact ⟨hst.address.trans haddr, ih (hst.size_eq ▸ hrest)⟩

end Subroutine

/-- A change of names and operand words leaves a program where it is. -/
theorem Program.LaidOut.of_sameShape {base : Word} {p q : Program} (h : p.LaidOut base)
    (hc : q.constants.map (fun c => (c.address, c.value)) =
      p.constants.map fun c => (c.address, c.value))
    (hs : List.Forall₂ Subroutine.SameShape p.subroutines q.subroutines) : q.LaidOut base := by
  have sizes : q.subroutines.map Subroutine.size = p.subroutines.map Subroutine.size :=
    map_eq_of_forall₂ (fun _ _ hst => hst.size_eq) hs
  have count : q.constants.length = p.constants.length := by
    simpa only [List.length_map] using congrArg List.length hc
  have values : q.constants.map Constant.value = p.constants.map Constant.value := by
    have snds := congrArg (List.map Prod.snd) hc
    rw [List.map_map, List.map_map] at snds
    exact snds
  have total : q.size = p.size := by rw [size_eq, size_eq, count, sizes]
  exact {
    wellFormed := forall_mem_of_forall₂ (fun _ _ hst => hst.wellFormed) hs h.wellFormed
    constants := by rw [hc, values, h.constants]
    subroutines := count ▸ h.subroutines.of_sameShape hs
    below := forall_mem_of_forall₂ (fun _ _ hst hne => hst.address ▸ hne) hs h.below
    fits := total ▸ h.fits }

/-! ### Dropping names -/

namespace Program

/-- Dropping names relates each subroutine to itself under another name. -/
theorem forall₂_onlyMainNamed {R : Subroutine → Subroutine → Prop}
    (renamed : ∀ s name?, R s { s with name? }) (ss : List Subroutine) :
    List.Forall₂ R ss (onlyMainNamed ss) := by
  rcases List.eq_nil_or_concat ss with rfl | ⟨front, last, rfl⟩
  · exact .nil
  · rw [onlyMainNamed, List.concat_eq_append, List.dropLast_concat, List.getLast?_concat]
    -- The last subroutine is given a name, the ones in front of it lose theirs.
    refine List.rel_append ?_ (.cons (renamed last _) .nil)
    rw [List.forall₂_map_right_iff, List.forall₂_same]
    exact fun s _ => renamed s none

theorem map_onlyMainNamed {β : Type} {f : Subroutine → β}
    (renamed : ∀ s name?, f { s with name? } = f s) (ss : List Subroutine) :
    (onlyMainNamed ss).map f = ss.map f :=
  map_eq_of_forall₂ (fun _ _ h => h) (forall₂_onlyMainNamed renamed ss)

theorem size_withoutSymbols (p : Program) : p.withoutSymbols.size = p.size := by
  rw [size_eq, size_eq, withoutSymbols, List.length_map, map_onlyMainNamed fun _ _ => rfl]

theorem image_withoutSymbols (p : Program) : p.withoutSymbols.image = p.image := by
  rw [image, image, withoutSymbols, List.map_map, List.flatMap_def,
    map_onlyMainNamed fun _ _ => rfl]
  rfl

theorem LaidOut.withoutSymbols {base : Word} {p : Program} (h : p.LaidOut base) :
    p.withoutSymbols.LaidOut base := by
  refine h.of_sameShape ?_ ?_
  · rw [Program.withoutSymbols, List.map_map]
    rfl
  · apply forall₂_onlyMainNamed
    intro s name?
    exact ⟨rfl, List.forall₂_same.2 fun i _ => ⟨rfl, rfl⟩⟩

end Program

end WordMachine
