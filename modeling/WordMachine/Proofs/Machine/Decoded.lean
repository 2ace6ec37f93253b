import WordMachine.Proofs.Binary.RoundTrip
import WordMachine.Proofs.Machine.Load

namespace WordMachine

/-!
# Loading what was read back

A binary holds constants in ascending order of addresses, while the loader writes those of a program
in the order of the list. The constants of a program may share addresses, and then the last of them
is the one that stays in memory; so loading relies on the order of constants at each address, which
a binary keeps.

* `Program.write_image_sortConstants` — sorting constants leaves memory as it is.
* `Machine.run_copyProgram_sortConstants` and `Machine.run_copyProgram_nameless` — so it leaves the
  loaded machine.
* `Machine.load_of_decode_encode` — a program and its binary form load to the same machine.
-/

namespace Program

theorem size_sortConstants (p : Program) :
    size { p with constants := Binary.sortConstants p.constants } = p.size := by
  show (Binary.sortConstants p.constants).length + _ = p.constants.length + _
  rw [(Binary.sortConstants_perm p.constants).length_eq]

/-- Sorting leaves the constants at each address in their order, and every one of them stays in
front of the instructions. -/
theorem write_image_sortConstants (m : Memory) (p : Program) :
    m.write (image { p with constants := Binary.sortConstants p.constants }) =
      m.write p.image := by
  apply Memory.write_congr
  intro a
  have kept := Binary.filter_sortConstants p.constants a
  show List.filter _ (_ ++ p.subroutines.flatMap Subroutine.image) =
    List.filter _ (_ ++ p.subroutines.flatMap Subroutine.image)
  rw [List.filter_append, List.filter_append, List.filter_map, List.filter_map]
  exact congrArg (fun cs => List.map _ cs ++ _) kept

end Program

namespace Machine

/-- The order of constants at different addresses is no part of what is loaded. -/
theorem run_copyProgram_sortConstants (p : Program) (m : Machine) :
    (copyProgram { p with constants := Binary.sortConstants p.constants }).run m =
      (copyProgram p).run m := by
  have hsize := p.size_sortConstants
  have hloaded : m.loaded { p with constants := Binary.sortConstants p.constants } =
      m.loaded p := by
    rw [loaded, loaded, hsize, Program.write_image_sortConstants]
  rw [run_copyProgram, run_copyProgram, hsize, hloaded]

/-- So what a binary keeps of a program is loaded as the program is. -/
theorem run_copyProgram_nameless {p : Program}
    (entry : p.main?.map Subroutine.address = some p.entry) (m : Machine) :
    (copyProgram (Binary.nameless p)).run m = (copyProgram p).run m := by
  calc (copyProgram (Binary.nameless p)).run m
      = (copyProgram { p.withoutSymbols with
          constants := Binary.sortConstants p.withoutSymbols.constants }).run m := by
        rw [Binary.nameless, entry]
        rfl
    _ = (copyProgram p.withoutSymbols).run m := run_copyProgram_sortConstants p.withoutSymbols m
    _ = (copyProgram p).run m := run_copyProgram_withoutSymbols p m

/-- **Loading a binary.** A program that has a binary form, and whose entry is its last subroutine,
is loaded by any machine just as what is read back from that form: either both are refused for the
same reason and nothing has changed, or the machine is the same afterwards. Constants may be out of
order and may share addresses with each other and with instructions. -/
theorem load_of_decode_encode {p : Program} (wf : p.WellFormed)
    (entry : p.main?.map Subroutine.address = some p.entry) {bytes : List UInt8}
    (h : Binary.encode p = .ok bytes) :
    ∃ q, Binary.decode bytes = .ok q ∧ ∀ m : Machine, m.load q = m.load p ∧
      (copyProgram q).run m = (copyProgram p).run m ∧
      ∀ e n, (copyProgram p).run m = .error e n → n = m := by
  refine ⟨_, Binary.decode_of_checks wf h, fun m => ?_⟩
  have hrun := run_copyProgram_nameless entry m
  exact ⟨InPlace.accepted_congr hrun, hrun, fun e n => atomic_copyProgram p m n e⟩

/-- A program with two constants at one address, of which the first in the list has the greater
value, with one inside a subroutine, and with a subroutine inside another. -/
def overlaid : Program where
  constants := [⟨some "b", 0x0904, 0xFFFF⟩, ⟨some "a", 0x0900, 0x0041⟩, ⟨none, 0x0904, 0x0002⟩]
  subroutines :=
    [⟨some "f", 0x0903, [⟨.cpl, [0xFFFF, 0x0016]⟩]⟩,
      ⟨some "g", 0x0904, [⟨.cal, [0x0903]⟩, ⟨.ret, []⟩]⟩]
  entry := 0x0904

theorem load_of_decode_encode_overlaid :
    overlaid.WellFormed ∧ overlaid.main?.map Subroutine.address = some overlaid.entry ∧
      ∃ bytes q, Binary.encode overlaid = .ok bytes ∧ Binary.decode bytes = .ok q ∧
        ∀ m : Machine, m.load q = m.load overlaid ∧
          (copyProgram q).run m = (copyProgram overlaid).run m := by
  have wf : overlaid.WellFormed := by decide
  have entry : overlaid.main?.map Subroutine.address = some overlaid.entry := rfl
  have encoded := Binary.encode_eq_ok_iff.2
    ⟨show overlaid.subroutines ≠ [] by decide, by decide, by decide, rfl⟩
  obtain ⟨q, hdecode, hload⟩ := load_of_decode_encode wf entry encoded
  exact ⟨wf, entry, _, q, encoded, hdecode, fun m => ⟨(hload m).1, (hload m).2.1⟩⟩

end Machine

end WordMachine
