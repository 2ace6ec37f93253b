import WordMachine.Machine.Load
import WordMachine.Proofs.Machine.Step
import WordMachine.Proofs.Shape

namespace WordMachine

/-!
# Loading a program

The loader writes the image of a program, then the start of the heap at the last address, and then
`haltAddress` at the bottom of the stack. A program laid out from the start of its region lies
between the stack and the last address, so the two later writes leave it alone.

* `Machine.InPlace.Atomic` — computations that have changed nothing when they are stopped.
* `Machine.loaded` — the machine that `load` yields, with one lemma for each part of it.
* `Machine.run_copyProgram` — a program is refused before anything is written, or loaded as a whole;
  `Machine.load_eq_ok_iff`, `Machine.load_eq_error_iff` — the programs that are not refused, and
  those that are.
* `Machine.Ready` — what a program may rely on when its run starts.
* `Machine.ready_loaded` — a machine with a program laid out for it is ready.
-/

namespace Layout

theorem toNat_stackMax_add_one {l : Layout} (fits : l.screen.Fits) :
    l.stackMax.toNat + 1 = l.programStart.toNat := by
  rw [toNat_stackMax fits, toNat_programStart fits]

theorem stackTop_sub_one (l : Layout) : l.stackTop - 1 = l.stackMax := by
  rw [stackTop, UInt16.add_sub_cancel]

/-- The number of words from the start of the program region up to `haltAddress`. -/
theorem toNat_available (l : Layout) :
    (haltAddress - l.programStart).toNat = haltAddress.toNat - l.programStart.toNat := by
  apply UInt16.toNat_sub_of_le
  rw [UInt16.le_iff_toNat_le]
  have := l.programStart.toNat_lt
  show _ ≤ 65535
  omega

end Layout

namespace Machine

/-! ### Refusals -/

/-- A computation that has changed nothing when it is stopped. -/
def InPlace.Atomic (c : InPlace Unit) : Prop :=
  ∀ m n e, c.run m = .error e n → n = m

/-- A check behind a write is too late for that, since what is written stays. -/
example (a w : Word) (e : MachineError) (m : Machine) :
    (do InPlace.write [(a, w)]; throw e : InPlace Unit).run m = .error e (m.poke a w) := rfl

theorem InPlace.Atomic.after_eq {c : InPlace Unit} (h : c.Atomic) {m : Machine} {e : MachineError}
    (refused : c.accepted m = .error e) : c.after m = m := by
  obtain ⟨n, hrun⟩ := accepted_eq_error_iff.1 refused
  rw [after_of_error hrun, h m n e hrun]

/-- A check in front of every write is early enough. -/
theorem InPlace.atomic_of_run {c : InPlace Unit} {refused : Machine → Prop}
    [DecidablePred refused] {e : Machine → MachineError} {n : Machine → Machine}
    (h : ∀ m, c.run m = if refused m then .error (e m) m else .ok () (n m)) : c.Atomic := by
  intro m left e' hrun
  rw [h] at hrun
  split at hrun
  · cases hrun
    rfl
  · cases hrun

/-! ### The loaded machine -/

/-- A machine with a program in memory, ready to run. -/
def loaded (m : Machine) (p : Program) : Machine where
  registers :=
    ((m.registers.set .sp m.layout.stackTop).set .sp m.layout.stackMax).set .pc p.entry
  memory :=
    ((m.memory.write p.image).set heapStartAddress
      (m.layout.programStart + UInt16.ofNat p.size)).set m.layout.stackMax haltAddress
  layout := { m.layout with heapStart := m.layout.programStart + UInt16.ofNat p.size }

/-- A program is refused only if it does not end below `haltAddress`, and then nothing has been
written. -/
theorem run_copyProgram (p : Program) (m : Machine) :
    (copyProgram p).run m =
      if p.size > (haltAddress - m.layout.programStart).toNat then
        .error (.programTooLarge p.size (haltAddress - m.layout.programStart).toNat) m
      else .ok () (m.loaded p) := by
  have hsp : (m.registers.set .sp m.layout.stackTop).get .sp - 1 = m.layout.stackMax := by
    rw [RegisterFile.get_set_self, Layout.stackTop_sub_one]
  rw [copyProgram, EStateM.run_bind, InPlace.run_getThe]
  dsimp only
  split
  · -- Nothing stands in front of the check that could change the machine.
    rfl
  · rw [EStateM.run_bind, InPlace.run_write, loaded, ← hsp]
    rfl

theorem atomic_copyProgram (p : Program) : (copyProgram p).Atomic :=
  InPlace.atomic_of_run (run_copyProgram p)

section Size

variable {m n : Machine} {p : Program} {e : MachineError}

theorem run_copyProgram_of_fits
    (h : m.layout.programStart.toNat + p.size ≤ haltAddress.toNat) :
    (copyProgram p).run m = .ok () (m.loaded p) := by
  have havailable := m.layout.toNat_available
  rw [run_copyProgram, if_neg (by omega)]

theorem run_copyProgram_of_crowded
    (h : haltAddress.toNat < m.layout.programStart.toNat + p.size) :
    (copyProgram p).run m =
      .error (.programTooLarge p.size (haltAddress - m.layout.programStart).toNat) m := by
  have havailable := m.layout.toNat_available
  have hstart : m.layout.programStart.toNat ≤ haltAddress.toNat :=
    Nat.le_of_lt_succ m.layout.programStart.toNat_lt
  rw [run_copyProgram, if_pos (by omega)]

theorem load_eq_ok_iff :
    m.load p = .ok n ↔
      m.layout.programStart.toNat + p.size ≤ haltAddress.toNat ∧ n = m.loaded p := by
  rw [load, InPlace.accepted_eq_ok_iff]
  rcases Nat.lt_or_ge haltAddress.toNat (m.layout.programStart.toNat + p.size) with crowded | fits
  · simp [run_copyProgram_of_crowded crowded, Nat.not_le.2 crowded]
  · simp [run_copyProgram_of_fits fits, fits, eq_comm]

theorem load_eq_error_iff :
    m.load p = .error e ↔
      haltAddress.toNat < m.layout.programStart.toNat + p.size ∧
        e = .programTooLarge p.size (haltAddress - m.layout.programStart).toNat := by
  rw [load, InPlace.accepted_eq_error_iff]
  rcases Nat.lt_or_ge haltAddress.toNat (m.layout.programStart.toNat + p.size) with crowded | fits
  · simp [run_copyProgram_of_crowded crowded, crowded, eq_comm]
  · simp [run_copyProgram_of_fits fits, Nat.not_lt.2 fits]

theorem load_eq_ok (h : m.layout.programStart.toNat + p.size ≤ haltAddress.toNat) :
    m.load p = .ok (m.loaded p) :=
  load_eq_ok_iff.2 ⟨h, rfl⟩

end Size

/-- Names are no part of what is loaded. -/
theorem loaded_withoutSymbols (m : Machine) (p : Program) :
    m.loaded p.withoutSymbols = m.loaded p := by
  rw [loaded, loaded, p.size_withoutSymbols, p.image_withoutSymbols]
  rfl

theorem run_copyProgram_withoutSymbols (p : Program) (m : Machine) :
    (copyProgram p.withoutSymbols).run m = (copyProgram p).run m := by
  rw [run_copyProgram, run_copyProgram, loaded_withoutSymbols, p.size_withoutSymbols]

theorem load_withoutSymbols (m : Machine) (p : Program) :
    m.load p.withoutSymbols = m.load p :=
  InPlace.accepted_congr (run_copyProgram_withoutSymbols p m)

variable {m : Machine} {p : Program}

@[simp]
theorem get_pc_loaded : (m.loaded p).get .pc = p.entry :=
  RegisterFile.get_set_self ..

@[simp]
theorem get_sp_loaded : (m.loaded p).get .sp = m.layout.stackMax := by
  rw [get, loaded, RegisterFile.get_set_of_ne _ _ (by decide), RegisterFile.get_set_self]

@[simp]
theorem screen_loaded : (m.loaded p).layout.screen = m.layout.screen := rfl

/-- The bottom of the stack is written last. -/
theorem peek_stackMax_loaded : (m.loaded p).memory.peek m.layout.stackMax = haltAddress := by
  rw [loaded, Memory.peek_set, if_pos rfl]

theorem peek_heapStartAddress_loaded (fits : m.layout.screen.Fits) :
    (m.loaded p).memory.peek heapStartAddress = (m.loaded p).layout.heapStart := by
  have hmax := Layout.toNat_stackMax_add_one fits
  have hlt := m.layout.programStart.toNat_lt
  -- The stack ends below the program, so its bottom is not the last address.
  have hne : m.layout.stackMax ≠ heapStartAddress := by
    intro heq
    have heq : m.layout.stackMax.toNat = 65535 := congrArg UInt16.toNat heq
    omega
  rw [loaded, Memory.peek_set, if_neg hne, Memory.peek_set, if_pos rfl]

/-- A program laid out in its region lies between the stack and the last address, so its words are
those that its image tells. -/
theorem peek_image_loaded (fits : m.layout.screen.Fits) (h : p.LaidOut m.layout.programStart)
    {cell : Word × Word} (hcell : cell ∈ p.image) :
    (m.loaded p).memory.peek cell.1 = cell.2 := by
  have hmax := Layout.toNat_stackMax_add_one fits
  have hend : m.layout.programStart.toNat + p.size ≤ 65535 := h.fits
  obtain ⟨hlow, hhigh⟩ := h.toNat_of_mem_image hcell
  have hstack : m.layout.stackMax ≠ cell.1 := by
    intro heq
    rw [← heq] at hlow
    omega
  have hheap : heapStartAddress ≠ cell.1 := by
    intro heq
    have heq : 65535 = cell.1.toNat := congrArg UInt16.toNat heq
    omega
  rw [loaded, Memory.peek_set, if_neg hstack, Memory.peek_set, if_neg hheap,
    Memory.peek_write_of_mem h.nodup_image hcell]

/-- The heap starts where the words of a program end, if they end below `haltAddress`. -/
theorem toNat_heapStart_loaded (h : m.layout.programStart.toNat + p.size ≤ haltAddress.toNat) :
    (m.loaded p).layout.heapStart.toNat = m.layout.programStart.toNat + p.size := by
  have hend : m.layout.programStart.toNat + p.size ≤ 65535 := h
  exact toNat_add_ofNat (by omega)

/-- The cells from the start of the program region up to the heap are those of the program. -/
theorem exists_mem_image_iff (h : p.LaidOut m.layout.programStart) {a : Word} :
    (∃ w, (a, w) ∈ p.image) ↔
      m.layout.programStart ≤ a ∧ a < (m.loaded p).layout.heapStart := by
  rw [UInt16.le_iff_toNat_le, UInt16.lt_iff_toNat_lt, toNat_heapStart_loaded h.fits]
  constructor
  · rintro ⟨w, hcell⟩
    exact h.toNat_of_mem_image hcell
  · intro hrange
    rw [← List.mem_range'_1, ← h.toNat_fst_image, List.mem_map] at hrange
    obtain ⟨⟨b, w⟩, hcell, heq⟩ := hrange
    obtain rfl : b = a := UInt16.toNat_inj.1 heq
    exact ⟨w, hcell⟩

/-! ### What a program may rely on -/

/-- A machine on which the run of a program may start. -/
structure Ready (m : Machine) (p : Program) : Prop where
  /-- Every instruction is fetched from the address where the program lists it. -/
  fetch_eq : ∀ s ∈ p.subroutines, ∀ a i, (a, i) ∈ s.addressed → (m.fetch a).2 = .ok i
  constant_eq : ∀ c ∈ p.constants, m.memory.peek c.address = c.value
  pc_eq : m.get .pc = p.entry
  running : m.halted = false
  sp_eq : m.get .sp = m.layout.stackMax
  bottom_eq : m.memory.peek m.layout.stackMax = haltAddress
  /-- Whatever has happened since, a return halts if the stack is as it was. -/
  ret_halts : ∀ n : Machine, n.get .sp = m.get .sp →
    n.memory.peek (m.get .sp) = m.memory.peek (m.get .sp) →
    (n.fetch (n.get .pc)).2 = .ok ⟨.ret, []⟩ →
    n.step.result = .ok .halted ∧ n.step.machine.halted = true
  heapCell_eq : m.memory.peek heapStartAddress = m.layout.heapStart
  heapStart_eq : m.layout.heapStart.toNat = m.layout.programStart.toNat + p.size

/-- A program laid out for a machine finds there what it relies on once it is loaded. -/
theorem ready_loaded (fits : m.layout.screen.Fits) (h : p.LaidOut m.layout.programStart)
    (entry : p.entry ≠ haltAddress) : (m.loaded p).Ready p where
  fetch_eq := by
    intro s hs a i hi
    have wf : i.WellFormed := h.wellFormed s hs i (Subroutine.mem_instructions_of_mem_addressed hi)
    apply fetch_of_placed wf
    intro cell hcell
    -- The words of an instruction are part of the image of its subroutine.
    have hsub : cell ∈ s.image := List.mem_flatMap.2 ⟨(a, i), hi, hcell⟩
    have himage : cell ∈ p.image := List.mem_append_right _ (List.mem_flatMap.2 ⟨s, hs, hsub⟩)
    exact peek_image_loaded fits h himage
  constant_eq := by
    intro c hc
    have hcell := Program.mem_image_of_mem_constants hc
    exact peek_image_loaded fits h hcell
  pc_eq := get_pc_loaded
  running := by
    rw [halted, get_pc_loaded, beq_eq_false_iff_ne]
    exact entry
  sp_eq := get_sp_loaded
  bottom_eq := peek_stackMax_loaded
  ret_halts := by
    intro n hsp htop hret
    apply step_ret hret
    rw [hsp, htop, get_sp_loaded, peek_stackMax_loaded]
  heapCell_eq := peek_heapStartAddress_loaded fits
  heapStart_eq := toNat_heapStart_loaded h.fits

end Machine

end WordMachine
