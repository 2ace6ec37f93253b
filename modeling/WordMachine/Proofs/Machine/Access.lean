import Mathlib.Data.Set.Insert
import WordMachine.Proofs.Machine.Run

namespace WordMachine

/-!
# Access to memory

Besides its own words an instruction reads or writes at most one cell, and the registers alone tell
which. So an operation depends on memory through that cell only.

* `Access` and `Machine.access?` — the cell that an operation reads or writes.
* `Machine.memory_perform` — what an operation does to memory.
* `Machine.registers_perform_congr` — what the registers depend on.
* `Machine.footprint` — the addresses that have been mapped; it only grows.
-/

/-- A cell that is read, or that is written with a word. -/
inductive Access where
  | read (address : Word)
  | write (address value : Word)
  deriving DecidableEq, Repr

/-- The address of the cell. -/
def Access.address : Access → Word
  | read address | write address _ => address

/-- Memory behind an access. -/
def Memory.apply (m : Memory) : Option Access → Memory
  | none => m
  | some (.read a) => m.touch a
  | some (.write a w) => m.set a w

namespace Machine

/-! ### The cell of an operation -/

/-- The cell that an operation reads or writes. -/
def access? (m : Machine) : Operation → Option Access
  | .store address value => some (.write (m.get address) (m.get value))
  | .load _ address => some (.read (m.get address))
  | .push source => some (.write (m.get .sp - 1) (m.get source))
  | .pop _ | .ret => some (.read (m.get .sp))
  | .call condition _ =>
    if m.holds condition then some (.write (m.get .sp - 1) (m.get .pc)) else none
  | .storeHeap offset value => some (.write (m.layout.heapStart + m.get offset) (m.get value))
  | .loadHeap _ offset => some (.read (m.layout.heapStart + m.get offset))
  | _ => none

theorem memory_perform (m : Machine) (op : Operation) :
    (m.perform op).memory = m.memory.apply (m.access? op) := by
  cases op with
  | call condition target =>
    simp only [perform, access?]
    split <;> rfl
  | jump condition target =>
    simp only [perform, access?]
    split <;> rfl
  | _ => rfl

@[simp]
theorem layout_perform (m : Machine) (op : Operation) : (m.perform op).layout = m.layout := by
  cases op with
  | call condition target =>
    simp only [perform]
    split <;> rfl
  | jump condition target =>
    simp only [perform]
    split <;> rfl
  | _ => rfl

/-- No step moves the regions. -/
@[simp]
theorem layout_step (m : Machine) : m.step.machine.layout = m.layout := by
  generalize hstep : m.step = t
  cases steps_iff.2 hstep with
  | halted halted => rfl
  | unknown running fetches => rfl
  | refuses running fetches fails => rfl
  | performs running fetches decodes => exact layout_perform ..

/-- A condition is decided by the registers. -/
theorem holds_congr {m n : Machine} (registers : n.registers = m.registers)
    (condition : Condition) : n.holds condition = m.holds condition := by
  cases condition <;> simp only [holds, get, registers]

section Congr

variable {m n : Machine} (registers : n.registers = m.registers) (layout : n.layout = m.layout)

include registers layout

/-- The cell is told by the registers and the start of the heap. -/
theorem access?_congr (op : Operation) : n.access? op = m.access? op := by
  have hget : ∀ r, n.get r = m.get r := fun r => by rw [get, registers]; rfl
  cases op <;> simp only [access?, hget, holds_congr registers, layout]

/-- Of memory, the registers depend on the word that is read. -/
theorem registers_perform_congr {op : Operation}
    (read : ∀ a, m.access? op = some (.read a) → n.memory.peek a = m.memory.peek a) :
    (n.perform op).registers = (m.perform op).registers := by
  obtain ⟨r, nm, l⟩ := n
  obtain ⟨_, mm, _⟩ := m
  cases registers
  cases layout
  cases op with
  | load target address =>
    exact congrArg (r.set target) (read _ rfl)
  | loadHeap target offset =>
    exact congrArg (r.set target) (read _ rfl)
  | pop target =>
    exact congrArg ((r.set .sp (r.get .sp + 1)).set target) (read _ rfl)
  | ret =>
    exact congrArg ((r.set .sp (r.get .sp + 1)).set .pc) (read _ rfl)
  | call condition target =>
    have hholds : Machine.holds ⟨r, nm, l⟩ condition = Machine.holds ⟨r, mm, l⟩ condition :=
      holds_congr rfl condition
    simp only [perform, hholds]
    split <;> rfl
  | jump condition target =>
    have hholds : Machine.holds ⟨r, nm, l⟩ condition = Machine.holds ⟨r, mm, l⟩ condition :=
      holds_congr rfl condition
    simp only [perform, hholds]
    split <;> rfl
  | _ => rfl

end Congr

/-- A cell that is not written keeps its word. -/
theorem peek_perform_of_not_write {m : Machine} {op : Operation} {a : Word}
    (h : ∀ w, m.access? op ≠ some (.write a w)) :
    (m.perform op).memory.peek a = m.memory.peek a := by
  rw [memory_perform]
  match haccess : m.access? op with
  | none => rfl
  | some (.read _) => rfl
  | some (.write b w) =>
    have hne : b ≠ a := by
      rintro rfl
      exact h w haccess
    rw [Memory.apply, Memory.peek_set, if_neg hne]

/-! ### Mapped addresses -/

/-- The addresses that have been mapped. -/
def footprint (m : Machine) : Set Word :=
  {a | m.memory.isMapped a = true}

theorem mem_footprint {m : Machine} {a : Word} :
    a ∈ m.footprint ↔ m.memory.isMapped a = true := Iff.rfl

theorem footprint_set (m : Machine) (r : Register) (w : Word) :
    (m.set r w).footprint = m.footprint := rfl

theorem mem_footprint_touch {m : Machine} {a b : Word} :
    b ∈ (m.touch a).footprint ↔ a = b ∨ b ∈ m.footprint := by
  simp only [mem_footprint, touch, Memory.isMapped_touch, Bool.or_eq_true, decide_eq_true_eq]

/-- The words of an instruction are mapped when it is fetched. -/
theorem mem_footprint_advanced {m : Machine} {i : Instruction} {a : Word} :
    a ∈ (m.advanced i).footprint ↔
      (∃ k < i.size, m.get .pc + UInt16.ofNat k = a) ∨ a ∈ m.footprint := by
  show (m.memory.touchFrom (m.get .pc) i.size).isMapped a = true ↔ _
  rw [Memory.isMapped_touchFrom, Bool.or_eq_true, List.any_eq_true, mem_footprint]
  simp only [List.mem_range, beq_iff_eq]

/-- So is the cell of its operation. -/
theorem mem_footprint_perform {m : Machine} {op : Operation} {a : Word} :
    a ∈ (m.perform op).footprint ↔
      (∃ x, m.access? op = some x ∧ x.address = a) ∨ a ∈ m.footprint := by
  rw [mem_footprint, memory_perform, mem_footprint]
  match m.access? op with
  | none => simp [Memory.apply]
  | some (.read b) => simp [Memory.apply, Memory.isMapped_touch, Access.address]
  | some (.write b w) => simp [Memory.apply, Memory.isMapped_set, Access.address]

/-- What is mapped stays mapped. -/
theorem footprint_subset_step (m : Machine) : m.footprint ⊆ m.step.machine.footprint := by
  generalize hstep : m.step = t
  intro a ha
  cases steps_iff.2 hstep with
  | halted halted => exact ha
  | unknown running fetches => exact mem_footprint_touch.2 (.inr ha)
  | @refuses i _ running fetches fails =>
    show a ∈ ((m.advanced i).set .pc (m.get .pc)).footprint
    rw [footprint_set]
    exact mem_footprint_advanced.2 (.inr ha)
  | performs running fetches decodes =>
    exact mem_footprint_perform.2 (.inr (mem_footprint_advanced.2 (.inr ha)))

theorem footprint_subset_after (m : Machine) (n : Nat) : m.footprint ⊆ (m.after n).footprint :=
  after_induction (P := fun k => m.footprint ⊆ k.footprint)
    (fun k h => h.trans k.footprint_subset_step) subset_rfl n

end Machine

end WordMachine
