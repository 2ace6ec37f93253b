import WordMachine.Proofs.Machine.Access
import WordMachine.Proofs.Machine.Step

namespace WordMachine.Machine

/-!
# The footprint of a run

Whatever a run reads or writes it maps first. So the words outside the mapped addresses have no part
in it: another machine with other words there takes the same steps, and neither changes them.

* `Machine.Agrees` — two machines that may differ in words outside a set and in what is mapped.
* `Machine.Agrees.step` — one step of both, if the first maps nothing outside the set.
* `mapped_is_footprint` — a whole run of both.
-/

/-- Two machines that differ at most in the words outside a set of addresses and in what is
mapped. -/
structure Agrees (M : Set Word) (m n : Machine) : Prop where
  registers : n.registers = m.registers
  layout : n.layout = m.layout
  words : ∀ a ∈ M, n.memory.peek a = m.memory.peek a

namespace Agrees

variable {M : Set Word} {m n : Machine} (h : Agrees M m n)

include h

theorem get_eq (r : Register) : n.get r = m.get r := by
  rw [get, get, h.registers]

theorem halted_eq : n.halted = m.halted := by
  rw [halted, halted, h.get_eq]

theorem status_eq : n.status = m.status := by
  rw [status, status, h.halted_eq]

/-! ### Fetching -/

/-- The same instruction is fetched, if the words read lie in the set. -/
theorem instructionAt_eq (code : m.get .pc ∈ M)
    (operands : ∀ i, m.instructionAt (m.get .pc) = .ok i →
      ∀ k < i.size, m.get .pc + UInt16.ofNat k ∈ M) :
    n.instructionAt (n.get .pc) = m.instructionAt (m.get .pc) := by
  rw [h.get_eq]
  apply instructionAt_congr (h.words _ code)
  intro i hi k hk
  exact h.words _ (operands i hi k hk)

/-- So is an instruction whose words are all mapped in the set. -/
theorem fetches_of_advanced {i : Instruction} (within : (m.advanced i).footprint ⊆ M)
    (fetches : m.instructionAt (m.get .pc) = .ok i) : n.instructionAt (n.get .pc) = .ok i := by
  have hwords : ∀ k < i.size, m.get .pc + UInt16.ofNat k ∈ M := fun k hk =>
    within (mem_footprint_advanced.2 (.inl ⟨k, hk, rfl⟩))
  have hcode : m.get .pc ∈ M := by
    have hfirst := hwords 0 i.opcode.one_le_size
    rwa [show m.get .pc + UInt16.ofNat 0 = m.get .pc from UInt16.add_zero _] at hfirst
  rw [h.instructionAt_eq hcode, fetches]
  rintro j hj k hk
  rw [fetches] at hj
  cases hj
  exact hwords k hk

theorem advanced (i : Instruction) : Agrees M (m.advanced i) (n.advanced i) where
  registers := by rw [registers_advanced, registers_advanced, h.registers, h.get_eq]
  layout := by rw [layout_advanced, layout_advanced, h.layout]
  words := by
    intro a ha
    rw [peek_advanced, peek_advanced, h.words a ha]

theorem set (r : Register) (w : Word) : Agrees M (m.set r w) (n.set r w) where
  registers := by
    show n.registers.set r w = m.registers.set r w
    rw [h.registers]
  layout := h.layout
  words := h.words

/-! ### Effects -/

/-- An operation that accesses no cell outside the set has the same effect. -/
theorem perform {op : Operation} (within : ∀ x, m.access? op = some x → x.address ∈ M) :
    Agrees M (m.perform op) (n.perform op) where
  registers := registers_perform_congr h.registers h.layout fun a hread =>
    h.words a (within _ hread)
  layout := by rw [layout_perform, layout_perform, h.layout]
  words := by
    intro a ha
    rw [memory_perform, memory_perform, access?_congr h.registers h.layout]
    match m.access? op with
    | none => exact h.words a ha
    | some (.read b) => exact h.words a ha
    | some (.write b w) =>
      simp only [Memory.apply, Memory.peek_set, h.words a ha]

/-- It changes no word outside of it. -/
theorem peek_perform {op : Operation} (within : ∀ x, m.access? op = some x → x.address ∈ M)
    {a : Word} (ha : a ∉ M) :
    (m.perform op).memory.peek a = m.memory.peek a ∧
      (n.perform op).memory.peek a = n.memory.peek a := by
  have outside : ∀ w, m.access? op ≠ some (.write a w) := fun w hwrite =>
    ha (within _ hwrite)
  refine ⟨peek_perform_of_not_write outside, peek_perform_of_not_write ?_⟩
  rw [access?_congr h.registers h.layout]
  exact outside

/-! ### Steps and runs -/

/-- A step of the first machine that maps nothing outside the set is a step of the second one. -/
theorem step (within : m.step.machine.footprint ⊆ M) :
    n.step.result = m.step.result ∧ Agrees M m.step.machine n.step.machine ∧
      ∀ a ∉ M, m.step.machine.memory.peek a = m.memory.peek a ∧
        n.step.machine.memory.peek a = n.memory.peek a := by
  generalize hstep : m.step = t at within ⊢
  cases steps_iff.2 hstep with
  | halted halted =>
    rw [← h.halted_eq] at halted
    rw [step_of_steps (.halted halted)]
    exact ⟨rfl, h, fun _ _ => ⟨rfl, rfl⟩⟩
  | unknown running fetches =>
    have code : m.get .pc ∈ M := within (mem_footprint_touch.2 (.inl rfl))
    rw [← h.halted_eq] at running
    rw [← h.instructionAt_eq code fun i hi => by simp [hi] at fetches] at fetches
    rw [step_of_steps (.unknown running fetches)]
    exact ⟨rfl, ⟨h.registers, h.layout, h.words⟩, fun _ _ => ⟨rfl, rfl⟩⟩
  | @refuses i fault running fetches fails =>
    have within : ((m.advanced i).set .pc (m.get .pc)).footprint ⊆ M := within
    rw [footprint_set] at within
    have fetches' := h.fetches_of_advanced within fetches
    have fails' := (operationOf_congr (h.advanced i).registers (m.get .pc) i).trans fails
    rw [← h.halted_eq] at running
    rw [← h.get_eq] at fails'
    rw [step_of_steps (.refuses running fetches' fails'), h.get_eq]
    refine ⟨rfl, (h.advanced i).set _ _, ?_⟩
    intro a _
    exact ⟨peek_set_advanced .., peek_set_advanced ..⟩
  | @performs i op running fetches decodes =>
    have within : ((m.advanced i).perform op).footprint ⊆ M := within
    have fetches' := h.fetches_of_advanced
      (fun a ha => within (mem_footprint_perform.2 (.inr ha))) fetches
    have decodes' := (operationOf_congr (h.advanced i).registers (m.get .pc) i).trans decodes
    have accessed : ∀ x, (m.advanced i).access? op = some x → x.address ∈ M := fun x hx =>
      within (mem_footprint_perform.2 (.inl ⟨x, hx, rfl⟩))
    have performed := (h.advanced i).perform accessed
    rw [← h.halted_eq] at running
    rw [← h.get_eq] at decodes'
    rw [step_of_steps (.performs running fetches' decodes')]
    refine ⟨congrArg Except.ok performed.status_eq, performed, ?_⟩
    intro a ha
    obtain ⟨hm, hn⟩ := (h.advanced i).peek_perform accessed ha
    rw [peek_advanced] at hm hn
    exact ⟨hm, hn⟩

/-- So is a run, step by step. -/
theorem after {k : Nat} (within : (m.after k).footprint ⊆ M) :
    (∀ j < k, (n.after j).step.result = (m.after j).step.result) ∧
      (∀ j ≤ k, Agrees M (m.after j) (n.after j)) ∧
      ∀ a ∉ M, (m.after k).memory.peek a = m.memory.peek a ∧
        (n.after k).memory.peek a = n.memory.peek a := by
  induction k generalizing m n with
  | zero =>
    refine ⟨fun j hj => absurd hj (Nat.not_lt_zero j), ?_, fun _ _ => ⟨rfl, rfl⟩⟩
    intro j hj
    rw [Nat.le_zero.1 hj]
    exact h
  | succ k ih =>
    -- What the first step maps is mapped in the end.
    obtain ⟨result, agrees, kept⟩ := h.step ((footprint_subset_after _ k).trans within)
    obtain ⟨results, agree, unchanged⟩ := ih agrees within
    refine ⟨?_, ?_, ?_⟩
    · intro j hj
      cases j with
      | zero => exact result
      | succ j => exact results j (Nat.lt_of_succ_lt_succ hj)
    · intro j hj
      cases j with
      | zero => exact h
      | succ j => exact agree j (Nat.le_of_succ_le_succ hj)
    · intro a ha
      exact ⟨(unchanged a ha).1.trans (kept a ha).1, (unchanged a ha).2.trans (kept a ha).2⟩

end Agrees

/-- **The mapped addresses are the footprint of a run.** A machine with the same registers and the
same layout, whose words agree where `n` steps of the first one have mapped addresses in the end,
takes the same `n` steps: they answer the same and leave the same registers, one by one. In the end
the words still agree there, and both machines have all other words as before. What `vga` draws is
read without mapping and may differ. -/
theorem mapped_is_footprint {s s' : Machine} {n : Nat} (registers : s'.registers = s.registers)
    (layout : s'.layout = s.layout)
    (words : ∀ a ∈ (s.after n).footprint, s'.memory.peek a = s.memory.peek a) :
    (∀ k < n, (s'.after k).step.result = (s.after k).step.result) ∧
      (∀ k ≤ n, (s'.after k).registers = (s.after k).registers) ∧
      (∀ a ∈ (s.after n).footprint,
        (s'.after n).memory.peek a = (s.after n).memory.peek a) ∧
      ∀ a ∉ (s.after n).footprint, (s.after n).memory.peek a = s.memory.peek a ∧
        (s'.after n).memory.peek a = s'.memory.peek a := by
  have agrees : Agrees (s.after n).footprint s s' := ⟨registers, layout, words⟩
  obtain ⟨results, agree, unchanged⟩ := agrees.after subset_rfl
  exact ⟨results, fun k hk => (agree k hk).registers, (agree n le_rfl).words, unchanged⟩

/-- A machine in front of `str aa bb`, which stores `bb` at the address `0100`. -/
def storing : Machine where
  registers := (RegisterFile.zero.set .aa 0x0100).set .bb 0x00AA
  memory := ((Memory.blank.set 0 Opcode.str.code).set 1 Register.aa.id).set 2 Register.bb.id
  layout := ⟨⟨0, 0⟩, 0x0130⟩

/-- The store maps no other address. -/
theorem notMem_footprint_storing : 0x0200 ∉ (storing.after 1).footprint := by
  have fetches : storing.instructionAt (storing.get .pc) =
      .ok ⟨.str, [Register.aa.id, Register.bb.id]⟩ := by
    simp [instructionAt, storing, get, RegisterFile.get_set, Memory.peek_set, Opcode.operandCount,
      List.range_succ]
  rw [after_succ, after_zero, step_of_steps (.performs rfl fetches rfl), mem_footprint_perform,
    mem_footprint_advanced, mem_footprint]
  rintro (⟨x, hx, haddress⟩ | ⟨k, hk, haddress⟩ | hmapped)
  · cases hx
    revert haddress
    decide
  · have fetched : ∀ j < 3, storing.get .pc + UInt16.ofNat j ≠ 0x0200 := by decide
    exact fetched k hk haddress
  · simp [storing, Memory.isMapped_set] at hmapped

theorem mapped_is_footprint_storing :
    (storing.poke 0x0200 0xBEEF).step.result = storing.step.result ∧
      ((storing.poke 0x0200 0xBEEF).after 1).memory.peek 0x0200 = 0xBEEF := by
  have words : ∀ a ∈ (storing.after 1).footprint,
      (storing.poke 0x0200 0xBEEF).memory.peek a = storing.memory.peek a := by
    intro a ha
    have hne : (0x0200 : Word) ≠ a := by
      rintro rfl
      exact notMem_footprint_storing ha
    rw [poke, Memory.peek_set, if_neg hne]
  have registers : (storing.poke 0x0200 0xBEEF).registers = storing.registers := rfl
  obtain ⟨results, -, -, unchanged⟩ := mapped_is_footprint registers (layout_poke ..) words
  refine ⟨results 0 Nat.one_pos, (unchanged 0x0200 notMem_footprint_storing).2.trans ?_⟩
  rw [poke, Memory.peek_set, if_pos rfl]

end WordMachine.Machine
