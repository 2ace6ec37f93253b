import WordMachine.Machine.Step
import WordMachine.Proofs.Placement

namespace WordMachine.Machine

/-!
# Fetching and stepping

* `fetch_of_placed` — an instruction is fetched where its words stand one after the other.
* `instructionAt_of_written` — so it is found where it has been written last.
* `get_fetch` and `peek_fetch` — fetching maps addresses and changes nothing else.
* `step_of_fetch` — a step executes the instruction fetched.
* `step_ret` — a return to `haltAddress` halts.
-/

/-! ### Fetching -/

/-- The instruction whose words stand at an address is the one that is there. -/
theorem instructionAt_of_placed {m : Machine} {a : Word} {i : Instruction} (wf : i.WellFormed)
    (h : ∀ cell ∈ placed a i.words, m.memory.peek cell.1 = cell.2) :
    m.instructionAt a = .ok i := by
  obtain ⟨opcode, operands⟩ := i
  have hcount : operands.length = opcode.operandCount := wf
  have hword : ∀ k w, (opcode.code :: operands)[k]? = some w →
      m.memory.peek (a + UInt16.ofNat k) = w := by
    intro k w hk
    refine h (a + UInt16.ofNat k, w) (List.mem_map.2 ⟨(w, k), ?_, rfl⟩)
    exact List.mem_zipIdx_iff_getElem?.2 hk
  have hcode : m.memory.peek a = opcode.code := by
    simpa using hword 0 opcode.code rfl
  have hoperands : (List.range opcode.operandCount).map
      (fun k => m.memory.peek (a + UInt16.ofNat (k + 1))) = operands := by
    apply List.ext_getElem (by simp [hcount])
    intro k hk hk'
    rw [List.getElem_map, List.getElem_range]
    exact hword (k + 1) _ (List.getElem?_eq_getElem hk')
  rw [instructionAt, hcode, Opcode.ofCode?_code]
  simp only [hoperands]

/-- So is one that is among the cells written last. -/
theorem instructionAt_of_written {m : Machine} {before : Memory} {cells : List (Word × Word)}
    {a : Word} {i : Instruction} (wf : i.WellFormed) (memory : m.memory = before.write cells)
    (nodup : (cells.map Prod.fst).Nodup) (written : placed a i.words ⊆ cells) :
    m.instructionAt a = .ok i := by
  refine instructionAt_of_placed wf ?_
  rintro ⟨b, w⟩ hcell
  rw [memory]
  exact Memory.peek_write_of_mem nodup (written hcell)

theorem fetch_of_placed {m : Machine} {a : Word} {i : Instruction} (wf : i.WellFormed)
    (h : ∀ cell ∈ placed a i.words, m.memory.peek cell.1 = cell.2) : (m.fetch a).2 = .ok i := by
  rw [fetch, instructionAt_of_placed wf h]

@[simp]
theorem get_fetch (m : Machine) (a : Word) (r : Register) : (m.fetch a).1.get r = m.get r := by
  rw [fetch]
  split <;> rfl

@[simp]
theorem peek_fetch (m : Machine) (a b : Word) : (m.fetch a).1.memory.peek b = m.memory.peek b := by
  rw [fetch]
  split
  · rfl
  · exact Memory.peek_touchFrom ..

/-! ### Stepping -/

theorem step_of_fetch {m : Machine} {i : Instruction} (running : m.halted = false)
    (h : (m.fetch (m.get .pc)).2 = .ok i) :
    m.step = (m.fetch (m.get .pc)).1.execute (m.get .pc) i := by
  have hpair : m.fetch (m.get .pc) = ((m.fetch (m.get .pc)).1, .ok i) := Prod.ext rfl h
  rw [step, running]
  simp only [Bool.false_eq_true, if_false]
  rw [hpair]

/-- A return with `haltAddress` on top of the stack halts the machine. -/
theorem step_ret {m : Machine} (h : (m.fetch (m.get .pc)).2 = .ok ⟨.ret, []⟩)
    (top : m.memory.peek (m.get .sp) = haltAddress) :
    m.step.result = .ok .halted ∧ m.step.machine.halted = true := by
  cases running : m.halted with
  | true =>
    rw [step, if_pos running]
    exact ⟨rfl, running⟩
  | false =>
    rw [step_of_fetch running h]
    -- What is popped is read before the program counter is written.
    have popped : ∀ n : Machine, n.memory.peek (n.get .sp) = haltAddress →
        (n.perform .ret).halted = true := by
      intro n hn
      rw [perform, halted, get_set_self, Machine.top, hn]
      rfl
    -- Neither the fetch nor the move of `lc` and `pc` touches the stack.
    have moved : (((m.fetch (m.get .pc)).1.set .lc (m.get .pc)).set .pc
        (m.get .pc + UInt16.ofNat (Instruction.size ⟨.ret, []⟩))).perform .ret |>.halted := by
      apply popped
      rw [get_set, if_neg (by decide), get_set, if_neg (by decide), memory_set, memory_set,
        get_fetch, peek_fetch, top]
    refine ⟨?_, moved⟩
    show Except.ok (status _) = _
    rw [status, moved]
    rfl

end WordMachine.Machine
