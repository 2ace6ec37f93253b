import Mathlib.Data.Finset.Lattice.Fold
import Mathlib.Order.Lattice.Nat
import WordMachine.Proofs.Machine.Touched

namespace WordMachine

/-!
# The stack as a list

A push lowers the stack pointer and writes below it, a pop reads and raises it again, both modulo the
address space. As long as no more words are pushed than there are addresses, and none is popped that
was not pushed, this is a list with its latest word in front.

* `StackAction`, `StackAction.ideal` — pushes and pops, and what they make of a list.
* `Machine.StackMove`, `Machine.exists_stackMove_iff` — the operations that push or pop.
* `Machine.StackRun` — a run of the machine, with the pushes and pops in it.
* `Machine.HoldsStack` — a machine holds a list below an earlier stack pointer.
* `Machine.holdsStack_of_run` — so it does behind each run.
* `Machine.return_continues_behind_call` — a return goes behind the call that it belongs to.
* `Machine.stack_is_last_in_first_out` — both together, with no cell lost outside the stack.
-/

/-! ### Pushes and pops -/

/-- A word that is pushed or popped. -/
inductive StackAction where
  | push (w : Word)
  | pop (w : Word)
  deriving DecidableEq, Repr

namespace StackAction

/-- What an action adds to the number of words on the stack. -/
def change : StackAction → Int
  | push _ => 1
  | pop _ => -1

/-- The words pushed and not popped again. -/
def depth : List StackAction → Int
  | [] => 0
  | act :: acts => act.change + depth acts

/-- The greatest depth that actions reach on their way. -/
def peak (acts : List StackAction) : Nat :=
  (Finset.range (acts.length + 1)).sup fun k => (depth (acts.take k)).toNat

/-- A list behind an action; there is none if the word popped is not the first one. -/
def act? (stack : List Word) : StackAction → Option (List Word)
  | push w => some (w :: stack)
  | pop w => if stack.head? = some w then some stack.tail else none

/-- The list that actions leave of an empty one, provided that each word popped is the first of the
list by then. -/
def ideal (acts : List StackAction) : Option (List Word) :=
  acts.foldlM act? []

variable {acts : List StackAction} {act : StackAction} {stack : List Word} {most : Nat}

theorem depth_concat (acts : List StackAction) (act : StackAction) :
    depth (acts ++ [act]) = depth acts + act.change := by
  induction acts with
  | nil => simp [depth]
  | cons first acts ih => rw [List.cons_append, depth, depth, ih, Int.add_assoc]

theorem ideal_concat (h : ideal acts = some stack) (act : StackAction) :
    ideal (acts ++ [act]) = act? stack act := by
  rw [ideal, List.foldlM_append, ← ideal, h]
  show act? stack act >>= pure = _
  rw [bind_pure]

/-- Whether the depth stays between zero and a bound. -/
def Within (most : Nat) (acts : List StackAction) : Prop :=
  ∀ k, 0 ≤ depth (acts.take k) ∧ depth (acts.take k) ≤ most

theorem Within.bounds (h : Within most acts) : 0 ≤ depth acts ∧ depth acts ≤ most := by
  have hall := h acts.length
  rwa [List.take_length] at hall

theorem Within.of_concat (h : Within most (acts ++ [act])) : Within most acts := by
  intro k
  by_cases hk : k ≤ acts.length
  · have htake := h k
    rwa [List.take_append_of_le_length hk] at htake
  · have hall := h acts.length
    rw [List.take_append_of_le_length le_rfl, List.take_length] at hall
    rwa [List.take_of_length_le (by omega)]

/-- The peak bounds the depth. -/
theorem within_peak (h : ∀ k, 0 ≤ depth (acts.take k)) : Within (peak acts) acts := by
  intro k
  refine ⟨h k, ?_⟩
  have htake : acts.take k = acts.take (min k acts.length) := by
    rw [List.take_eq_take_min]
  have hle : (depth (acts.take (min k acts.length))).toNat ≤ peak acts :=
    Finset.le_sup (f := fun k => (depth (acts.take k)).toNat)
      (Finset.mem_range.2 (by omega))
  rw [htake]
  have := h (min k acts.length)
  omega

/-- It is the least bound. -/
theorem peak_le (h : Within most acts) : peak acts ≤ most := by
  refine Finset.sup_le fun k _ => ?_
  have := (h k).2
  show (depth (acts.take k)).toNat ≤ most
  omega

end StackAction

/-! ### Addresses around the stack pointer -/

namespace Word

theorem sub_ofNat_add_one (a : Word) (n : Nat) :
    a - UInt16.ofNat (n + 1) = a - UInt16.ofNat n - 1 := by
  rw [UInt16.ofNat_add]
  grind

theorem sub_one_add_ofNat_add_one (a : Word) (n : Nat) :
    a - 1 + UInt16.ofNat (n + 1) = a + UInt16.ofNat n := by
  rw [UInt16.ofNat_add]
  grind

theorem sub_one_ne_add_ofNat (a : Word) {n : Nat} (h : n + 1 < addressCount) :
    a - 1 ≠ a + UInt16.ofNat n := by
  intro heq
  have hnumber := congrArg UInt16.toNat heq
  rw [UInt16.toNat_sub, UInt16.toNat_add, UInt16.toNat_ofNat'] at hnumber
  have hlt := a.toNat_lt
  have hone : UInt16.toNat 1 = 1 := rfl
  rw [addressCount] at h
  omega

end Word

/-- Whether an instruction pushes or pops a word: `psh`, `ret`, a call that is taken, or `pop` into
another register than the stack pointer. -/
def Instruction.usesStack (i : Instruction) (f : RegisterFile) : Bool :=
  match i.opcode with
  | .psh | .ret => true
  | .cal | .cle | .cln => i.taken f
  | .pop => i.register? 0 != some .sp
  | _ => false

namespace Machine

variable {m n k : Machine} {acts : List StackAction} {act : StackAction} {op : Operation}
  {i : Instruction} {stack : List Word} {most : Nat}

/-! ### What operations do to the stack -/

/-- The operations that push or pop, with the word that is pushed or that the register popped into
holds afterwards. A pop into the stack pointer itself is none. -/
inductive StackMove (m : Machine) : Operation → StackAction → Prop
  | push (source : Register) : StackMove m (.push source) (.push (m.get source))
  | call {condition : Condition} (taken : m.holds condition = true) (target : Word) :
      StackMove m (.call condition target) (.push (m.get .pc))
  | pop {target : Register} (other : target ≠ .sp) :
      StackMove m (.pop target) (.pop ((m.perform (.pop target)).get target))
  | ret : StackMove m .ret (.pop ((m.perform .ret).get .pc))

/-- The opcodes that push or pop. -/
theorem exists_stackMove_iff (h : i.operation = .ok op) (m : Machine) :
    (∃ act, StackMove m op act) ↔ i.usesStack m.registers = true := by
  obtain ⟨opcode, operands⟩ := i
  cases opcode with
  | psh =>
    obtain ⟨s, -, rfl⟩ := Instruction.onOne_eq_ok_iff.1 h
    exact ⟨fun _ => rfl, fun _ => ⟨_, .push s⟩⟩
  | ret =>
    cases h
    exact ⟨fun _ => rfl, fun _ => ⟨_, .ret⟩⟩
  | cal | cle | cln =>
    cases h
    constructor
    · rintro ⟨act, move⟩
      cases move with
      | call taken => exact taken
    · intro taken
      refine ⟨_, .call ?_ _⟩
      exact taken
  | pop =>
    obtain ⟨target, htarget, rfl⟩ := Instruction.onOne_eq_ok_iff.1 h
    have huses : Instruction.usesStack ⟨.pop, operands⟩ m.registers = true ↔ target ≠ .sp := by
      show (Instruction.register? _ 0 != some .sp) = true ↔ _
      rw [htarget, bne_iff_ne, ne_eq, ne_eq, Option.some_inj]
    rw [huses]
    constructor
    · rintro ⟨act, move⟩
      cases move with
      | pop other => exact other
    · intro other
      exact ⟨_, .pop other⟩
  | nop | vga =>
    cases h
    exact iff_of_false (by rintro ⟨act, move⟩; cases move) Bool.false_ne_true
  | cop | shr | shl =>
    obtain ⟨s, -, t, -, rfl⟩ := Instruction.onBothReversed_eq_ok_iff.1 h
    exact iff_of_false (by rintro ⟨act, move⟩; cases move) Bool.false_ne_true
  | str | sth | ldr | ldh | cmp =>
    obtain ⟨s, -, t, -, rfl⟩ := Instruction.onBoth_eq_ok_iff.1 h
    exact iff_of_false (by rintro ⟨act, move⟩; cases move) Bool.false_ne_true
  | _ =>
    obtain ⟨s, -, rfl⟩ := Instruction.onOne_eq_ok_iff.1 h
    exact iff_of_false (by rintro ⟨act, move⟩; cases move) Bool.false_ne_true

/-- A push writes its word just below the stack pointer, which moves there. -/
theorem StackMove.of_push {w : Word} (move : StackMove m op (.push w)) :
    (m.perform op).get .sp = m.get .sp - 1 ∧
      ∀ a, (m.perform op).memory.peek a = if m.get .sp - 1 = a then w else m.memory.peek a := by
  cases move with
  | push source =>
    refine ⟨by rw [perform, get_push, if_pos rfl], fun a => ?_⟩
    rw [memory_perform]
    exact Memory.peek_set ..
  | @call condition taken target =>
    refine ⟨?_, fun a => ?_⟩
    · rw [perform, if_pos taken, get_call, if_neg (by decide), if_pos rfl]
    · rw [memory_perform, access?, if_pos taken]
      exact Memory.peek_set ..

/-- A pop reads the word at the stack pointer, which moves above it. -/
theorem StackMove.of_pop {w : Word} (move : StackMove m op (.pop w)) :
    w = m.memory.peek (m.get .sp) ∧ (m.perform op).get .sp = m.get .sp + 1 ∧
      ∀ a, (m.perform op).memory.peek a = m.memory.peek a := by
  cases move with
  | @pop target other =>
    refine ⟨by rw [perform, get_set_self, top], ?_, fun a => ?_⟩
    · rw [perform, get_set, if_neg other, get_drop, if_pos rfl]
    · rw [memory_perform]
      rfl
  | ret =>
    refine ⟨by rw [perform, get_set_self, top], ?_, fun a => ?_⟩
    · rw [perform, get_set, if_neg (by decide), get_drop, if_pos rfl]
    · rw [memory_perform]
      rfl

/-! ### Runs -/

/-- Whether two machines have the same stack pointer and the same words in memory. -/
structure SameStack (m n : Machine) : Prop where
  sp : n.get .sp = m.get .sp
  words : ∀ a, n.memory.peek a = m.memory.peek a

/-- A run of a machine to another one, with its pushes and pops. In between the machine may change
anything but the stack pointer and the words in memory. -/
inductive StackRun (m : Machine) : List StackAction → Machine → Prop
  | start : StackRun m [] m
  | idle {acts : List StackAction} {n k : Machine} (run : StackRun m acts n)
      (same : SameStack n k) : StackRun m acts k
  | move {acts : List StackAction} {n : Machine} {op : Operation} {act : StackAction}
      (run : StackRun m acts n) (move : StackMove n op act) :
      StackRun m (acts ++ [act]) (n.perform op)

/-- An instruction that pushes or pops takes effect. -/
theorem step_of_stackMove (running : n.halted = false)
    (fetches : n.instructionAt (n.get .pc) = .ok i) (decodes : i.operation = .ok op)
    (move : StackMove (n.advanced i) op act) : n.step.machine = (n.advanced i).perform op := by
  have hdivides : (n.advanced i).dividesByZero op = false := by
    cases move <;> rfl
  have performs : (n.advanced i).operationOf (n.get .pc) i = .ok op := by
    simp [operationOf, decodes, hdivides]
  rw [step_of_steps (.performs running fetches performs)]

theorem sameStack_advanced (n : Machine) (i : Instruction) : SameStack n (n.advanced i) where
  sp := by rw [get_advanced, if_neg (by decide), if_neg (by decide)]
  words := peek_advanced n i

/-- A step of such an instruction is a push or a pop of a run. -/
theorem StackRun.step (run : m.StackRun acts n) (running : n.halted = false)
    (fetches : n.instructionAt (n.get .pc) = .ok i) (decodes : i.operation = .ok op)
    (move : StackMove (n.advanced i) op act) : m.StackRun (acts ++ [act]) n.step.machine := by
  rw [step_of_stackMove running fetches decodes move]
  exact (run.idle (sameStack_advanced n i)).move move

/-- So a run goes on with each instruction that pushes or pops. -/
theorem StackRun.exists_step (run : m.StackRun acts n) (running : n.halted = false)
    (fetches : n.instructionAt (n.get .pc) = .ok i) (decodes : i.operation = .ok op)
    (uses : i.usesStack (n.advanced i).registers = true) :
    ∃ act, m.StackRun (acts ++ [act]) n.step.machine := by
  obtain ⟨act, move⟩ := (exists_stackMove_iff decodes (n.advanced i)).2 uses
  exact ⟨act, run.step running fetches decodes move⟩

/-! ### The list on the stack -/

/-- Whether a machine holds a list, latest word first, below the stack pointer that another machine
had, and agrees with it everywhere but in a number of cells there. -/
structure HoldsStack (m n : Machine) (stack : List Word) (most : Nat) : Prop where
  sp : n.get .sp = m.get .sp - UInt16.ofNat stack.length
  words : ∀ j w, stack[j]? = some w → n.memory.peek (n.get .sp + UInt16.ofNat j) = w
  others : ∀ a, (∀ j < most, a ≠ m.get .sp - UInt16.ofNat (j + 1)) →
    n.memory.peek a = m.memory.peek a

theorem holdsStack_nil (m : Machine) (most : Nat) : m.HoldsStack m [] most where
  sp := (UInt16.sub_zero _).symm
  words := by simp
  others := fun _ _ => rfl

theorem HoldsStack.idle (h : m.HoldsStack n stack most) (same : SameStack n k) :
    m.HoldsStack k stack most where
  sp := by rw [same.sp, h.sp]
  words := fun j w found => by rw [same.sp, same.words, h.words j w found]
  others := fun a outside => by rw [same.words, h.others a outside]

theorem HoldsStack.push {w : Word} (h : m.HoldsStack n stack most) (room : stack.length < most)
    (hmost : most ≤ addressCount) (move : StackMove n op (.push w)) :
    m.HoldsStack (n.perform op) (w :: stack) most := by
  obtain ⟨hsp, hpeek⟩ := move.of_push
  have hdeeper : n.get .sp - 1 = m.get .sp - UInt16.ofNat (stack.length + 1) := by
    rw [h.sp, Word.sub_ofNat_add_one]
  refine ⟨by rw [hsp, hdeeper, List.length_cons], fun j v found => ?_, fun a outside => ?_⟩
  · rw [hsp, hpeek]
    cases j with
    | zero =>
      have hzero : n.get .sp - 1 + UInt16.ofNat 0 = n.get .sp - 1 := UInt16.add_zero _
      rw [hzero, if_pos rfl]
      exact Option.some_inj.1 found
    | succ j =>
      -- The words below are less than a whole address space away.
      obtain ⟨hlt, -⟩ := List.getElem?_eq_some_iff.1 found
      rw [List.length_cons] at hlt
      rw [Word.sub_one_add_ofNat_add_one,
        if_neg (Word.sub_one_ne_add_ofNat _ (by omega)), h.words j v found]
  · rw [hpeek, hdeeper, if_neg (Ne.symm (outside _ room)), h.others a outside]

theorem HoldsStack.pop {w v : Word} (h : m.HoldsStack n (v :: stack) most)
    (move : StackMove n op (.pop w)) : w = v ∧ m.HoldsStack (n.perform op) stack most := by
  obtain ⟨hword, hsp, hpeek⟩ := move.of_pop
  have htop : n.memory.peek (n.get .sp) = v := by
    have := h.words 0 v rfl
    rwa [show n.get .sp + UInt16.ofNat 0 = n.get .sp from UInt16.add_zero _] at this
  refine ⟨hword.trans htop, ?_, fun j u found => ?_, fun a outside => ?_⟩
  · rw [hsp, h.sp, List.length_cons, Word.sub_ofNat_add_one]
    grind
  · rw [hsp, hpeek, UInt16.add_assoc, UInt16.add_comm 1]
    have hone : UInt16.ofNat j + 1 = UInt16.ofNat (j + 1) := by rw [UInt16.ofNat_add]; rfl
    rw [hone, h.words (j + 1) u found]
  · rw [hpeek, h.others a outside]

/-- A run whose depth stays within a bound leaves the ideal list on the stack. -/
theorem holdsStack_of_run (run : m.StackRun acts n) (bounded : StackAction.Within most acts)
    (hmost : most ≤ addressCount) :
    ∃ stack, StackAction.ideal acts = some stack ∧
      (stack.length : Int) = StackAction.depth acts ∧ m.HoldsStack n stack most := by
  induction run with
  | start => exact ⟨[], rfl, rfl, holdsStack_nil m most⟩
  | idle run same ih =>
    obtain ⟨stack, hideal, hdepth, holds⟩ := ih bounded
    exact ⟨stack, hideal, hdepth, holds.idle same⟩
  | @move acts n op act run move ih =>
    obtain ⟨stack, hideal, hdepth, holds⟩ := ih bounded.of_concat
    have hbounds := bounded.bounds
    rw [StackAction.depth_concat] at hbounds ⊢
    rw [StackAction.ideal_concat hideal]
    cases act with
    | push w =>
      rw [StackAction.change] at hbounds ⊢
      refine ⟨w :: stack, rfl, ?_, holds.push (by omega) hmost move⟩
      rw [List.length_cons]
      omega
    | pop w =>
      rw [StackAction.change] at hbounds ⊢
      cases stack with
      | nil =>
        rw [List.length_nil] at hdepth
        omega
      | cons v stack =>
        obtain ⟨rfl, popped⟩ := holds.pop move
        refine ⟨stack, if_pos rfl, ?_, popped⟩
        rw [List.length_cons] at hdepth
        omega

/-! ### Calls and returns -/

theorem holds_advanced (m : Machine) (i : Instruction) (condition : Condition) :
    (m.advanced i).holds condition = m.holds condition := by
  have hbi : (m.advanced i).get .bi = m.get .bi := by
    rw [get_advanced, if_neg (by decide), if_neg (by decide)]
  cases condition <;> simp only [holds, hbi]

/-- A return to the depth of a call goes behind the call. -/
theorem return_continues_behind_call {condition : Condition} {target : Word}
    (running : m.halted = false) (fetches : m.instructionAt (m.get .pc) = .ok i)
    (decodes : i.operation = .ok (.call condition target)) (taken : m.holds condition = true)
    (inner : m.step.machine.StackRun acts n) (balanced : StackAction.depth acts = 0)
    (bounded : StackAction.Within 65535 acts) (running' : n.halted = false)
    (fetches' : n.instructionAt (n.get .pc) = .ok ⟨.ret, []⟩) :
    n.step.machine.get .pc = m.get .pc + UInt16.ofNat i.size ∧
      n.step.machine.get .sp = m.get .sp := by
  have goes : StackMove (m.advanced i) (.call condition target)
      (.push ((m.advanced i).get .pc)) :=
    .call (by rw [holds_advanced, taken]) target
  have hcall := step_of_stackMove running fetches decodes goes
  obtain ⟨hsp, hpeek⟩ := goes.of_push
  rw [← hcall, (sameStack_advanced m i).sp] at hsp
  rw [← hcall, (sameStack_advanced m i).sp] at hpeek
  -- What has been pushed since is popped again, and the cell of the call is out of its reach.
  obtain ⟨stack, -, hdepth, holds⟩ := holdsStack_of_run inner bounded (by decide)
  obtain rfl : stack = [] := by
    rw [← List.length_eq_zero_iff]
    omega
  have hback : n.get .sp = m.get .sp - 1 := by
    rw [holds.sp, hsp]
    exact UInt16.sub_zero _
  have hword : n.memory.peek (n.get .sp) = m.get .pc + UInt16.ofNat i.size := by
    have houtside : ∀ j < 65535, m.get .sp - 1 ≠ m.step.machine.get .sp - UInt16.ofNat (j + 1) := by
      intro j hj heq
      have hnumber := congrArg UInt16.toNat heq
      rw [hsp, UInt16.toNat_sub _ (UInt16.ofNat _), UInt16.toNat_ofNat'] at hnumber
      have hlt := (m.get .sp - 1).toNat_lt
      omega
    rw [hback, holds.others _ houtside, hpeek, if_pos rfl, get_advanced, if_pos rfl]
  have goesBack : StackMove (n.advanced ⟨.ret, []⟩) .ret _ := .ret
  obtain ⟨hpopped, hraised, -⟩ := goesBack.of_pop
  rw [step_of_stackMove running' fetches' rfl goesBack]
  refine ⟨?_, ?_⟩
  · rw [hpopped, (sameStack_advanced n _).words, (sameStack_advanced n _).sp, hword]
  · rw [hraised, (sameStack_advanced n _).sp, hback]
    grind

/-- **The stack is last in, first out.** In a run that pushes no more words than there are addresses
and pops none that it has not pushed, the words popped are those of an ideal list, the stack pointer
is as far down as the list is long, and no cell changes but those that the list has reached. A
return to the depth of a call goes behind the call. -/
theorem stack_is_last_in_first_out (m : Machine) :
    (∀ acts n, m.StackRun acts n →
      (∀ j, 0 ≤ StackAction.depth (acts.take j) ∧ StackAction.depth (acts.take j) ≤ 65536) →
      ∃ stack, StackAction.ideal acts = some stack ∧
        (stack.length : Int) = StackAction.depth acts ∧
        m.HoldsStack n stack (StackAction.peak acts)) ∧
    ∀ i condition target acts n, m.halted = false → m.instructionAt (m.get .pc) = .ok i →
      i.operation = .ok (.call condition target) → m.holds condition = true →
      m.step.machine.StackRun acts n → StackAction.depth acts = 0 →
      (∀ j, 0 ≤ StackAction.depth (acts.take j) ∧ StackAction.depth (acts.take j) ≤ 65535) →
      n.halted = false → n.instructionAt (n.get .pc) = .ok ⟨.ret, []⟩ →
      n.step.machine.get .pc = m.get .pc + UInt16.ofNat i.size ∧
        n.step.machine.get .sp = m.get .sp := by
  constructor
  · intro acts n run bounded
    have hpeak : StackAction.peak acts ≤ addressCount := StackAction.peak_le bounded
    exact holdsStack_of_run run (StackAction.within_peak fun j => (bounded j).1) hpeak
  · intro i condition target acts n running fetches decodes taken inner balanced bounded running'
      fetches'
    exact return_continues_behind_call running fetches decodes taken inner balanced bounded
      running' fetches'

/-- A machine with its stack pointer at zero, in front of a call of a subroutine that returns at
once. -/
def callAtBottom : Machine where
  registers := RegisterFile.zero.set .pc 0x0900
  memory := Memory.blank.write (placed 0x0900 (Instruction.words ⟨.cal, [0x0910]⟩) ++
    placed 0x0910 (Instruction.words ⟨.ret, []⟩))
  layout := .empty .standard

theorem stack_is_last_in_first_out_callAtBottom :
    callAtBottom.get .sp = 0 ∧ callAtBottom.step.machine.get .sp = 0xFFFF ∧
      callAtBottom.step.machine.step.machine.get .sp = 0 ∧
      callAtBottom.step.machine.step.machine.get .pc = 0x0902 := by
  have fetches : callAtBottom.instructionAt 0x0900 = .ok ⟨.cal, [0x0910]⟩ :=
    instructionAt_of_written (show Instruction.WellFormed _ by decide) rfl (by decide)
      (List.subset_append_left _ _)
  have goes : StackMove (callAtBottom.advanced ⟨.cal, [0x0910]⟩) (.call .always 0x0910)
      (.push 0x0902) := .call rfl 0x0910
  have hstep : callAtBottom.step.machine =
      (callAtBottom.advanced ⟨.cal, [0x0910]⟩).perform (.call .always 0x0910) :=
    step_of_stackMove rfl fetches rfl goes
  have hpc : callAtBottom.step.machine.get .pc = 0x0910 := by
    rw [hstep]
    rfl
  -- The call writes its word far from the subroutine.
  have fetches' : callAtBottom.step.machine.instructionAt 0x0910 = .ok ⟨.ret, []⟩ := by
    apply instructionAt_of_placed (show Instruction.WellFormed _ by decide)
    intro cell hcell
    obtain rfl : cell = (0x0910, Opcode.ret.code) := List.mem_singleton.1 hcell
    rw [hstep, goes.of_push.2, if_neg (by decide), peek_advanced]
    exact Memory.peek_write_of_mem (by decide) (List.mem_append_right _ hcell)
  have hrunning : callAtBottom.step.machine.halted = false := by
    rw [halted, hpc]
    rfl
  obtain ⟨lifo, returns⟩ := stack_is_last_in_first_out callAtBottom
  obtain ⟨stack, hideal, hdepth, holds⟩ :=
    lifo [.push 0x0902] _ (StackRun.start.step rfl fetches rfl goes) fun j => by
      cases j <;> simp [StackAction.depth, StackAction.change]
  obtain rfl : stack = [0x0902] := (Option.some.inj hideal).symm
  obtain ⟨pc, sp⟩ := returns ⟨.cal, [0x0910]⟩ .always 0x0910 [] _ rfl fetches rfl rfl .start rfl
    (fun j => by simp [StackAction.depth]) hrunning (by rw [hpc, fetches'])
  exact ⟨rfl, holds.sp, sp, pc⟩

end Machine

end WordMachine
