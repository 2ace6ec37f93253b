import WordMachine.Proofs.Assembly.Layout
import WordMachine.Proofs.Machine.Load

namespace WordMachine

/-!
# Arguments behind a program

Arguments are copied to the heap, which starts where the program ends, and three cells at the top of
the address space tell where they are. A program may end above these cells. Then there is no heap
and every argument is refused, but a list of no arguments takes no words and passes.

* `Machine.run_copyArguments` — arguments are refused before anything is written, or copied as a
  whole; `Machine.loadArguments_eq_ok_iff` — when they are accepted, and what they change.
* `Machine.peek_argued` — what the cells below the heap hold then.
* `Machine.loadArguments_keeps_program_iff` — when the loaded program is left as it was.
* `Machine.loadArguments_overwrites_program` — a program that is not.
-/

namespace Machine

/-! ### Accepted arguments -/

/-- A machine with arguments in memory. -/
def argued (m : Machine) (arguments : List String) : Machine :=
  let words := argumentWords arguments
  { m with
    memory := (((m.memory.write (placed m.layout.heapStart words)).set argumentLengthAddress
      (UInt16.ofNat words.length)).set argumentCountAddress
      (UInt16.ofNat arguments.length)).set heapStartAddress m.layout.heapStart }

/-- Arguments are refused only if they do not end in front of the cells that tell of them, and then
nothing has been written. -/
theorem run_copyArguments (arguments : List String) (m : Machine) :
    (copyArguments arguments).run m =
      if argumentCountAddress.toNat - m.layout.heapStart.toNat <
          (argumentWords arguments).length then
        .error (.heapOverflow (argumentWords arguments).length
          (argumentCountAddress.toNat - m.layout.heapStart.toNat)) m
      else .ok () (m.argued arguments) := by
  rw [copyArguments, EStateM.run_bind, InPlace.run_getThe]
  dsimp only
  split
  · rfl
  · rw [EStateM.run_bind, InPlace.run_write]
    rfl

theorem run_copyArguments_of_room {m : Machine} {arguments : List String}
    (room : (argumentWords arguments).length ≤
      argumentCountAddress.toNat - m.layout.heapStart.toNat) :
    (copyArguments arguments).run m = .ok () (m.argued arguments) := by
  rw [run_copyArguments, if_neg (Nat.not_lt.2 room)]

theorem run_copyArguments_of_crowded {m : Machine} {arguments : List String}
    (crowded : argumentCountAddress.toNat - m.layout.heapStart.toNat <
      (argumentWords arguments).length) :
    (copyArguments arguments).run m = .error (.heapOverflow (argumentWords arguments).length
      (argumentCountAddress.toNat - m.layout.heapStart.toNat)) m := by
  rw [run_copyArguments, if_pos crowded]

theorem loadArguments_eq_ok_iff {m n : Machine} {arguments : List String} :
    m.loadArguments arguments = .ok n ↔
      (argumentWords arguments).length ≤ argumentCountAddress.toNat - m.layout.heapStart.toNat ∧
        n = m.argued arguments := by
  rw [loadArguments, InPlace.accepted_eq_ok_iff]
  rcases Nat.lt_or_ge (argumentCountAddress.toNat - m.layout.heapStart.toNat)
      (argumentWords arguments).length with crowded | room
  · simp [run_copyArguments_of_crowded crowded, Nat.not_le.2 crowded]
  · simp [run_copyArguments_of_room room, room, eq_comm]

theorem atomic_copyArguments (arguments : List String) : (copyArguments arguments).Atomic :=
  InPlace.atomic_of_run (run_copyArguments arguments)

/-- No arguments take no words, so there is room for them wherever the heap starts. -/
theorem loadArguments_nil (m : Machine) : m.loadArguments [] = .ok (m.argued []) :=
  loadArguments_eq_ok_iff.2 ⟨Nat.zero_le _, rfl⟩

/-- Each argument takes a word at least. -/
theorem length_le_length_argumentWords (arguments : List String) :
    arguments.length ≤ (argumentWords arguments).length := by
  induction arguments with
  | nil => exact Nat.le_refl 0
  | cons argument arguments ih =>
    simp only [argumentWords, List.flatMap_cons, List.length_append, List.length_cons,
      List.length_nil] at ih ⊢
    omega

variable {m n : Machine} {arguments : List String}

/-- Where arguments are accepted, the cells below the heap keep their words but for those that tell
the number of arguments and of their words. -/
theorem peek_argued {a : Word} (below : a < m.layout.heapStart)
    (room : (argumentWords arguments).length ≤
      argumentCountAddress.toNat - m.layout.heapStart.toNat) :
    (m.argued arguments).memory.peek a =
      if a = argumentCountAddress then UInt16.ofNat arguments.length
      else if a = argumentLengthAddress then UInt16.ofNat (argumentWords arguments).length
      else m.memory.peek a := by
  have hbelow : a.toNat < m.layout.heapStart.toNat := UInt16.lt_iff_toNat_lt.1 below
  have hlt := m.layout.heapStart.toNat_lt
  have hcount : argumentCountAddress.toNat = 65533 := rfl
  -- The cell of the start of the heap is the last of all, and no argument goes below the heap.
  have hheap : heapStartAddress ≠ a := by
    rintro rfl
    have : heapStartAddress.toNat = 65535 := rfl
    omega
  have hwords : a ∉ (placed m.layout.heapStart (argumentWords arguments)).map Prod.fst := by
    intro hmem
    have hrange : (placed m.layout.heapStart (argumentWords arguments)).map
        (fun cell => cell.1.toNat) =
          List.range' m.layout.heapStart.toNat (argumentWords arguments).length :=
      toNat_fst_placed (by omega)
    have hmem := List.mem_map_of_mem (f := UInt16.toNat) hmem
    simp only [List.map_map, Function.comp_def, hrange, List.mem_range'_1] at hmem
    omega
  rw [argued, Memory.peek_set, if_neg hheap, Memory.peek_set, Memory.peek_set,
    Memory.peek_write_of_notMem hwords]
  simp only [eq_comm]

/-! ### The loaded program -/

/-- Where an argument is accepted, the heap starts below the cells that tell of it. -/
theorem heapStart_lt_of_room (some : arguments ≠ [])
    (room : (argumentWords arguments).length ≤
      argumentCountAddress.toNat - m.layout.heapStart.toNat) :
    m.layout.heapStart < argumentCountAddress := by
  have hpos := List.length_pos_iff.2 some
  have hlen := length_le_length_argumentWords arguments
  rw [UInt16.lt_iff_toNat_lt]
  omega

/-- No arguments put zeros into those cells below the heap that tell of arguments. -/
theorem peek_argued_nil {a : Word} (below : a < m.layout.heapStart)
    (high : argumentCountAddress ≤ a) : (m.argued []).memory.peek a = 0 := by
  rw [peek_argued below (Nat.zero_le _)]
  split
  · rfl
  · next hcount =>
    split
    · rfl
    · next hlength =>
      -- Below the heap there are no other cells from the first of the two on.
      have hbelow := UInt16.lt_iff_toNat_lt.1 below
      have hhigh := UInt16.le_iff_toNat_le.1 high
      have hlt := m.layout.heapStart.toNat_lt
      have hcount : a.toNat ≠ 65533 := fun heq => hcount (UInt16.toNat_inj.1 heq)
      have hlength : a.toNat ≠ 65534 := fun heq => hlength (UInt16.toNat_inj.1 heq)
      have : argumentCountAddress.toNat = 65533 := rfl
      omega

/-- Cells below those that tell of arguments keep their words. -/
theorem peek_argued_of_lt {a : Word} (below : a < m.layout.heapStart)
    (room : (argumentWords arguments).length ≤
      argumentCountAddress.toNat - m.layout.heapStart.toNat)
    (low : a < argumentCountAddress) : (m.argued arguments).memory.peek a = m.memory.peek a := by
  have hlow : a.toNat < 65533 := UInt16.lt_iff_toNat_lt.1 low
  have hcount : a ≠ argumentCountAddress := by
    rintro rfl
    exact Nat.lt_irrefl _ hlow
  have hlength : a ≠ argumentLengthAddress := by
    rintro rfl
    exact absurd hlow (by decide)
  rw [peek_argued below room, if_neg hcount, if_neg hlength]

/-- The cells below the heap are as they were exactly if there is an argument, or if those of them
that tell of arguments hold zeros. -/
theorem argued_keeps_iff {start : Word}
    (room : (argumentWords arguments).length ≤
      argumentCountAddress.toNat - m.layout.heapStart.toNat) :
    (∀ a, start ≤ a → a < m.layout.heapStart →
        (m.argued arguments).memory.peek a = m.memory.peek a) ↔
      (arguments = [] → ∀ a, start ≤ a → a < m.layout.heapStart → argumentCountAddress ≤ a →
        m.memory.peek a = 0) := by
  constructor
  · rintro kept rfl a hstart below high
    rw [← kept a hstart below, peek_argued_nil below high]
  · intro zeros a hstart below
    rcases UInt16.lt_or_le a argumentCountAddress with low | high
    · exact peek_argued_of_lt below room low
    · -- The heap starts too high for an argument.
      have none : arguments = [] := by
        by_contra some
        exact UInt16.not_lt.2 (UInt16.le_trans high (UInt16.le_of_lt below))
          (heapStart_lt_of_room some room)
      rw [zeros none a hstart below high]
      rw [none]
      exact peek_argued_nil below high

/-- **Arguments and the program.** A program assembled for a machine is loaded word by word. When
arguments are accepted behind it, its cells are as they were exactly if there is an argument, or if
the words of the program that stand at the addresses for the number of arguments and of their words
are the zeros that are written there. -/
theorem loadArguments_keeps_program_iff {lines : List Source.Line} {p : Program}
    (fits : m.layout.screen.Fits) (h : assemble lines m.layout.programStart = .ok p) :
    ∃ l, m.load p = .ok l ∧ (∀ cell ∈ p.image, l.memory.peek cell.1 = cell.2) ∧
      ∀ arguments n, l.loadArguments arguments = .ok n →
        ((∀ a, m.layout.programStart ≤ a → a < l.layout.heapStart →
            n.memory.peek a = l.memory.peek a) ↔
          (arguments = [] → ∀ cell ∈ p.image, argumentCountAddress ≤ cell.1 → cell.2 = 0)) := by
  have hlaid := laidOut_of_assemble h
  have himage : ∀ cell ∈ p.image, (m.loaded p).memory.peek cell.1 = cell.2 := fun cell hcell =>
    peek_image_loaded fits hlaid hcell
  refine ⟨m.loaded p, load_eq_ok hlaid.fits, himage, ?_⟩
  intro arguments n harguments
  obtain ⟨room, rfl⟩ := loadArguments_eq_ok_iff.1 harguments
  rw [argued_keeps_iff room]
  constructor
  · intro zeros none cell hcell high
    obtain ⟨hlow, hhigh⟩ := (exists_mem_image_iff hlaid).1 ⟨cell.2, hcell⟩
    rw [← himage cell hcell]
    exact zeros none cell.1 hlow hhigh high
  · intro zeros none a hlow hhigh high
    obtain ⟨w, hcell⟩ := (exists_mem_image_iff hlaid).2 ⟨hlow, hhigh⟩
    rw [himage _ hcell]
    exact zeros none _ hcell high

/-- A machine with the largest screen, whose programs are one word long. -/
def cramped : Machine where
  registers := .zero
  memory := .blank
  layout := .empty ⟨110, 593⟩

/-- A program of the one instruction whose word is zero is left as it was even there. -/
theorem loadArguments_keeps_program_iff_nop :
    cramped.layout.screen.Fits ∧
      ∃ p, assemble [⟨1, ["main:"]⟩, ⟨2, ["nop"]⟩] cramped.layout.programStart = .ok p ∧
        ∃ l n, cramped.load p = .ok l ∧ l.loadArguments [] = .ok n ∧
          ∀ a, cramped.layout.programStart ≤ a → a < l.layout.heapStart →
            n.memory.peek a = l.memory.peek a := by
  have fits : cramped.layout.screen.Fits := by decide
  have h : assemble [⟨1, ["main:"]⟩, ⟨2, ["nop"]⟩] cramped.layout.programStart = .ok
      ⟨[], [⟨some "main", 0xFFFE, [⟨.nop, []⟩]⟩], 0xFFFE⟩ := by decide +kernel
  obtain ⟨l, hload, -, hkeeps⟩ := loadArguments_keeps_program_iff fits h
  refine ⟨fits, _, h, l, _, hload, loadArguments_nil l, ?_⟩
  rw [hkeeps _ _ (loadArguments_nil l)]
  have himage : Program.image ⟨[], [⟨some "main", 0xFFFE, [⟨.nop, []⟩]⟩], 0xFFFE⟩ =
      [(0xFFFE, 0)] := by decide +kernel
  intro _ cell hcell _
  rw [himage, List.mem_singleton] at hcell
  rw [hcell]

/-- A program that ends at the last address before `haltAddress` is accepted, and so is a list of no
arguments behind it, which then takes the place of its only instruction. -/
theorem loadArguments_overwrites_program :
    cramped.layout.screen.Fits ∧
      ∃ p, assemble [⟨1, ["main:"]⟩, ⟨2, ["ret"]⟩] cramped.layout.programStart = .ok p ∧
        ∃ l n, cramped.load p = .ok l ∧ l.loadArguments [] = .ok n ∧
          ∃ a, cramped.layout.programStart ≤ a ∧ a < l.layout.heapStart ∧
            l.memory.peek a = Opcode.ret.code ∧ n.memory.peek a = Opcode.nop.code := by
  have fits : cramped.layout.screen.Fits := by decide
  have h : assemble [⟨1, ["main:"]⟩, ⟨2, ["ret"]⟩] cramped.layout.programStart = .ok
      ⟨[], [⟨some "main", 0xFFFE, [⟨.ret, []⟩]⟩], 0xFFFE⟩ := by decide +kernel
  have hlaid := laidOut_of_assemble h
  have hcell : (argumentLengthAddress, Opcode.ret.code) ∈
      Program.image ⟨[], [⟨some "main", 0xFFFE, [⟨.ret, []⟩]⟩], 0xFFFE⟩ := by decide
  refine ⟨fits, _, h, _, _, load_eq_ok hlaid.fits, loadArguments_nil _,
    argumentLengthAddress, by decide, by decide, ?_, ?_⟩
  · have hpeek := peek_image_loaded fits hlaid hcell
    exact hpeek
  · exact peek_argued_nil (by decide) (by decide)

end Machine

end WordMachine
