import WordMachine.Word

namespace WordMachine

/-!
# Registers

* `Register` — the ten registers; `Register.id` is the word that names one in an operand and
  `Register.name` the alias that assembly text uses.
* `RegisterFile` — one word for every register, with `get`, `set` and `update`.

`get_set` says what a write does to every register, and `RegisterFile.ext_get` that a register
file is no more than what `get` shows.
-/

/-- The registers in the order of their ids: four for general use, then the remainder of a
division, the accumulator, the stack pointer, the program counter, the branch indicator and the
address of the instruction executed last. -/
inductive Register where
  | aa | bb | cc | dd | ex | ac | sp | pc | bi | lc
  deriving DecidableEq, Repr, Inhabited

namespace Register

/-- Every register in the order of ids. -/
def all : List Register := [aa, bb, cc, dd, ex, ac, sp, pc, bi, lc]

/-- The position of a register in the register file. -/
def index : Register → Fin 10
  | aa => 0 | bb => 1 | cc => 2 | dd => 3 | ex => 4
  | ac => 5 | sp => 6 | pc => 7 | bi => 8 | lc => 9

/-- The operand word that names a register. -/
def id (r : Register) : Word :=
  UInt16.ofNat r.index

/-- The name of a register in assembly text. -/
def name : Register → String
  | aa => "aa" | bb => "bb" | cc => "cc" | dd => "dd" | ex => "ex"
  | ac => "ac" | sp => "sp" | pc => "pc" | bi => "bi" | lc => "lc"

/-- The register with the given id, if there is one. -/
def ofId? (w : Word) : Option Register :=
  all.find? fun r => r.id == w

/-- The register with the given name, if there is one. -/
def ofName? (s : String) : Option Register :=
  all.find? fun r => r.name == s

theorem index_injective {r s : Register} (h : r.index = s.index) : r = s := by
  revert h
  cases r <;> cases s <;> decide

theorem mem_all (r : Register) : r ∈ all := by
  cases r <;> decide

theorem id_injective {r s : Register} (h : r.id = s.id) : r = s := by
  revert h
  cases r <;> cases s <;> decide

@[simp]
theorem ofId?_id (r : Register) : ofId? r.id = some r := by
  cases r <;> decide

theorem ofId?_eq_some_iff {w : Word} {r : Register} : ofId? w = some r ↔ r.id = w := by
  constructor
  · intro h
    simpa using List.find?_some h
  · rintro rfl
    exact ofId?_id r

end Register

/-- What `cmp` leaves in `bi` when its operands are equal. -/
def branchTrue : Word := 0xFFFF

/-- What `cmp` leaves in `bi` when its operands differ. -/
def branchFalse : Word := 0x0000

/-- One word for every register. -/
structure RegisterFile where
  cells : Vector Word 10
  deriving DecidableEq, Repr

namespace RegisterFile

/-- The register file that holds zeros. -/
def zero : RegisterFile := ⟨Vector.replicate 10 0⟩

/-- The word in a register. -/
def get (f : RegisterFile) (r : Register) : Word :=
  f.cells[r.index]

/-- Puts a word into a register. -/
def set (f : RegisterFile) (r : Register) (w : Word) : RegisterFile :=
  ⟨f.cells.set r.index w⟩

/-- Replaces the word in a register by a function of it. -/
def update (f : RegisterFile) (r : Register) (g : Word → Word) : RegisterFile :=
  f.set r (g (f.get r))

/-- Every register with its word, `aa:0000 bb:0000 …`. -/
def listing (f : RegisterFile) : String :=
  " ".intercalate (Register.all.map fun r => r.name ++ ":" ++ (f.get r).hex)

@[simp]
theorem get_zero (r : Register) : zero.get r = 0 := by
  simp [zero, get]

theorem get_set (f : RegisterFile) (r s : Register) (w : Word) :
    (f.set r w).get s = if r = s then w else f.get s := by
  simp only [get, set, Fin.getElem_fin, Vector.getElem_set]
  by_cases h : r = s
  · simp [h]
  · have : ¬ r.index.val = s.index.val := fun e => h (Register.index_injective (Fin.ext e))
    simp [h, this]

@[simp]
theorem get_set_self (f : RegisterFile) (r : Register) (w : Word) : (f.set r w).get r = w := by
  simp [get_set]

theorem get_set_of_ne (f : RegisterFile) {r s : Register} (w : Word) (h : r ≠ s) :
    (f.set r w).get s = f.get s := by
  simp [get_set, h]

/-- Two register files that show the same words are equal. -/
theorem ext_get {f g : RegisterFile} (h : ∀ r, f.get r = g.get r) : f = g := by
  obtain ⟨f⟩ := f
  obtain ⟨g⟩ := g
  refine congrArg RegisterFile.mk (Vector.ext fun i hi => ?_)
  have key : ∀ j : Fin 10, (Register.all.any fun r => r.index == j) = true := by decide
  obtain ⟨r, _, hr⟩ := List.any_eq_true.1 (key ⟨i, hi⟩)
  rw [beq_iff_eq] at hr
  have := h r
  simp only [get, hr] at this
  simpa using this

end RegisterFile

end WordMachine
