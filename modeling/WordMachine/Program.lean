import WordMachine.Instruction

namespace WordMachine

/-!
# Programs

The assembled unit: words of constant data, subroutines, and the address where a run starts.

* `Subroutine.addressed` — every instruction with its address.
* `Program.image` — every address that a program occupies with its word.
* `Program.withoutSymbols` — the program that is left when names are dropped.
* `Program.listing` — the printed form.

`addressed_cons` and `placed_cons` describe the two enumerations of addresses.
-/

/-- The name of the subroutine where a run starts. -/
def mainName : String := "main"

/-- A word of constant data at a fixed address; only the first word of a declaration is named. -/
structure Constant where
  name? : Option String
  address : Word
  value : Word
  deriving DecidableEq, Repr, Inhabited

/-- A run of instructions from an address on. -/
structure Subroutine where
  name? : Option String
  address : Word
  instructions : List Instruction
  deriving DecidableEq, Repr, Inhabited

/-- An assembled program. In one that assembly or decoding yields, the last subroutine is the one
where a run starts. -/
structure Program where
  constants : List Constant
  subroutines : List Subroutine
  entry : Word
  deriving DecidableEq, Repr, Inhabited

/-! ### Consecutive addresses -/

/-- Words paired with the addresses from `address` on, modulo the address space. -/
def placed (address : Word) (ws : List Word) : List (Word × Word) :=
  ws.zipIdx.map fun (w, i) => (address + UInt16.ofNat i, w)

@[simp]
theorem placed_nil (address : Word) : placed address [] = [] := rfl

theorem placed_cons (address w : Word) (ws : List Word) :
    placed address (w :: ws) = (address, w) :: placed (address + 1) ws := by
  simp only [placed, List.zipIdx_cons, List.map_cons, List.zipIdx_succ, List.map_map]
  congr 1
  · simp
  · refine List.map_congr_left fun p _ => ?_
    obtain ⟨v, i⟩ := p
    simp only [Function.comp, Prod.mk.injEq, and_true]
    rw [UInt16.ofNat_add, UInt16.add_assoc, UInt16.add_comm (UInt16.ofNat i)]
    rfl

namespace Subroutine

/-- The number of words of all instructions. -/
def size (s : Subroutine) : Nat :=
  s.instructions.foldr (fun i n => i.size + n) 0

/-- The instructions from `address` on with their addresses, behind the pairs already found, which
`done` holds last pair first. -/
def addressedFrom (done : List (Word × Instruction)) (address : Word) :
    List Instruction → List (Word × Instruction)
  | [] => done.reverse
  | i :: rest => addressedFrom ((address, i) :: done) (address + UInt16.ofNat i.size) rest

theorem addressedFrom_eq (done : List (Word × Instruction)) (address : Word)
    (is : List Instruction) :
    addressedFrom done address is = done.reverse ++ addressedFrom [] address is := by
  induction is generalizing done address with
  | nil => simp [addressedFrom]
  | cons i rest ih =>
    rw [addressedFrom, addressedFrom, ih, ih [_]]
    simp

theorem addressedFrom_cons (address : Word) (i : Instruction) (rest : List Instruction) :
    addressedFrom [] address (i :: rest) =
      (address, i) :: addressedFrom [] (address + UInt16.ofNat i.size) rest := by
  rw [addressedFrom, addressedFrom_eq]
  rfl

/-- Every instruction with its address, modulo the address space. -/
def addressed (s : Subroutine) : List (Word × Instruction) :=
  addressedFrom [] s.address s.instructions

/-- Every address that a subroutine occupies with its word. -/
def image (s : Subroutine) : List (Word × Word) :=
  s.addressed.flatMap fun (address, i) => placed address i.words

end Subroutine

namespace Program

/-- The number of words of constants and instructions. -/
def size (p : Program) : Nat :=
  p.constants.length + p.subroutines.foldr (fun s n => s.size + n) 0

/-- The subroutine where a run starts. -/
def main? (p : Program) : Option Subroutine :=
  p.subroutines.getLast?

/-- Every address that a program occupies with its word, constants first. -/
def image (p : Program) : List (Word × Word) :=
  p.constants.map (fun c => (c.address, c.value)) ++ p.subroutines.flatMap Subroutine.image

/-- Subroutines without names, but for the last one, which is named `main`. -/
def onlyMainNamed (ss : List Subroutine) : List Subroutine :=
  ss.dropLast.map (fun s => { s with name? := none }) ++
    ss.getLast?.toList.map fun s => { s with name? := some mainName }

/-- The program without names, but for that of the last subroutine. -/
def withoutSymbols (p : Program) : Program where
  constants := p.constants.map fun c => { c with name? := none }
  subroutines := onlyMainNamed p.subroutines
  entry := p.entry

/-! ### Printed form -/

/-- A constant as `0900: 0005`, followed by its name behind a semicolon. -/
def constantLine (c : Constant) : String :=
  c.address.hex ++ ": " ++ c.value.hex ++
    match c.name? with
    | some name => "  ; " ++ name ++ "\n"
    | none => "\n"

/-- A subroutine under its name, or under its address in braces if it has none. -/
def subroutineLines (s : Subroutine) : String :=
  let title := s.name?.getD ("\x7b" ++ s.address.hex ++ "\x7d")
  let lines := s.addressed.map fun (address, i) => "  " ++ address.hex ++ ": " ++ i.text ++ "\n"
  title ++ ":\n" ++ String.join lines

/-- The printed form of a program; it ends with the entry and no line break. -/
def listing (p : Program) : String :=
  String.join (p.constants.map constantLine) ++ String.join (p.subroutines.map subroutineLines) ++
    "entry: " ++ p.entry.hex

end Program

end WordMachine
