import WordMachine.Word

namespace WordMachine

/-!
# Layout of the address space

The address space falls into four regions that follow from the size of the screen.

* text `[0, stackMin)` — the screen and one spare word;
* stack `[stackMin, stackMax]` — 303 words, which fill downwards;
* program `[programStart, heapStart)`;
* heap `[heapStart, ffff)`.

`Layout.region` gives the region of an address. A screen is usable if the stack and one program
word fit behind it and below `haltAddress`.
-/

/-- The dimensions of the screen in characters. -/
structure Screen where
  width : Word
  height : Word
  deriving DecidableEq, Repr, Inhabited

namespace Screen

/-- The screen of a machine for which no other is asked, 80 characters by 25. -/
def standard : Screen := ⟨80, 25⟩

/-- The number of characters. -/
def size (s : Screen) : Nat :=
  s.width.toNat * s.height.toNat

/-- The number of words between the text region and the program. -/
def stackWords : Nat := 303

/-- The largest screen that leaves room for the stack and one program word. -/
def maxSize : Nat :=
  haltAddress.toNat - stackWords - 2

/-- Whether the stack and one program word fit behind the screen. -/
def Fits (s : Screen) : Prop :=
  s.size ≤ maxSize

instance (s : Screen) : Decidable s.Fits :=
  inferInstanceAs (Decidable (_ ≤ _))

end Screen

/-- The regions of the address space. -/
inductive Region where
  | text | stack | program | heap
  deriving DecidableEq, Repr, Inhabited

/-- The name of a region. -/
def Region.name : Region → String
  | text => "text"
  | stack => "stack"
  | program => "program"
  | heap => "heap"

/-- The boundaries of the regions. All but the start of the heap follow from the screen; the heap
starts behind the program that was loaded last. -/
structure Layout where
  screen : Screen
  heapStart : Word
  deriving DecidableEq, Repr, Inhabited

namespace Layout

/-- The first address of the stack region. -/
def stackMin (l : Layout) : Word :=
  UInt16.ofNat (l.screen.size + 1)

/-- The last address of the stack region. -/
def stackMax (l : Layout) : Word :=
  UInt16.ofNat (l.screen.size + Screen.stackWords)

/-- The first address of the program region. -/
def programStart (l : Layout) : Word :=
  UInt16.ofNat (l.screen.size + Screen.stackWords + 1)

/-- The stack pointer of an empty stack, one above the first word pushed. -/
def stackTop (l : Layout) : Word :=
  l.stackMax + 1

/-- The layout before a program is loaded: the heap starts where a program would. -/
def empty (s : Screen) : Layout :=
  ⟨s, UInt16.ofNat (s.size + Screen.stackWords + 1)⟩

/-- The region of an address. -/
def region (l : Layout) (a : Word) : Region :=
  if a < l.stackMin then .text
  else if a ≤ l.stackMax then .stack
  else if a < l.heapStart then .program
  else .heap

/-- The regions with their boundaries. -/
def text (l : Layout) : String :=
  s!"text [0000, {l.stackMin.hex})  stack [{l.stackMin.hex}, {l.stackMax.hex}]  " ++
    s!"program [{l.programStart.hex}, {l.heapStart.hex})  heap [{l.heapStart.hex}, ffff)"

/-! ### The boundaries as numbers -/

theorem toNat_stackMin {l : Layout} (h : l.screen.Fits) :
    l.stackMin.toNat = l.screen.size + 1 := by
  have hs : l.screen.size ≤ 65230 := h
  rw [stackMin, UInt16.toNat_ofNat']
  omega

theorem toNat_stackMax {l : Layout} (h : l.screen.Fits) :
    l.stackMax.toNat = l.screen.size + 303 := by
  have hs : l.screen.size ≤ 65230 := h
  rw [stackMax, UInt16.toNat_ofNat', Screen.stackWords]
  omega

theorem toNat_programStart {l : Layout} (h : l.screen.Fits) :
    l.programStart.toNat = l.screen.size + 304 := by
  have hs : l.screen.size ≤ 65230 := h
  rw [programStart, UInt16.toNat_ofNat', Screen.stackWords]
  omega

@[simp]
theorem heapStart_empty (s : Screen) : (empty s).heapStart = (empty s).programStart := rfl

theorem stackTop_eq_programStart (l : Layout) : l.stackTop = l.programStart := by
  simp only [stackTop, stackMax, programStart, UInt16.ofNat_add]
  rfl

end Layout

end WordMachine
