import WordMachine.Binary.Error
import WordMachine.Program

namespace WordMachine.Binary

/-!
# The binary format

A binary is the magic number `SVCB` and big-endian words: an address and a value for every
constant word, the word `ffff`, and a frame for every subroutine, which holds its address, its
size and its instructions. The last frame is that of the subroutine where a run starts.

* `magic`, `sentinel`, `frameFits` — what both directions share.
* `ofWords` and `words?` — words as bytes.
* `encode` — the binary form of a program.
-/

/-- The four bytes at the front, `SVCB`. -/
def magic : List UInt8 := [0x53, 0x56, 0x43, 0x42]

/-- The word between constants and subroutines, recognised only where a constant would start. -/
def sentinel : Word := 0xFFFF

/-- Whether `size` words from an address on end below `haltAddress`. -/
def frameFits (address : Word) (size : Nat) : Prop :=
  address ≠ haltAddress ∧ address.toNat + size ≤ haltAddress.toNat

instance (address : Word) (size : Nat) : Decidable (frameFits address size) :=
  inferInstanceAs (Decidable (_ ∧ _))

/-! ### Words as bytes -/

/-- The bytes of words, the high byte of each first. -/
def ofWords (ws : List Word) : List UInt8 :=
  ws.flatMap Word.bytes

/-- The words of bytes behind those already read, which `done` holds last word first. -/
def wordsFrom? (done : List Word) : List UInt8 → Option (List Word)
  | [] => some done.reverse
  | [_] => none
  | high :: low :: rest => wordsFrom? (Word.ofBytes high low :: done) rest

/-- The words of bytes, none for an odd number of bytes. -/
def words? (bytes : List UInt8) : Option (List Word) :=
  wordsFrom? [] bytes

theorem wordsFrom?_eq (done : List Word) (bytes : List UInt8) :
    wordsFrom? done bytes = (words? bytes).map (done.reverse ++ ·) := by
  suffices h : ∀ (n : Nat) (done : List Word) (bytes : List UInt8), bytes.length ≤ n →
      wordsFrom? done bytes = (words? bytes).map (done.reverse ++ ·) from
    h bytes.length done bytes (Nat.le_refl _)
  intro n
  induction n with
  | zero =>
    intro done bytes hn
    rw [List.eq_nil_of_length_eq_zero (Nat.le_zero.1 hn)]
    simp [words?, wordsFrom?]
  | succ n ih =>
    intro done bytes hn
    match bytes with
    | [] => simp [words?, wordsFrom?]
    | [_] => simp [words?, wordsFrom?]
    | high :: low :: rest =>
      have hr : rest.length ≤ n := by
        simp only [List.length_cons] at hn
        omega
      rw [words?, wordsFrom?, wordsFrom?, ih _ rest hr, ih [_] rest hr, Option.map_map]
      congr 1
      funext ws
      simp

@[simp]
theorem words?_nil : words? [] = some [] := rfl

theorem words?_cons_cons (high low : UInt8) (rest : List UInt8) :
    words? (high :: low :: rest) = (words? rest).map (Word.ofBytes high low :: ·) := by
  rw [words?, wordsFrom?, wordsFrom?_eq]
  rfl

/-- Reading words back from their bytes. -/
theorem words?_ofWords (ws : List Word) : words? (ofWords ws) = some ws := by
  induction ws with
  | nil => rfl
  | cons w ws ih =>
    rw [ofWords, List.flatMap_cons, Word.bytes, List.cons_append, List.cons_append,
      List.nil_append, words?_cons_cons, Word.ofBytes_bytes]
    rw [ofWords] at ih
    rw [ih]
    rfl

/-! ### Encoding -/

/-- The words of a constant. -/
def constantPair (c : Constant) : List Word :=
  [c.address, c.value]

/-- The words of a subroutine. -/
def frame (s : Subroutine) : List Word :=
  s.address :: UInt16.ofNat s.size :: s.instructions.flatMap Instruction.words

/-- The words of a program whose constants are written in the order of the list. -/
def programWords (constants : List Constant) (subroutines : List Subroutine) : List Word :=
  constants.flatMap constantPair ++ sentinel :: subroutines.flatMap frame

/-- Constants in ascending order of addresses; those at one address keep their order. -/
def sortConstants (cs : List Constant) : List Constant :=
  cs.mergeSort fun c d => c.address ≤ d.address

/-- Refuses a subroutine whose size is no word or whose frame does not fit. -/
def checkFrame (s : Subroutine) : Except BinaryError Unit :=
  if s.size > 65535 then .error (.subroutineTooLarge s.address)
  else if frameFits s.address s.size then .ok ()
  else .error .reservedAddress

/-- The binary form of a program, its constants in ascending order of addresses. -/
def encode (p : Program) : Except BinaryError (List UInt8) :=
  if p.subroutines = [] then .error .missingEntryPoint
  -- The address would be read back as the sentinel.
  else if p.constants.any fun c => c.address == haltAddress then .error .reservedAddress
  else do
    p.subroutines.forM checkFrame
    return magic ++ ofWords (programWords (sortConstants p.constants) p.subroutines)

end WordMachine.Binary
