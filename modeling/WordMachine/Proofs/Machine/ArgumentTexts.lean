import Mathlib.Algebra.GroupWithZero.Nat
import WordMachine.Proofs.Machine.Arguments
import WordMachine.Proofs.Text.Utf16

namespace WordMachine

/-!
# Reading arguments back

A program finds its arguments from three cells at the top of the address space and tells them apart
by the zero behind each. Nothing of this is cut down to a word or wraps around, since arguments are
refused before they would reach those cells.

* `Memory.wordsFrom` — the words from an address on, as a program reads them.
* `Machine.splitOn_argumentWords` — where each argument ends.
* `Machine.ArgumentsAdded` — what a program may rely on.
* `Machine.wordsFrom_argued`, `Machine.view_argued` — the words of accepted arguments, and the cells
  that are not theirs.
* `Machine.arguments_read_back` — when arguments are accepted, that they are there then, and that
  nothing has changed otherwise.
-/

namespace Memory

/-- The words of `n` addresses from `a` on, modulo the address space. -/
def wordsFrom (m : Memory) (a : Word) (n : Nat) : List Word :=
  (List.range n).map fun k => m.peek (a + UInt16.ofNat k)

theorem wordsFrom_congr {m m' : Memory} {a : Word} {n : Nat}
    (same : ∀ k < n, m'.peek (a + UInt16.ofNat k) = m.peek (a + UInt16.ofNat k)) :
    m'.wordsFrom a n = m.wordsFrom a n :=
  List.map_congr_left fun k hk => same k (List.mem_range.1 hk)

/-- The words that stand in cells one behind the other. -/
theorem wordsFrom_of_placed {m : Memory} {a : Word} {ws : List Word}
    (h : ∀ cell ∈ placed a ws, m.peek cell.1 = cell.2) : m.wordsFrom a ws.length = ws := by
  apply List.ext_getElem (by simp [wordsFrom])
  intro k hk hk'
  simp only [wordsFrom, List.getElem_map, List.getElem_range]
  refine h (_, ws[k]) (List.mem_map.2 ⟨(ws[k], k), ?_, rfl⟩)
  exact List.mem_zipIdx_iff_getElem?.2 (List.getElem?_eq_getElem hk')

/-- Words that end within the address space are read where they were written. -/
theorem wordsFrom_write_placed (m : Memory) {a : Word} {ws : List Word}
    (h : a.toNat + ws.length ≤ 65536) : (m.write (placed a ws)).wordsFrom a ws.length = ws := by
  have nodup : ((placed a ws).map Prod.fst).Nodup := by
    apply List.Nodup.of_map UInt16.toNat
    rw [List.map_map]
    exact (toNat_fst_placed h : (placed a ws).map (fun c => c.1.toNat) = _) ▸ List.nodup_range'
  exact wordsFrom_of_placed fun cell hcell => peek_write_of_mem nodup hcell

end Memory

namespace Machine

/-! ### The words of arguments -/

/-- The number of words of arguments, one for each code unit and one for the end of each. -/
def argumentLength (arguments : List String) : Nat :=
  (arguments.map fun s => (Text.Utf16.encode s).length + 1).sum

theorem length_argumentWords (arguments : List String) :
    (argumentWords arguments).length = argumentLength arguments := by
  rw [argumentWords, argumentLength, List.length_flatMap]
  simp only [List.length_append, List.length_singleton]

/-- If no argument holds a zero, the zeros are the ends of arguments. -/
theorem splitOn_argumentWords {arguments : List String}
    (h : ∀ s ∈ arguments, '\x00' ∉ s.toList) :
    (argumentWords arguments).splitOn 0 = arguments.map Text.Utf16.encode ++ [[]] := by
  induction arguments with
  | nil => rfl
  | cons s arguments ih =>
    rw [List.forall_mem_cons] at h
    have hs : 0 ∉ Text.Utf16.encode s := fun hzero => h.1 (Text.Utf16.zero_mem_encode_iff.1 hzero)
    have htail := ih h.2
    rw [argumentWords] at htail ⊢
    rw [List.flatMap_cons, List.append_assoc, List.singleton_append,
      List.splitOn_append_cons_self_of_not_mem hs, htail, List.map_cons, List.cons_append]

/-! ### What a program finds -/

/-- What a program may rely on when arguments have been accepted: the three cells tell of them and
nothing is cut down to a word, no other cells have changed, and the words up to each zero are those
of one argument. -/
structure ArgumentsAdded (m n : Machine) (arguments : List String) : Prop where
  length : (n.memory.peek argumentLengthAddress).toNat = argumentLength arguments
  count : (n.memory.peek argumentCountAddress).toNat = arguments.length
  heapStart : n.memory.peek heapStartAddress = m.layout.heapStart
  cells : ∀ a, a ≠ argumentLengthAddress → a ≠ argumentCountAddress → a ≠ heapStartAddress →
    ¬ (m.layout.heapStart.toNat ≤ a.toNat ∧
      a.toNat < m.layout.heapStart.toNat + argumentLength arguments) →
    n.memory.peek a = m.memory.peek a ∧ n.memory.isMapped a = m.memory.isMapped a
  registers : n.registers = m.registers
  layout : n.layout = m.layout
  texts : (∀ s ∈ arguments, '\x00' ∉ s.toList) → ∃ pieces : List (List Word),
    (n.memory.wordsFrom m.layout.heapStart (argumentLength arguments)).splitOn 0 = pieces ++ [[]] ∧
      pieces.length = (n.memory.peek argumentCountAddress).toNat ∧
      pieces.map Text.Utf16.decode = arguments.map fun s => s.toList.map some

/-! ### The memory behind accepted arguments -/

variable {m : Machine} {arguments : List String}

section Room

variable (room : (argumentWords arguments).length ≤
  argumentCountAddress.toNat - m.layout.heapStart.toNat)

include room

/-- Neither the words of accepted arguments nor their cells are beyond the address space. -/
theorem toNat_add_length_le :
    m.layout.heapStart.toNat + (argumentWords arguments).length ≤ 65535 := by
  have hlt := m.layout.heapStart.toNat_lt
  have hcount : argumentCountAddress.toNat = 65533 := rfl
  omega

/-- The cells that are not written when arguments are accepted. -/
theorem view_argued {a : Word} (length : a ≠ argumentLengthAddress)
    (count : a ≠ argumentCountAddress) (heap : a ≠ heapStartAddress)
    (outside : ¬ (m.layout.heapStart.toNat ≤ a.toNat ∧
      a.toNat < m.layout.heapStart.toNat + (argumentWords arguments).length)) :
    (m.argued arguments).memory.peek a = m.memory.peek a ∧
      (m.argued arguments).memory.isMapped a = m.memory.isMapped a := by
  have hend := toNat_add_length_le room
  have hwords : a ∉ (placed m.layout.heapStart (argumentWords arguments)).map Prod.fst := by
    intro hmem
    have hmem := List.mem_map_of_mem (f := UInt16.toNat) hmem
    have hrange : (placed m.layout.heapStart (argumentWords arguments)).map
        (fun cell => cell.1.toNat) = _ := toNat_fst_placed (by omega)
    simp only [List.map_map, Function.comp_def, hrange, List.mem_range'_1] at hmem
    exact outside hmem
  constructor
  · rw [argued, Memory.peek_set, if_neg heap.symm, Memory.peek_set, if_neg count.symm,
      Memory.peek_set, if_neg length.symm, Memory.peek_write_of_notMem hwords]
  · simp only [argued, Memory.isMapped_set, heap.symm, count.symm, length.symm, decide_false,
      Bool.false_or, Memory.isMapped_write_of_notMem hwords]

/-- The words of accepted arguments end below the cells that tell of them. -/
theorem wordsFrom_argued :
    (m.argued arguments).memory.wordsFrom m.layout.heapStart (argumentWords arguments).length =
      argumentWords arguments := by
  have hend := toNat_add_length_le room
  refine (Memory.wordsFrom_congr ?_).trans
    (Memory.wordsFrom_write_placed m.memory (by omega))
  intro k hk
  have hcell : (m.layout.heapStart + UInt16.ofNat k).toNat = m.layout.heapStart.toNat + k :=
    toNat_add_ofNat (by omega)
  have below : ∀ a : Word, argumentCountAddress.toNat ≤ a.toNat →
      a ≠ m.layout.heapStart + UInt16.ofNat k := by
    rintro a ha rfl
    omega
  rw [argued, Memory.peek_set, if_neg (below _ (by decide)), Memory.peek_set,
    if_neg (below _ (by decide)), Memory.peek_set, if_neg (below _ (by decide))]

/-- The three cells hold what they should. -/
theorem toNat_peek_argued :
    ((m.argued arguments).memory.peek argumentLengthAddress).toNat =
        (argumentWords arguments).length ∧
      ((m.argued arguments).memory.peek argumentCountAddress).toNat = arguments.length ∧
      (m.argued arguments).memory.peek heapStartAddress = m.layout.heapStart := by
  have hend := toNat_add_length_le room
  have hcount := length_le_length_argumentWords arguments
  refine ⟨?_, ?_, ?_⟩
  · rw [argued, Memory.peek_set, if_neg (by decide), Memory.peek_set, if_neg (by decide),
      Memory.peek_set, if_pos rfl, UInt16.toNat_ofNat']
    omega
  · rw [argued, Memory.peek_set, if_neg (by decide), Memory.peek_set, if_pos rfl,
      UInt16.toNat_ofNat']
    omega
  · rw [argued, Memory.peek_set, if_pos rfl]

theorem argumentsAdded_argued : m.ArgumentsAdded (m.argued arguments) arguments := by
  obtain ⟨hlength, hcount, hheap⟩ := toNat_peek_argued room
  refine ⟨by rw [hlength, length_argumentWords], hcount, hheap, ?_, rfl, rfl, ?_⟩
  · intro a length count heap outside
    rw [← length_argumentWords] at outside
    exact view_argued room length count heap outside
  · intro nonzero
    refine ⟨arguments.map Text.Utf16.encode, ?_, ?_, ?_⟩
    · rw [← length_argumentWords, wordsFrom_argued room, splitOn_argumentWords nonzero]
    · rw [hcount, List.length_map]
    · rw [List.map_map]
      exact List.map_congr_left fun s _ => Text.Utf16.decode_encode_eq_map_some s

end Room

/-- **Arguments are read back.** Arguments are refused exactly if their words would reach the cells
that tell of them, and the machine that is left behind then is the one before. Otherwise a program
finds all of them, and nothing else has changed. -/
theorem arguments_read_back (m : Machine) (arguments : List String) :
    ((∃ e n, (copyArguments arguments).run m = .error e n) ↔
        argumentCountAddress.toNat - m.layout.heapStart.toNat < argumentLength arguments) ∧
      (∀ e n, (copyArguments arguments).run m = .error e n →
        e = .heapOverflow (argumentLength arguments)
            (argumentCountAddress.toNat - m.layout.heapStart.toNat) ∧
          n = m ∧ m.loadArguments arguments = .error e) ∧
      (argumentLength arguments ≤ argumentCountAddress.toNat - m.layout.heapStart.toNat →
        ∃ n, (copyArguments arguments).run m = .ok () n ∧ m.loadArguments arguments = .ok n ∧
          m.ArgumentsAdded n arguments) := by
  rw [← length_argumentWords]
  refine ⟨?_, ?_, ?_⟩
  · constructor
    · rintro ⟨e, n, hrun⟩
      by_contra room
      rw [run_copyArguments_of_room (Nat.not_lt.1 room)] at hrun
      cases hrun
    · exact fun crowded => ⟨_, _, run_copyArguments_of_crowded crowded⟩
  · intro e n hrun
    refine ⟨?_, atomic_copyArguments arguments m n e hrun,
      InPlace.accepted_eq_error_iff.2 ⟨n, hrun⟩⟩
    rw [run_copyArguments] at hrun
    split at hrun
    · cases hrun
      rfl
    · cases hrun
  · intro room
    exact ⟨_, run_copyArguments_of_room room, loadArguments_eq_ok_iff.2 ⟨room, rfl⟩,
      argumentsAdded_argued room⟩

/-- A machine whose heap has four words in front of the cells that tell of arguments. -/
def narrow : Machine where
  registers := .zero
  memory := .blank
  layout := ⟨⟨0, 0⟩, 0xFFF9⟩

/-- An empty argument and one with a surrogate pair fill it to the last word, and one more argument,
though empty, is refused and changes nothing. -/
theorem arguments_read_back_narrow :
    (∃ n, (copyArguments ["", "😀"]).run narrow = .ok () n ∧ ∃ pieces : List (List Word),
      (n.memory.wordsFrom 0xFFF9 4).splitOn 0 = pieces ++ [[]] ∧
        pieces.map Text.Utf16.decode = [[], [some '😀']]) ∧
      (copyArguments ["", "😀", ""]).run narrow = .error (.heapOverflow 5 4) narrow := by
  obtain ⟨-, -, accepted⟩ := arguments_read_back narrow ["", "😀"]
  obtain ⟨refused, kept, -⟩ := arguments_read_back narrow ["", "😀", ""]
  obtain ⟨n, hrun, -, added⟩ := accepted (by decide)
  obtain ⟨pieces, hsplit, -, hpieces⟩ := added.texts (by decide)
  obtain ⟨e, n', hrefused⟩ := refused.2 (by decide)
  obtain ⟨rfl, rfl, -⟩ := kept e n' hrefused
  exact ⟨⟨n, hrun, pieces, hsplit, hpieces⟩, hrefused⟩

end Machine

end WordMachine
