import WordMachine.Word

namespace WordMachine

/-!
# Memory

Every address holds a word, zero at first, and is mapped once it has been written or read.

* `Memory.peek` and `Memory.isMapped` — the view: a look that changes nothing.
* `Memory.touch` — maps an address, as a read does; `Memory.set` — writes a word.
* `Memory.touchFrom` and `Memory.write` — the same over several addresses.

`peek_set`, `isMapped_set`, `peek_touch` and `isMapped_touch` say what a change does to the view,
`peek_write_of_notMem` and `peek_write_of_mem` what a sequence of writes does, `Memory.ext_view`
that a memory is no more than its view, and `Memory.write_congr` which writes may change places.
-/

/-- The number of addresses. -/
abbrev addressCount : Nat := 65536

/-- Word-addressed memory over all addresses. -/
structure Memory where
  words : Vector Word addressCount
  mapped : Vector Bool addressCount

namespace Memory

/-- The memory in which nothing has been written or read. -/
def blank : Memory :=
  ⟨Vector.replicate _ 0, Vector.replicate _ false⟩

/-- The word at an address. -/
def peek (m : Memory) (a : Word) : Word :=
  have : a.toNat < addressCount := a.toNat_lt
  m.words[a.toNat]

/-- Whether an address has been written or read. -/
def isMapped (m : Memory) (a : Word) : Bool :=
  have : a.toNat < addressCount := a.toNat_lt
  m.mapped[a.toNat]

/-- Maps an address, as a read of it does. -/
def touch (m : Memory) (a : Word) : Memory :=
  { m with mapped := m.mapped.set a.toNat true a.toNat_lt }

/-- Writes a word and maps its address. -/
def set (m : Memory) (a w : Word) : Memory where
  words := m.words.set a.toNat w a.toNat_lt
  mapped := m.mapped.set a.toNat true a.toNat_lt

/-- Maps `n` addresses from `a` on, modulo the address space. -/
def touchFrom (m : Memory) (a : Word) : Nat → Memory
  | 0 => m
  | n + 1 => touchFrom (m.touch a) (a + 1) n

/-- Writes pairs of an address and a word in their order. -/
def write (m : Memory) (cells : List (Word × Word)) : Memory :=
  cells.foldl (fun m (a, w) => m.set a w) m

/-- The words of the first `n` addresses. -/
def firstWords (m : Memory) (n : Nat) : List Word :=
  (List.range (min n addressCount)).map fun a => m.peek (UInt16.ofNat a)

/-- The mapped addresses in ascending order. -/
def mappedAddresses (m : Memory) : List Word :=
  ((List.range addressCount).map UInt16.ofNat).filter m.isMapped

/-! ### The view -/

@[simp]
theorem peek_blank (a : Word) : blank.peek a = 0 := by
  simp [blank, peek]

@[simp]
theorem isMapped_blank (a : Word) : blank.isMapped a = false := by
  simp [blank, isMapped]

theorem peek_set (m : Memory) (a b w : Word) :
    (m.set a w).peek b = if a = b then w else m.peek b := by
  simp only [peek, set, Vector.getElem_set, UInt16.toNat_inj]

theorem isMapped_set (m : Memory) (a b w : Word) :
    (m.set a w).isMapped b = (decide (a = b) || m.isMapped b) := by
  simp only [isMapped, set, Vector.getElem_set, UInt16.toNat_inj]
  by_cases h : a = b <;> simp [h]

@[simp]
theorem peek_touch (m : Memory) (a b : Word) : (m.touch a).peek b = m.peek b := rfl

theorem isMapped_touch (m : Memory) (a b : Word) :
    (m.touch a).isMapped b = (decide (a = b) || m.isMapped b) := by
  simp only [isMapped, touch, Vector.getElem_set, UInt16.toNat_inj]
  by_cases h : a = b <;> simp [h]

@[simp]
theorem peek_touchFrom (m : Memory) (a b : Word) (n : Nat) :
    (m.touchFrom a n).peek b = m.peek b := by
  induction n generalizing m a with
  | zero => rfl
  | succ n ih => rw [touchFrom, ih, peek_touch]

theorem isMapped_touchFrom (m : Memory) (a b : Word) (n : Nat) :
    (m.touchFrom a n).isMapped b =
      ((List.range n).any (fun k => a + UInt16.ofNat k == b) || m.isMapped b) := by
  induction n generalizing m a with
  | zero => rfl
  | succ n ih =>
    have shift : ∀ k, a + 1 + UInt16.ofNat k = a + UInt16.ofNat (k + 1) := fun k => by
      rw [UInt16.ofNat_add, UInt16.add_assoc, UInt16.add_comm (UInt16.ofNat k)]
      rfl
    rw [touchFrom, ih, isMapped_touch, List.range_succ_eq_map, List.any_cons, List.any_map]
    have first : (a + UInt16.ofNat 0 == b) = decide (a = b) := by
      rw [show a + UInt16.ofNat 0 = a from UInt16.add_zero a]
      rfl
    simp only [Function.comp_def, shift, first, Nat.succ_eq_add_one]
    cases decide (a = b) <;> simp

theorem length_firstWords (m : Memory) (n : Nat) :
    (m.firstWords n).length = min n addressCount := by
  simp [firstWords]

/-- The listed addresses are the mapped ones. -/
theorem mem_mappedAddresses {m : Memory} {a : Word} :
    a ∈ m.mappedAddresses ↔ m.isMapped a = true := by
  simp only [mappedAddresses, List.mem_filter, List.mem_map, List.mem_range]
  constructor
  · exact fun h => h.2
  · exact fun h => ⟨⟨a.toNat, a.toNat_lt, UInt16.ofNat_toNat⟩, h⟩

theorem write_nil (m : Memory) : m.write [] = m := rfl

theorem write_cons (m : Memory) (a w : Word) (cells : List (Word × Word)) :
    m.write ((a, w) :: cells) = (m.set a w).write cells := rfl

theorem write_append (m : Memory) (cells more : List (Word × Word)) :
    m.write (cells ++ more) = (m.write cells).write more :=
  List.foldl_append

/-- Cells that are not written keep their words. -/
theorem peek_write_of_notMem {m : Memory} {cells : List (Word × Word)} {a : Word}
    (h : a ∉ cells.map Prod.fst) : (m.write cells).peek a = m.peek a := by
  induction cells generalizing m with
  | nil => rfl
  | cons cell cells ih =>
    obtain ⟨b, w⟩ := cell
    rw [List.map_cons, List.mem_cons, not_or] at h
    obtain ⟨hne, hrest⟩ := h
    rw [write_cons, ih hrest, peek_set, if_neg (Ne.symm hne)]

/-- A cell that is written once holds the word written. -/
theorem peek_write_of_mem {m : Memory} {cells : List (Word × Word)}
    (nodup : (cells.map Prod.fst).Nodup) {a w : Word} (h : (a, w) ∈ cells) :
    (m.write cells).peek a = w := by
  induction cells generalizing m with
  | nil => cases h
  | cons cell cells ih =>
    obtain ⟨b, v⟩ := cell
    rw [List.map_cons, List.nodup_cons] at nodup
    rw [write_cons]
    rcases List.mem_cons.1 h with heq | hmem
    · -- No later write goes to the same address.
      obtain ⟨rfl, rfl⟩ := Prod.mk.inj heq
      rw [peek_write_of_notMem nodup.1, peek_set, if_pos rfl]
    · exact ih nodup.2 hmem

/-- What a cell holds after several writes depends on the writes to it alone, and on what it held
before. -/
theorem view_write_filter {m n : Memory} {a : Word} (hw : m.peek a = n.peek a)
    (hm : m.isMapped a = n.isMapped a) (cells : List (Word × Word)) :
    (m.write cells).peek a = (n.write (cells.filter fun c => c.1 = a)).peek a ∧
      (m.write cells).isMapped a = (n.write (cells.filter fun c => c.1 = a)).isMapped a := by
  induction cells generalizing m n with
  | nil => exact ⟨hw, hm⟩
  | cons cell cells ih =>
    obtain ⟨b, w⟩ := cell
    rw [write_cons]
    by_cases h : b = a
    · -- The cell is written in both memories.
      rw [List.filter_cons_of_pos (by simpa using h), write_cons]
      exact ih (by rw [peek_set, peek_set, hw]) (by rw [isMapped_set, isMapped_set, hm])
    · rw [List.filter_cons_of_neg (by simpa using h)]
      exact ih (by rw [peek_set, if_neg h, hw]) (by simp [isMapped_set, h, hm])

/-- Cells that are not written are mapped only if they were. -/
theorem isMapped_write_of_notMem {m : Memory} {cells : List (Word × Word)} {a : Word}
    (h : a ∉ cells.map Prod.fst) : (m.write cells).isMapped a = m.isMapped a := by
  have none : (cells.filter fun c => c.1 = a) = [] := by
    rw [List.filter_eq_nil_iff]
    rintro cell hcell heq
    exact h (List.mem_map.2 ⟨cell, hcell, by simpa using heq⟩)
  have hview := (view_write_filter (m := m) (a := a) rfl rfl cells).2
  rwa [none, write_nil] at hview

/-- Two memories with the same view are equal. -/
theorem ext_view {m n : Memory} (hw : ∀ a, m.peek a = n.peek a)
    (hm : ∀ a, m.isMapped a = n.isMapped a) : m = n := by
  obtain ⟨mw, mm⟩ := m
  obtain ⟨nw, nm⟩ := n
  have key : ∀ i, i < addressCount → (UInt16.ofNat i).toNat = i := fun i hi => by
    rw [UInt16.toNat_ofNat']
    exact Nat.mod_eq_of_lt hi
  have words : mw = nw := Vector.ext fun i hi => by
    have := hw (UInt16.ofNat i)
    simp only [peek, key i hi] at this
    exact this
  have mapped : mm = nm := Vector.ext fun i hi => by
    have := hm (UInt16.ofNat i)
    simp only [isMapped, key i hi] at this
    exact this
  rw [words, mapped]

/-- Writes to different cells may change places, as long as each cell is written in the same
order. -/
theorem write_congr (m : Memory) {cells others : List (Word × Word)}
    (same : ∀ a, cells.filter (fun c => c.1 = a) = others.filter fun c => c.1 = a) :
    m.write cells = m.write others := by
  have view : ∀ a, (m.write cells).peek a = (m.write others).peek a ∧
      (m.write cells).isMapped a = (m.write others).isMapped a := by
    intro a
    obtain ⟨hw, hm⟩ := view_write_filter (m := m) (a := a) rfl rfl cells
    obtain ⟨hw', hm'⟩ := view_write_filter (m := m) (a := a) rfl rfl others
    rw [hw, hm, hw', hm', same a]
    exact ⟨rfl, rfl⟩
  exact ext_view (fun a => (view a).1) fun a => (view a).2

end Memory

end WordMachine
