import WordMachine.Binary.Decode
import WordMachine.Proofs.Binary.ConstantOrder
import WordMachine.Proofs.Placement
import WordMachine.Proofs.Sequence

namespace WordMachine.Binary

open Sequence

/-!
# Reading back what was written

A binary holds no marks between instructions or frames, and any of its words may look like a mark.
Each reader finds the end of its part nevertheless, since the writer's checks imply its own.

* `constantsFrom_pairs`, `instructionsFrom_words`, `subroutinesFrom_frames` — each reader, on the
  words of its part.
* `encode_eq_ok_iff` — the programs that have a binary form.
* `nameless` — what the binary form of a program keeps of it.
* `decode_encode` — decoding yields just that.
-/

/-! ### The readers on what was written -/

theorem constantsFrom_sentinel (offset : Nat) (rest : List Word) :
    constantsFrom [] offset (sentinel :: rest) = .ok ([], offset + 1, rest) := by
  cases rest <;> simp [constantsFrom]

theorem constantsFrom_cons_cons {address : Word} (h : address ≠ sentinel) (offset : Nat)
    (value : Word) (rest : List Word) :
    constantsFrom [] offset (address :: value :: rest) =
      (constantsFrom [] (offset + 2) rest).map fun (cs, o, rest) =>
        (⟨none, address, value⟩ :: cs, o, rest) := by
  rw [constantsFrom, if_neg h, constantsFrom_eq]
  rfl

/-- Constants are read up to the first sentinel at the place of an address, so a value may be the
sentinel. -/
theorem constantsFrom_pairs {cs : List Constant} (h : ∀ c ∈ cs, c.address ≠ haltAddress)
    (offset : Nat) (rest : List Word) :
    constantsFrom [] offset (cs.flatMap constantPair ++ sentinel :: rest) =
      .ok (cs.map fun c => { c with name? := none }, offset + 2 * cs.length + 1, rest) := by
  induction cs generalizing offset with
  | nil => exact constantsFrom_sentinel offset rest
  | cons c cs ih =>
    -- The address is no sentinel, and the value behind it is not compared with one.
    have hc : c.address ≠ sentinel := h c List.mem_cons_self
    have htail := ih (fun d hd => h d (List.mem_cons_of_mem c hd)) (offset + 2)
    have hoffset : offset + 2 + 2 * cs.length = offset + 2 * (c :: cs).length := by
      rw [List.length_cons]
      omega
    rw [List.flatMap_cons, constantPair, List.append_assoc, List.cons_append, List.cons_append,
      List.nil_append, constantsFrom_cons_cons hc, htail, hoffset]
    rfl

/-- The opcode of an instruction tells where it ends. -/
theorem instructionsFrom_words {is : List Instruction} (h : ∀ i ∈ is, i.WellFormed)
    (address : Word) (offset : Nat) :
    instructionsFrom [] address offset (is.flatMap Instruction.words) = .ok is := by
  induction is generalizing address offset with
  | nil => rw [List.flatMap_nil, instructionsFrom, List.reverse_nil]
  | cons i is ih =>
    have hi : i.operands.length = i.opcode.operandCount := h i List.mem_cons_self
    have htail := ih fun j hj => h j (List.mem_cons_of_mem i hj)
    rw [List.flatMap_cons, Instruction.words, List.cons_append, instructionsFrom,
      Opcode.ofCode?_code]
    simp only [List.take_left' hi, List.drop_left' hi, hi, Nat.lt_irrefl, if_false]
    rw [instructionsFrom_eq, htail]
    rfl

/-- A frame that ends below `haltAddress` has a length that a word holds. -/
theorem toNat_size_of_fits {s : Subroutine} (fits : frameFits s.address s.size) :
    (UInt16.ofNat s.size).toNat = s.size := by
  have hend : s.address.toNat + s.size ≤ 65535 := fits.2
  rw [UInt16.toNat_ofNat']
  omega

/-- The length in a frame tells where it ends. -/
theorem subroutinesFrom_frame_append {s : Subroutine} (wf : s.WellFormed)
    (fits : frameFits s.address s.size) (offset : Nat) (rest : List Word) :
    subroutinesFrom [] offset (frame s ++ rest) =
      (subroutinesFrom [] (offset + 2 + s.size) rest).map ({ s with name? := none } :: ·) := by
  have hlen : s.words.length = s.size := wf.length_words
  have hsize := toNat_size_of_fits fits
  have hbody := instructionsFrom_words wf s.address (offset + 2)
  rw [Subroutine.words] at hlen
  rw [frame, List.cons_append, List.cons_append, subroutinesFrom]
  simp only [hsize, fits, not_true_eq_false, if_false, List.take_left' hlen,
    List.drop_left' hlen, hlen, Nat.lt_irrefl, hbody]
  rw [subroutinesFrom_eq]
  rfl

theorem subroutinesFrom_frames {ss : List Subroutine} (wf : ∀ s ∈ ss, s.WellFormed)
    (fits : ∀ s ∈ ss, frameFits s.address s.size) (offset : Nat) :
    subroutinesFrom [] offset (ss.flatMap frame) =
      .ok (ss.map fun s => { s with name? := none }) := by
  induction ss generalizing offset with
  | nil => rw [List.flatMap_nil, subroutinesFrom, List.reverse_nil, List.map_nil]
  | cons s ss ih =>
    rw [List.forall_mem_cons] at wf fits
    rw [List.flatMap_cons, subroutinesFrom_frame_append wf.1 fits.1, ih wf.2 fits.2]
    rfl

/-! ### Which programs have a binary form -/

theorem checkFrame_eq_ok_iff {s : Subroutine} :
    checkFrame s = .ok () ↔ frameFits s.address s.size := by
  unfold checkFrame
  split
  · next hlarge =>
    constructor
    · intro h
      cases h
    · intro h
      have hend : s.address.toNat + s.size ≤ 65535 := h.2
      omega
  · split
    · next h => simp [h]
    · next h => simp [h]

theorem forM_checkFrame_eq_ok_iff {ss : List Subroutine} :
    ss.forM checkFrame = .ok () ↔ ∀ s ∈ ss, frameFits s.address s.size := by
  induction ss with
  | nil => simp [pure, Except.pure]
  | cons s ss ih =>
    rw [List.forM_eq_forM] at ih ⊢
    rw [List.forM_cons, bind_eq_ok_iff, List.forall_mem_cons, ← checkFrame_eq_ok_iff, ← ih]
    constructor
    · rintro ⟨⟨⟩, hs, hss⟩
      exact ⟨hs, hss⟩
    · rintro ⟨hs, hss⟩
      exact ⟨(), hs, hss⟩

/-- The encoder's checks, and the bytes that it writes if they pass. -/
theorem encode_eq_ok_iff {p : Program} {bytes : List UInt8} :
    encode p = .ok bytes ↔
      p.subroutines ≠ [] ∧ (∀ c ∈ p.constants, c.address ≠ haltAddress) ∧
        (∀ s ∈ p.subroutines, frameFits s.address s.size) ∧
        bytes = magic ++ ofWords (programWords (sortConstants p.constants) p.subroutines) := by
  unfold encode
  by_cases hsome : p.subroutines = []
  · simp [hsome]
  · rw [if_neg hsome]
    split
    · next hany =>
      simp only [List.any_eq_true, beq_iff_eq] at hany
      obtain ⟨c, hc, haddr⟩ := hany
      simp only [reduceCtorEq, false_iff]
      rintro ⟨-, hall, -⟩
      exact hall c hc haddr
    · next hany =>
      have hall : ∀ c ∈ p.constants, c.address ≠ haltAddress := by simpa using hany
      rw [bind_eq_ok_iff]
      constructor
      · rintro ⟨⟨⟩, hframes, hbytes⟩
        exact ⟨hsome, hall, forM_checkFrame_eq_ok_iff.1 hframes, (Except.ok.inj hbytes).symm⟩
      · rintro ⟨-, -, hframes, rfl⟩
        exact ⟨(), forM_checkFrame_eq_ok_iff.2 hframes, rfl⟩

/-! ### The round trip -/

/-- The names that there were do not matter, since none of them is kept. -/
theorem onlyMainNamed_map {f : Subroutine → Subroutine}
    (renames : ∀ s name?, { f s with name? } = { s with name? }) (ss : List Subroutine) :
    Program.onlyMainNamed (ss.map f) = Program.onlyMainNamed ss := by
  have hrenames (name? : Option String) :
      (fun s : Subroutine => { s with name? }) ∘ f = fun s => { s with name? } :=
    funext fun s => renames s name?
  rw [Program.onlyMainNamed, Program.onlyMainNamed, ← List.map_dropLast, List.map_map, hrenames,
    List.getLast?_map, Option.toList_map, List.map_map, hrenames]

/-- What the binary form of a program keeps of it: no names but `main`, constants in ascending order
of addresses, and the last subroutine as the entry. -/
def nameless (p : Program) : Program :=
  { p.withoutSymbols with
    constants := sortConstants p.withoutSymbols.constants
    entry := (p.main?.map Subroutine.address).getD p.entry }

/-- The words behind the magic number. -/
theorem decodeWords_programWords {cs : List Constant} {ss : List Subroutine} {last : Subroutine}
    (hlast : ss.getLast? = some last) (hcs : ∀ c ∈ cs, c.address ≠ haltAddress)
    (wf : ∀ s ∈ ss, s.WellFormed) (fits : ∀ s ∈ ss, frameFits s.address s.size) :
    decodeWords (programWords cs ss) =
      .ok ⟨cs.map fun c => { c with name? := none }, Program.onlyMainNamed ss, last.address⟩ := by
  have hconstants := constantsFrom_pairs hcs 0 (ss.flatMap frame)
  have hsubroutines := subroutinesFrom_frames wf fits (0 + 2 * cs.length + 1)
  have hnames := onlyMainNamed_map (f := fun s => { s with name? := none }) (fun _ _ => rfl) ss
  rw [decodeWords, programWords, hconstants]
  simp only [bind, Except.bind, hsubroutines, List.getLast?_map, hlast, Option.map_some,
    hnames]
  rfl

theorem decode_magic_ofWords (ws : List Word) : decode (magic ++ ofWords ws) = decodeWords ws := by
  rw [decode, if_neg (by simp), List.drop_left]
  simp only [words?_ofWords]

/-- Reading back a program that passes the encoder's checks. -/
theorem decode_of_checks {p : Program} (wf : p.WellFormed) {bytes : List UInt8}
    (h : encode p = .ok bytes) : decode bytes = .ok (nameless p) := by
  obtain ⟨hsome, hcs, hframes, rfl⟩ := encode_eq_ok_iff.1 h
  have hlast : p.subroutines.getLast? = some (p.subroutines.getLast hsome) :=
    List.getLast?_eq_some_getLast hsome
  have hsorted : ∀ c ∈ sortConstants p.constants, c.address ≠ haltAddress := fun c hc =>
    hcs c ((sortConstants_perm p.constants).mem_iff.1 hc)
  have hnames := sortConstants_map (f := fun c => { c with name? := none }) (fun _ => rfl)
    p.constants
  rw [decode_magic_ofWords, decodeWords_programWords hlast hsorted wf hframes, hnames]
  simp only [nameless, Program.withoutSymbols, Program.main?, hlast, Option.map_some,
    Option.getD_some]

/-- **Round trip.** The binary form of a program is read back as the program itself, but for its
names, the order of its constants, which is that of their addresses and otherwise unchanged, and its
entry, which is the last subroutine. -/
theorem decode_encode {p : Program} (wf : p.WellFormed) {bytes : List UInt8}
    (h : encode p = .ok bytes) :
    decode bytes = .ok (nameless p) ∧
      StablySorted p.withoutSymbols.constants (nameless p).constants ∧
      p.main?.map Subroutine.address = some (nameless p).entry := by
  refine ⟨decode_of_checks wf h, stablySorted_sortConstants _, ?_⟩
  obtain ⟨hsome, -⟩ := encode_eq_ok_iff.1 h
  have hlast : p.main? = some (p.subroutines.getLast hsome) :=
    List.getLast?_eq_some_getLast hsome
  rw [nameless, hlast]
  rfl

/-- A program with constants out of order, two of them at one address and one that holds the
sentinel, and with a subroutine inside another. -/
def tangled : Program where
  constants := [⟨some "b", 0x0901, 0xFFFF⟩, ⟨some "a", 0x0900, 0x0041⟩, ⟨none, 0x0901, 0x0002⟩]
  subroutines :=
    [⟨some "f", 0x0903, [⟨.cpl, [0xFFFF, 0x0016]⟩]⟩,
      ⟨some "g", 0x0904, [⟨.cal, [0x0903]⟩, ⟨.ret, []⟩]⟩]
  entry := 0

theorem decode_encode_tangled :
    tangled.WellFormed ∧
      ∃ bytes, encode tangled = .ok bytes ∧ decode bytes = .ok (nameless tangled) := by
  have wf : tangled.WellFormed := by decide
  have sorted : sortConstants tangled.constants =
      [⟨some "a", 0x0900, 0x0041⟩, ⟨some "b", 0x0901, 0xFFFF⟩, ⟨none, 0x0901, 0x0002⟩] := by
    simp [sortConstants, tangled, List.mergeSort]
  have h : encode tangled = .ok
      [0x53, 0x56, 0x43, 0x42,
        0x09, 0x00, 0x00, 0x41, 0x09, 0x01, 0xFF, 0xFF, 0x09, 0x01, 0x00, 0x02, 0xFF, 0xFF,
        0x09, 0x03, 0x00, 0x03, 0x00, 0x02, 0xFF, 0xFF, 0x00, 0x16,
        0x09, 0x04, 0x00, 0x03, 0x00, 0x17, 0x09, 0x03, 0x00, 0x16] := by
    simp only [encode, sorted]
    decide +kernel
  exact ⟨wf, _, h, (decode_encode wf h).1⟩

end WordMachine.Binary
