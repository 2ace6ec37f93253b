import WordMachine.Proofs.Binary.Canonical

namespace WordMachine.Binary

/-!
# Programs that a binary can represent

The encoder looks at sizes of any magnitude and at constants in the order of their declaration, the
decoder at lengths of one word and at constants in the order of their addresses. They draw the line
at the same programs all the same: a program is refused only if no binary tells what is left of it
without names.

* `NamelessForm` — what is left of a program without names, without reference to the encoder;
  `namelessForm_iff` — the one program that it is.
* `encode_eq_ok_iff_decode_eq_ok` — the encoder writes the bytes that are read as that.
* `encode_ok_iff_representable` — so it refuses what no bytes are read as.
-/

/-- A program without names but for that of the last subroutine, which is `main` and the entry, and
with its constants in ascending order of addresses, those at one address in the order that they had.
A program without subroutines has no such form. -/
structure NamelessForm (p q : Program) : Prop where
  constants : StablySorted (p.constants.map fun c => { c with name? := none }) q.constants
  subroutines : q.subroutines = Program.onlyMainNamed p.subroutines
  entry : p.main?.map Subroutine.address = some q.entry

theorem namelessForm_iff {p q : Program} :
    NamelessForm p q ↔ p.subroutines ≠ [] ∧ q = nameless p := by
  constructor
  · rintro ⟨hconstants, hsubroutines, hentry⟩
    have nonempty : p.subroutines ≠ [] := by
      intro hnil
      rw [Program.main?, hnil] at hentry
      cases hentry
    obtain ⟨constants, subroutines, entry⟩ := q
    have hsorted : constants = sortConstants p.withoutSymbols.constants :=
      hconstants.unique (stablySorted_sortConstants _)
    refine ⟨nonempty, ?_⟩
    rw [nameless, hentry, ← hsorted]
    exact congrArg (Program.mk constants · entry) hsubroutines
  · rintro ⟨nonempty, rfl⟩
    refine ⟨stablySorted_sortConstants _, rfl, ?_⟩
    have hmain : p.main? = some (p.subroutines.getLast nonempty) :=
      List.getLast?_eq_some_getLast nonempty
    rw [nameless, hmain]
    rfl

/-- Names are no part of the words. -/
theorem programWords_nameless (p : Program) :
    programWords (nameless p).constants (nameless p).subroutines =
      programWords (sortConstants p.constants) p.subroutines := by
  have hconstants : (nameless p).constants.flatMap constantPair =
      (sortConstants p.constants).flatMap constantPair := by
    show (sortConstants (p.constants.map fun c => { c with name? := none })).flatMap _ = _
    rw [← sortConstants_map (f := fun c => { c with name? := none }) fun _ => rfl,
      List.flatMap_map]
    rfl
  have hsubroutines : (nameless p).subroutines.flatMap frame = p.subroutines.flatMap frame :=
    flatMap_frame_onlyMainNamed p.subroutines
  rw [programWords, programWords, hconstants, hsubroutines]

/-- What the decoder asks of the nameless form, the encoder asks of the program. -/
theorem checks_of_spelled_nameless {p : Program} (h : Spelled (nameless p)) :
    (∀ c ∈ p.constants, c.address ≠ haltAddress) ∧
      ∀ s ∈ p.subroutines, frameFits s.address s.size := by
  constructor
  · intro c hc
    -- The constant is in the form as well, under no name.
    have hmem : { c with name? := none } ∈ (nameless p).constants :=
      (sortConstants_perm _).mem_iff.2 (List.mem_map_of_mem hc)
    have hne := h.address_ne _ hmem
    exact hne
  · intro s hs
    have hframes : (Program.onlyMainNamed p.subroutines).map (fun t => (t.address, t.size)) =
        p.subroutines.map fun t => (t.address, t.size) :=
      Program.map_onlyMainNamed (fun _ _ => rfl) p.subroutines
    have hmem : (s.address, s.size) ∈
        (Program.onlyMainNamed p.subroutines).map fun t => (t.address, t.size) :=
      hframes ▸ List.mem_map_of_mem hs
    obtain ⟨t, ht, heq⟩ := List.mem_map.1 hmem
    obtain ⟨haddress, hsize⟩ := Prod.mk.inj heq
    rw [← haddress, ← hsize]
    exact h.fits t ht

/-- The encoder writes the bytes that are read as the nameless form, if there are any. -/
theorem encode_eq_ok_iff_decode_eq_ok {p q : Program} (wf : p.WellFormed)
    (form : NamelessForm p q) {bytes : List UInt8} :
    encode p = .ok bytes ↔ decode bytes = .ok q := by
  obtain ⟨nonempty, rfl⟩ := namelessForm_iff.1 form
  constructor
  · exact decode_of_checks wf
  · intro h
    obtain ⟨hspelled, rfl⟩ := decode_eq_ok_iff.1 h
    obtain ⟨hconstants, hframes⟩ := checks_of_spelled_nameless hspelled
    exact encode_eq_ok_iff.2
      ⟨nonempty, hconstants, hframes, by rw [programWords_nameless]⟩

/-- **Representable programs.** The encoder accepts a program exactly if some bytes are read as the
nameless form of it, and it writes just these bytes. -/
theorem encode_ok_iff_representable {p : Program} (wf : p.WellFormed) :
    ((∃ bytes, encode p = .ok bytes) ↔ ∃ bytes q, NamelessForm p q ∧ decode bytes = .ok q) ∧
      ∀ q, NamelessForm p q → ∀ bytes, encode p = .ok bytes ↔ decode bytes = .ok q := by
  refine ⟨?_, fun q form bytes => encode_eq_ok_iff_decode_eq_ok wf form⟩
  constructor
  · rintro ⟨bytes, h⟩
    have form : NamelessForm p (nameless p) :=
      namelessForm_iff.2 ⟨(encode_eq_ok_iff.1 h).1, rfl⟩
    exact ⟨bytes, nameless p, form, decode_of_checks wf h⟩
  · rintro ⟨bytes, q, form, h⟩
    exact ⟨bytes, (encode_eq_ok_iff_decode_eq_ok wf form).2 h⟩

/-- A program of some instructions that do nothing, from the first address on. -/
def idle (n : Nat) : Program :=
  ⟨[], [⟨some mainName, 0, List.replicate n ⟨.nop, []⟩⟩], 0⟩

theorem idle_wellFormed (n : Nat) : (idle n).WellFormed := by
  intro s hs i hi
  obtain rfl := List.mem_singleton.1 hs
  obtain rfl := List.eq_of_mem_replicate hi
  rfl

/-- It has a binary form as long as it ends below `haltAddress`. -/
theorem exists_encode_idle_iff (n : Nat) : (∃ bytes, encode (idle n) = .ok bytes) ↔ n ≤ 65535 := by
  have hsize : Subroutine.size ⟨some mainName, 0, List.replicate n ⟨.nop, []⟩⟩ = n := by
    rw [Subroutine.size_eq_sum, List.map_replicate, List.sum_replicate_nat]
    exact Nat.mul_one n
  have hfits : frameFits 0 n ↔ n ≤ 65535 := by
    show (0 : Word) ≠ haltAddress ∧ 0 + n ≤ 65535 ↔ _
    rw [Nat.zero_add]
    exact and_iff_right (by decide)
  simp [encode_eq_ok_iff, idle, hsize, hfits]

/-- The length of one more would be cut down to zero, which fits anywhere. -/
theorem encode_ok_iff_representable_idle :
    (idle 65535).WellFormed ∧ (idle 65536).WellFormed ∧
      (∃ bytes q, NamelessForm (idle 65535) q ∧ decode bytes = .ok q) ∧
      ¬ ∃ bytes q, NamelessForm (idle 65536) q ∧ decode bytes = .ok q := by
  refine ⟨idle_wellFormed _, idle_wellFormed _, ?_, ?_⟩
  · apply (encode_ok_iff_representable (idle_wellFormed _)).1.1
    exact (exists_encode_idle_iff _).2 (Nat.le_refl _)
  · rw [← (encode_ok_iff_representable (idle_wellFormed _)).1, exists_encode_idle_iff]
    decide

end WordMachine.Binary
