import WordMachine.Proofs.Binary.RoundTrip
import WordMachine.Proofs.Shape

namespace WordMachine.Binary

open Sequence

/-!
# Accepted bytes

What a reader accepts is what a writer could have written, word for word: no two binaries spell the
same program, and none holds a word that its program does not show. Only the order of constants is
left to the writer.

* `constantsFrom_eq_ok`, `instructionsFrom_eq_ok`, `subroutinesFrom_eq_ok` — each reader, from what
  it answers back to the words of its part.
* `Spelled` — the programs that some bytes spell.
* `decode_eq_ok_iff` — the bytes that spell a program.
* `decode_accepts_format` — that, with what follows for reading twice and for writing again.
-/

/-! ### The readers on any words -/

theorem words?_eq_some {bytes : List UInt8} {ws : List Word} (h : words? bytes = some ws) :
    bytes = ofWords ws := by
  match bytes with
  | [] =>
    obtain rfl : [] = ws := Option.some.inj h
    rfl
  | [_] => cases h
  | high :: low :: rest =>
    rw [words?_cons_cons, Option.map_eq_some_iff] at h
    obtain ⟨vs, hvs, rfl⟩ := h
    have hrest := words?_eq_some hvs
    rw [ofWords, List.flatMap_cons, Word.bytes_ofBytes, ← ofWords, ← hrest]
    rfl

/-- Constants stand in front of the sentinel, two words each. -/
theorem constantsFrom_eq_ok {offset o : Nat} {ws rest : List Word} {cs : List Constant}
    (h : constantsFrom [] offset ws = .ok (cs, o, rest)) :
    (∀ c ∈ cs, c.name? = none ∧ c.address ≠ haltAddress) ∧
      ws = cs.flatMap constantPair ++ sentinel :: rest := by
  match ws with
  | [] => cases h
  | address :: ws =>
    by_cases hsentinel : address = sentinel
    · subst hsentinel
      rw [constantsFrom_sentinel] at h
      cases h
      exact ⟨by simp, rfl⟩
    · match ws with
      | [] =>
        rw [constantsFrom, if_neg hsentinel] at h
        cases h
      | value :: ws =>
        -- A pair is read off, and the rest is read in the same way.
        rw [constantsFrom_cons_cons hsentinel, map_eq_ok_iff] at h
        obtain ⟨⟨ds, _, _⟩, htail, heq⟩ := h
        cases heq
        obtain ⟨hds, rfl⟩ := constantsFrom_eq_ok htail
        exact ⟨List.forall_mem_cons.2 ⟨⟨rfl, hsentinel⟩, hds⟩, rfl⟩

/-- The instructions of a frame fill it. -/
theorem instructionsFrom_eq_ok {address : Word} {offset : Nat} {ws : List Word}
    {is : List Instruction} (h : instructionsFrom [] address offset ws = .ok is) :
    (∀ i ∈ is, i.WellFormed) ∧ ws = is.flatMap Instruction.words := by
  match ws with
  | [] =>
    rw [instructionsFrom] at h
    cases h
    exact ⟨by simp, rfl⟩
  | code :: ws =>
    rw [instructionsFrom] at h
    cases hcode : Opcode.ofCode? code with
    | none =>
      rw [hcode] at h
      cases h
    | some opcode =>
      simp only [hcode] at h
      split at h
      · cases h
      · next hlong =>
        rw [instructionsFrom_eq, map_eq_ok_iff] at h
        obtain ⟨js, htail, rfl⟩ := h
        obtain ⟨hjs, hrest⟩ := instructionsFrom_eq_ok htail
        -- The words taken are not fewer than the opcode takes.
        have hcount : (ws.take opcode.operandCount).length = opcode.operandCount := by
          have := List.length_take_le opcode.operandCount ws
          omega
        have hwords : code :: ws =
            Instruction.words ⟨opcode, ws.take opcode.operandCount⟩ ++
              js.flatMap Instruction.words := by
          rw [← hrest, Instruction.words, Opcode.ofCode?_eq_some_iff.1 hcode, List.cons_append,
            List.take_append_drop]
        exact ⟨List.forall_mem_cons.2 ⟨hcount, hjs⟩, hwords⟩
termination_by ws.length
decreasing_by
  simp only [List.length_drop, List.length_cons]
  omega

/-- The frames of subroutines reach up to the last word. -/
theorem subroutinesFrom_eq_ok {offset : Nat} {ws : List Word} {ss : List Subroutine}
    (h : subroutinesFrom [] offset ws = .ok ss) :
    (∀ s ∈ ss, s.name? = none ∧ s.WellFormed ∧ frameFits s.address s.size) ∧
      ws = ss.flatMap frame := by
  match ws with
  | [] =>
    rw [subroutinesFrom] at h
    cases h
    exact ⟨by simp, rfl⟩
  | [_] =>
    rw [subroutinesFrom] at h
    cases h
  | address :: size :: ws =>
    rw [subroutinesFrom] at h
    simp only at h
    split at h
    · cases h
    · next hfits =>
      rw [not_not] at hfits
      split at h
      · cases h
      · next hlong =>
        split at h
        · cases h
        · next is his =>
          rw [subroutinesFrom_eq, map_eq_ok_iff] at h
          obtain ⟨ts, htail, rfl⟩ := h
          obtain ⟨hts, hrest⟩ := subroutinesFrom_eq_ok htail
          obtain ⟨hwf, hbody⟩ := instructionsFrom_eq_ok his
          -- The instructions fill the body, so their size is the length in the header.
          have hsize : Subroutine.size ⟨none, address, is⟩ = size.toNat := by
            have hlen : (ws.take size.toNat).length = Subroutine.size ⟨none, address, is⟩ := by
              rw [hbody]
              exact Subroutine.WellFormed.length_words (s := ⟨none, address, is⟩) hwf
            have := List.length_take_le size.toNat ws
            omega
          have hwords : address :: size :: ws =
              frame ⟨none, address, is⟩ ++ ts.flatMap frame := by
            rw [← hrest, frame, hsize, UInt16.ofNat_toNat, ← hbody, List.cons_append,
              List.cons_append, List.take_append_drop]
          exact ⟨List.forall_mem_cons.2 ⟨⟨rfl, hwf, hsize ▸ hfits⟩, hts⟩, hwords⟩
termination_by ws.length
decreasing_by
  simp only [List.length_drop, List.length_cons]
  omega

/-! ### Taking names away -/

/-- What does not depend on the name of a subroutine outlasts the dropping of names. -/
theorem forall_mem_onlyMainNamed {P : Subroutine → Prop}
    (renamed : ∀ s name?, P s → P { s with name? }) {ss : List Subroutine} (h : ∀ s ∈ ss, P s) :
    ∀ s ∈ Program.onlyMainNamed ss, P s :=
  forall_mem_of_forall₂ (fun _ _ carry hs => carry hs)
    (Program.forall₂_onlyMainNamed (R := fun s t => P s → P t) renamed ss) h

theorem onlyMainNamed_concat (front : List Subroutine) (last : Subroutine) :
    Program.onlyMainNamed (front ++ [last]) =
      front.map (fun s => { s with name? := none }) ++ [{ last with name? := some mainName }] := by
  rw [Program.onlyMainNamed, List.dropLast_concat, List.getLast?_concat]
  rfl

/-- Names are no part of the words. -/
theorem flatMap_frame_onlyMainNamed (ss : List Subroutine) :
    (Program.onlyMainNamed ss).flatMap frame = ss.flatMap frame := by
  rw [List.flatMap_def, List.flatMap_def, Program.map_onlyMainNamed fun _ _ => rfl]

/-! ### Spelled programs -/

/-- The programs that some bytes spell. Only the last subroutine, where a run starts, has a name, no
constant stands where its address would be read as the sentinel, and every frame fits. -/
structure Spelled (p : Program) : Prop where
  constants : ∀ c ∈ p.constants, c.name? = none ∧ c.address ≠ haltAddress
  subroutines : ∃ front last, p.subroutines = front ++ [last] ∧
    (∀ s ∈ front, s.name? = none) ∧ last.name? = some mainName ∧ p.entry = last.address
  wellFormed : p.WellFormed
  fits : ∀ s ∈ p.subroutines,
    s.address ≠ haltAddress ∧ s.address.toNat + s.size ≤ haltAddress.toNat

namespace Spelled

variable {p : Program}

theorem address_ne (h : Spelled p) : ∀ c ∈ p.constants, c.address ≠ haltAddress :=
  fun c hc => (h.constants c hc).2

/-- There are no names to lose. -/
theorem withoutSymbols_eq (h : Spelled p) : p.withoutSymbols = p := by
  have hconstants : p.constants.map (fun c => { c with name? := none }) = p.constants := by
    refine (List.map_congr_left ?_).trans (List.map_id _)
    rintro ⟨name?, address, value⟩ hc
    obtain ⟨rfl, -⟩ := h.constants _ hc
    rfl
  have hsubroutines : Program.onlyMainNamed p.subroutines = p.subroutines := by
    obtain ⟨front, ⟨_, address, is⟩, hsplit, hfront, rfl, -⟩ := h.subroutines
    have hnameless : front.map (fun s => { s with name? := none }) = front := by
      refine (List.map_congr_left ?_).trans (List.map_id _)
      rintro ⟨name?, address, is⟩ hs
      obtain rfl := hfront _ hs
      rfl
    rw [hsplit, onlyMainNamed_concat, hnameless]
  rw [Program.withoutSymbols, hconstants, hsubroutines]

/-- The order of constants has no part in it. -/
theorem sortConstants (h : Spelled p) :
    Spelled { p with constants := Binary.sortConstants p.constants } where
  constants := by
    intro c hc
    exact h.constants c ((sortConstants_perm p.constants).mem_iff.1 hc)
  subroutines := h.subroutines
  wellFormed := h.wellFormed
  fits := h.fits

/-- The words of a spelled program are read as the program itself. -/
theorem decodeWords_eq (h : Spelled p) :
    decodeWords (programWords p.constants p.subroutines) = .ok p := by
  obtain ⟨front, last, hsplit, -, -, hentry⟩ := h.subroutines
  have hlast : p.subroutines.getLast? = some last := by rw [hsplit, List.getLast?_concat]
  rw [decodeWords_programWords hlast h.address_ne h.wellFormed h.fits, ← hentry]
  exact congrArg Except.ok h.withoutSymbols_eq

end Spelled

/-- Whatever words are read as a program, they are its words. -/
theorem decodeWords_eq_ok {ws : List Word} {p : Program} (h : decodeWords ws = .ok p) :
    Spelled p ∧ ws = programWords p.constants p.subroutines := by
  rw [decodeWords, bind_eq_ok_iff] at h
  obtain ⟨⟨cs, offset, rest⟩, hcs, h⟩ := h
  rw [bind_eq_ok_iff] at h
  obtain ⟨ss, hss, h⟩ := h
  obtain ⟨hconstants, rfl⟩ := constantsFrom_eq_ok hcs
  obtain ⟨hsubroutines, rfl⟩ := subroutinesFrom_eq_ok hss
  rcases List.eq_nil_or_concat ss with rfl | ⟨front, last, rfl⟩
  · -- Without a subroutine there is no entry point.
    cases h
  · simp only [List.concat_eq_append, List.getLast?_concat] at h hsubroutines ⊢
    cases h
    constructor
    · exact {
        constants := hconstants
        subroutines := by
          refine ⟨_, _, onlyMainNamed_concat front last, ?_, rfl, rfl⟩
          simp
        wellFormed := forall_mem_onlyMainNamed (fun _ _ hs => hs) fun s hs => (hsubroutines s hs).2.1
        fits := forall_mem_onlyMainNamed (fun _ _ hs => hs) fun s hs => (hsubroutines s hs).2.2 }
    · rw [programWords, flatMap_frame_onlyMainNamed]

/-! ### Whole binaries -/

/-- A program is read from its own bytes and from no others. -/
theorem decode_eq_ok_iff {bytes : List UInt8} {p : Program} :
    decode bytes = .ok p ↔
      Spelled p ∧ bytes = magic ++ ofWords (programWords p.constants p.subroutines) := by
  constructor
  · intro h
    unfold decode at h
    split at h
    · cases h
    · next hmagic =>
      rw [ne_eq, not_not] at hmagic
      simp only at h
      split at h
      · next ws hws =>
        obtain ⟨hspelled, rfl⟩ := decodeWords_eq_ok h
        refine ⟨hspelled, ?_⟩
        calc bytes = bytes.take magic.length ++ bytes.drop magic.length :=
              (List.take_append_drop ..).symm
          _ = magic ++ ofWords (programWords p.constants p.subroutines) := by
              rw [hmagic, words?_eq_some hws]
      · cases h
  · rintro ⟨hspelled, rfl⟩
    rw [decode_magic_ofWords, hspelled.decodeWords_eq]

namespace Spelled

variable {p : Program}

/-- A spelled program passes the encoder's checks. -/
theorem encode_eq (h : Spelled p) :
    encode p = .ok (magic ++
      ofWords (programWords (Binary.sortConstants p.constants) p.subroutines)) := by
  obtain ⟨front, last, hsplit, -⟩ := h.subroutines
  have nonempty : p.subroutines ≠ [] := by
    rw [hsplit]
    exact List.concat_ne_nil last front
  exact encode_eq_ok_iff.2 ⟨nonempty, h.address_ne, h.fits, rfl⟩

/-- The encoder writes the bytes that spell a program if its constants are in order already. -/
theorem encode_eq_iff (h : Spelled p) :
    encode p = .ok (magic ++ ofWords (programWords p.constants p.subroutines)) ↔
      p.constants.Pairwise fun c d => c.address ≤ d.address := by
  rw [h.encode_eq, Except.ok.injEq]
  constructor
  · intro heq
    -- Bytes spell one program at most, so equal bytes come from equal constants.
    have hsorted := decode_eq_ok_iff.2 ⟨h.sortConstants, rfl⟩
    have hself := decode_eq_ok_iff.2 ⟨h, rfl⟩
    rw [heq, hself] at hsorted
    have hconstants : p.constants = Binary.sortConstants p.constants :=
      congrArg Program.constants (Except.ok.inj hsorted)
    rw [hconstants]
    exact pairwise_sortConstants p.constants
  · intro horder
    rw [sortConstants_eq_self horder]

end Spelled

/-- **Accepted bytes.** Bytes are read as a program exactly if they are the magic number and the
words of its constants, of the sentinel and of its frames, and it has nothing that those words do
not tell. So it is read from no other bytes, it can be written again, and that yields the same bytes
exactly if its constants are in ascending order of addresses. -/
theorem decode_accepts_format {bytes : List UInt8} {p : Program} :
    (decode bytes = .ok p ↔
      Spelled p ∧ bytes = magic ++ ofWords (programWords p.constants p.subroutines)) ∧
    (decode bytes = .ok p →
      (∀ other, decode other = .ok p → other = bytes) ∧
      (∃ again, encode p = .ok again) ∧
      (encode p = .ok bytes ↔ p.constants.Pairwise fun c d => c.address ≤ d.address)) := by
  refine ⟨decode_eq_ok_iff, ?_⟩
  intro h
  obtain ⟨hspelled, rfl⟩ := decode_eq_ok_iff.1 h
  refine ⟨?_, ⟨_, hspelled.encode_eq⟩, hspelled.encode_eq_iff⟩
  intro other hother
  exact (decode_eq_ok_iff.1 hother).2

/-- A binary with constants out of order, one of which holds the sentinel, an empty frame that ends
right below `haltAddress`, and operands that look like opcodes. -/
def disordered : List UInt8 :=
  [0x53, 0x56, 0x43, 0x42,
    0x09, 0x01, 0xFF, 0xFF, 0x09, 0x00, 0x00, 0x41, 0xFF, 0xFF,
    0xFF, 0xFE, 0x00, 0x00,
    0x09, 0x02, 0x00, 0x04, 0x00, 0x02, 0xFF, 0xFF, 0x00, 0x16, 0x00, 0x16]

theorem decode_accepts_format_disordered :
    ∃ p, decode disordered = .ok p ∧ (∀ other, decode other = .ok p → other = disordered) ∧
      encode p ≠ .ok disordered := by
  have h : decode disordered = .ok
      ⟨[⟨none, 0x0901, 0xFFFF⟩, ⟨none, 0x0900, 0x0041⟩],
        [⟨none, 0xFFFE, []⟩, ⟨some "main", 0x0902, [⟨.cpl, [0xFFFF, 0x0016]⟩, ⟨.ret, []⟩]⟩],
        0x0902⟩ := by decide +kernel
  obtain ⟨hunique, -, horder⟩ := decode_accepts_format.2 h
  refine ⟨_, h, hunique, ?_⟩
  intro hagain
  -- The constant at 0x0901 stands in front of the one at 0x0900.
  have hle : (0x0901 : Word) ≤ 0x0900 := by simpa using horder.1 hagain
  exact absurd hle (by decide)

end WordMachine.Binary
