import WordMachine.Proofs.Binary.Canonical

namespace WordMachine.Binary

open Sequence

/-!
# Binaries cut short

A binary does not tell how many frames it has, so one that ends early is told from a whole one by
nothing but where it ends. A reader that comes to the end inside its own part reports just that, and
what it has read until then is whole: no cut makes a word look like something else. The one cut that
passes unnoticed is that between two frames, and it moves the entry point.

* `frameEnd` — where the last frame of some subroutines ends.
* `words?_cut`, `constantsFrom_cut`, `subroutinesFrom_cut` — the readers, on the front of their
  parts.
* `decodeWords_cut` — the front of the words of a program.
* `decode_cut` — the fronts that are read as a program, and the errors for all others.
-/

/-- The place in a binary where the frame of the last of its first subroutines ends. -/
def frameEnd (constants : List Constant) (first : List Subroutine) : Nat :=
  magic.length + 2 * (2 * constants.length + 1 + (first.map fun s => 2 + s.size).sum)

/-! ### The readers on the front of their parts -/

/-- Bytes are cut inside a word or behind one. -/
theorem words?_cut {ws : List Word} {bytes : List UInt8} (cut : bytes <+: ofWords ws) :
    words? bytes = none ∨ ∃ part, part <+: ws ∧ words? bytes = some part := by
  induction ws generalizing bytes with
  | nil =>
    obtain rfl := List.prefix_nil.1 cut
    exact .inr ⟨[], List.nil_prefix, rfl⟩
  | cons w ws ih =>
    match bytes with
    | [] => exact .inr ⟨[], List.nil_prefix, rfl⟩
    | [_] => exact .inl rfl
    | high :: low :: rest =>
      rw [ofWords, List.flatMap_cons, ← ofWords, Word.bytes, List.cons_append, List.cons_append,
        List.nil_append, List.cons_prefix_cons, List.cons_prefix_cons] at cut
      obtain ⟨rfl, rfl, hrest⟩ := cut
      rw [words?_cons_cons, Word.ofBytes_bytes]
      rcases ih hrest with hodd | ⟨part, hpart, heven⟩
      · rw [hodd]
        exact .inl rfl
      · rw [heven]
        exact .inr ⟨w :: part, List.cons_prefix_cons.2 ⟨rfl, hpart⟩, rfl⟩

/-- Constants are cut in front of the sentinel or read as a whole. -/
theorem constantsFrom_cut {cs : List Constant} (h : ∀ c ∈ cs, c.address ≠ haltAddress)
    {ws rest : List Word} (cut : ws <+: cs.flatMap constantPair ++ sentinel :: rest)
    (offset : Nat) :
    (∃ part, part <+: rest ∧ ws = cs.flatMap constantPair ++ sentinel :: part) ∨
      ∃ o part, constantsFrom [] offset ws = .error (.truncated o part) := by
  induction cs generalizing ws offset with
  | nil =>
    cases ws with
    | nil => exact .inr ⟨offset, .constantSection, rfl⟩
    | cons w ws =>
      obtain ⟨rfl, hrest⟩ := List.cons_prefix_cons.1 cut
      exact .inl ⟨ws, hrest, rfl⟩
  | cons c cs ih =>
    rw [List.forall_mem_cons] at h
    have hc : c.address ≠ sentinel := h.1
    rw [List.flatMap_cons, constantPair, List.append_assoc, List.cons_append, List.cons_append,
      List.nil_append] at cut
    cases ws with
    | nil => exact .inr ⟨offset, .constantSection, rfl⟩
    | cons address ws =>
      obtain ⟨rfl, hcut⟩ := List.cons_prefix_cons.1 cut
      cases ws with
      | nil =>
        -- The address is no sentinel, so a value is missing.
        refine .inr ⟨offset + 1, .constantPair, ?_⟩
        rw [constantsFrom, if_neg hc]
      | cons value ws =>
        obtain ⟨rfl, hpairs⟩ := List.cons_prefix_cons.1 hcut
        rcases ih h.2 hpairs (offset + 2) with ⟨part, hpart, rfl⟩ | ⟨o, part, herror⟩
        · exact .inl ⟨part, hpart, rfl⟩
        · refine .inr ⟨o, part, ?_⟩
          rw [constantsFrom_cons_cons hc, herror]
          rfl

/-- A body that ends early is found to do so before its instructions are looked at. -/
theorem subroutinesFrom_cut_body {s : Subroutine} (fits : frameFits s.address s.size)
    {body : List Word} (short : body.length < s.size) (offset : Nat) :
    subroutinesFrom [] offset (s.address :: UInt16.ofNat s.size :: body) =
      .error (.truncated (offset + 2 + body.length) .subroutineBody) := by
  have hsize := toNat_size_of_fits fits
  have hbody : body.take s.size = body := List.take_of_length_le (Nat.le_of_lt short)
  rw [subroutinesFrom]
  simp only [hsize, fits, not_true_eq_false, if_false, hbody, short, if_true]

/-- Frames are cut inside one or behind one. -/
theorem subroutinesFrom_cut {ss : List Subroutine} (wf : ∀ s ∈ ss, s.WellFormed)
    (fits : ∀ s ∈ ss, frameFits s.address s.size) {ws : List Word}
    (cut : ws <+: ss.flatMap frame) (offset : Nat) :
    (∃ first rest, ss = first ++ rest ∧ ws = first.flatMap frame) ∨
      ∃ o part, subroutinesFrom [] offset ws = .error (.truncated o part) := by
  induction ss generalizing ws offset with
  | nil =>
    obtain rfl := List.prefix_nil.1 cut
    exact .inl ⟨[], [], rfl, rfl⟩
  | cons s ss ih =>
    rw [List.forall_mem_cons] at wf fits
    match ws with
    | [] => exact .inl ⟨[], s :: ss, rfl, rfl⟩
    | [_] =>
      refine .inr ⟨offset + 1, .subroutineHeader, ?_⟩
      rw [subroutinesFrom]
    | address :: size :: body =>
      rw [List.flatMap_cons, frame, List.cons_append, List.cons_append, List.cons_prefix_cons,
        List.cons_prefix_cons] at cut
      obtain ⟨rfl, rfl, hbody⟩ := cut
      by_cases short : body.length < s.size
      · exact .inr ⟨_, _, subroutinesFrom_cut_body fits.1 short offset⟩
      · -- The body is all there, so the cut is further behind.
        have hlen : s.words.length = s.size := wf.1.length_words
        have hle : s.words.length ≤ body.length := by omega
        obtain ⟨ws, rfl⟩ : s.words <+: body :=
          List.prefix_of_prefix_length_le (List.prefix_append ..) hbody hle
        have hrest : ws <+: ss.flatMap frame := (List.prefix_append_right_inj _).1 hbody
        rcases ih wf.2 fits.2 hrest (offset + 2 + s.size) with ⟨first, rest, rfl, rfl⟩ | herror
        · exact .inl ⟨s :: first, rest, rfl, rfl⟩
        · obtain ⟨o, part, herror⟩ := herror
          refine .inr ⟨o, part, ?_⟩
          have hframe := subroutinesFrom_frame_append wf.1 fits.1 offset ws
          rw [herror] at hframe
          exact hframe

/-! ### Whole binaries -/

/-- The words of a program are cut inside a part, or behind the first frames, which may be none. -/
theorem decodeWords_cut {p : Program} (h : Spelled p) {ws : List Word}
    (cut : ws <+: programWords p.constants p.subroutines) :
    (∃ first rest, p.subroutines = first ++ rest ∧ ws = programWords p.constants first) ∨
      ∃ o part, decodeWords ws = .error (.truncated o part) := by
  rcases constantsFrom_cut h.address_ne cut 0 with ⟨ws, hws, rfl⟩ | ⟨o, part, herror⟩
  · -- The constants are whole, and the frames behind them are cut.
    have hconstants := constantsFrom_pairs h.address_ne 0 ws
    rcases subroutinesFrom_cut h.wellFormed h.fits hws (0 + 2 * p.constants.length + 1) with
      ⟨first, rest, hsplit, rfl⟩ | ⟨o, part, herror⟩
    · exact .inl ⟨first, rest, hsplit, rfl⟩
    · refine .inr ⟨o, part, ?_⟩
      rw [decodeWords, bind_eq_error_iff]
      refine .inr ⟨_, hconstants, ?_⟩
      rw [bind_eq_error_iff]
      exact .inl herror
  · refine .inr ⟨o, part, ?_⟩
    rw [decodeWords, bind_eq_error_iff]
    exact .inl herror

/-- Constants alone are no program. -/
theorem decodeWords_constants {cs : List Constant} (h : ∀ c ∈ cs, c.address ≠ haltAddress) :
    decodeWords (programWords cs []) = .error .missingEntryPoint := by
  have hconstants := constantsFrom_pairs h 0 []
  have hnone (offset : Nat) : subroutinesFrom [] offset [] = .ok [] := by
    rw [subroutinesFrom, List.reverse_nil]
  rw [decodeWords, programWords, List.flatMap_nil, hconstants]
  simp only [bind, Except.bind, hnone]
  rfl

theorem length_programWords {cs : List Constant} {ss : List Subroutine}
    (wf : ∀ s ∈ ss, s.WellFormed) :
    (magic ++ ofWords (programWords cs ss)).length = frameEnd cs ss := by
  have hpairs : (cs.flatMap constantPair).length = 2 * cs.length := by
    rw [List.length_flatMap]
    simp [constantPair, Nat.mul_comm]
  have hframes : (ss.flatMap frame).length = (ss.map fun s => 2 + s.size).sum := by
    rw [List.length_flatMap]
    congr 1
    apply List.map_congr_left
    intro s hs
    have hlen : s.words.length = s.size := (wf s hs).length_words
    rw [frame, ← Subroutine.words, List.length_cons, List.length_cons, hlen]
    omega
  have hbytes (ws : List Word) : (ofWords ws).length = 2 * ws.length := by
    rw [ofWords, List.length_flatMap]
    simp [Word.bytes, Nat.mul_comm]
  rw [List.length_append, hbytes, programWords, List.length_append, List.length_cons, hpairs,
    hframes, frameEnd]
  omega

/-- What does not depend on the name of a subroutine holds of the first ones if the last of them is
renamed. -/
theorem forall_mem_upTo {P : Subroutine → Prop} (renamed : ∀ s name?, P s → P { s with name? })
    {front rest : List Subroutine} {s : Subroutine} (h : ∀ t ∈ front ++ s :: rest, P t)
    (name? : Option String) : ∀ t ∈ front ++ [{ s with name? }], P t := by
  rw [List.forall_mem_append, List.forall_mem_cons] at h
  obtain ⟨hfront, hs, -⟩ := h
  rw [List.forall_mem_append, List.forall_mem_singleton]
  exact ⟨hfront, renamed s name? hs⟩

namespace Spelled

variable {p : Program} {front rest : List Subroutine} {s : Subroutine}

theorem wellFormed_split (h : Spelled p) (hsplit : p.subroutines = front ++ s :: rest) :
    ∀ t ∈ front ++ s :: rest, t.WellFormed := by
  rw [← hsplit]
  exact h.wellFormed

/-- A program may end with any of its subroutines, and a run starts there then. -/
theorem upTo (h : Spelled p) (hsplit : p.subroutines = front ++ s :: rest) :
    Spelled ⟨p.constants, front ++ [{ s with name? := some mainName }], s.address⟩ where
  constants := h.constants
  subroutines := by
    refine ⟨front, _, rfl, ?_, rfl, rfl⟩
    obtain ⟨others, last, hlast, hnameless, -⟩ := h.subroutines
    -- The last subroutine is not in front of `s`.
    have hothers : others = front ++ (s :: rest).dropLast := by
      rw [← List.dropLast_append_of_ne_nil (List.cons_ne_nil s rest), ← hsplit, hlast,
        List.dropLast_concat]
    intro t ht
    exact hnameless t (hothers ▸ List.mem_append_left _ ht)
  wellFormed := forall_mem_upTo (fun _ _ ht => ht) (h.wellFormed_split hsplit) _
  fits := forall_mem_upTo (fun _ _ ht => ht) (hsplit ▸ h.fits) _

theorem decode_upTo (h : Spelled p) (hsplit : p.subroutines = front ++ s :: rest) :
    decode (magic ++ ofWords (programWords p.constants (front ++ [s]))) =
      .ok ⟨p.constants, front ++ [{ s with name? := some mainName }], s.address⟩ := by
  refine decode_eq_ok_iff.2 ⟨h.upTo hsplit, ?_⟩
  -- The name of the last subroutine is no part of its frame.
  rw [programWords, programWords, List.flatMap_append, List.flatMap_append]
  rfl

theorem length_upTo (h : Spelled p) (hsplit : p.subroutines = front ++ s :: rest) :
    (magic ++ ofWords (programWords p.constants (front ++ [s]))).length =
      frameEnd p.constants (front ++ [s]) :=
  length_programWords (forall_mem_upTo (fun _ _ ht => ht) (h.wellFormed_split hsplit) s.name?)

/-- The bytes up to a frame are told from all other fronts by their number. -/
theorem eq_of_length_eq_frameEnd (h : Spelled p) (hsplit : p.subroutines = front ++ s :: rest)
    {bytes : List UInt8} (cut : bytes <+: magic ++ ofWords (programWords p.constants p.subroutines))
    (hlength : bytes.length = frameEnd p.constants (front ++ [s])) :
    bytes = magic ++ ofWords (programWords p.constants (front ++ [s])) := by
  have hfirst : magic ++ ofWords (programWords p.constants (front ++ [s])) <+:
      magic ++ ofWords (programWords p.constants p.subroutines) := by
    refine ⟨ofWords (rest.flatMap frame), ?_⟩
    simp [hsplit, programWords, ofWords]
  rw [← h.length_upTo hsplit] at hlength
  exact (List.prefix_of_prefix_length_le cut hfirst (Nat.le_of_eq hlength)).eq_of_length hlength

/-- A proper front of a binary ends behind a frame, or it is refused for ending where it does. -/
theorem decode_front (h : Spelled p) {bytes : List UInt8}
    (cut : bytes <+: magic ++ ofWords (programWords p.constants p.subroutines))
    (proper : bytes ≠ magic ++ ofWords (programWords p.constants p.subroutines)) :
    (∃ front s rest, p.subroutines = front ++ s :: rest ∧ rest ≠ [] ∧
        bytes = magic ++ ofWords (programWords p.constants (front ++ [s]))) ∨
      ∃ e, decode bytes = .error e ∧ (e = .invalidMagic ∨ (∃ length, e = .oddLength length) ∨
        (∃ offset part, e = .truncated offset part) ∨ e = .missingEntryPoint) := by
  by_cases hmagic : bytes.take magic.length = magic
  · obtain ⟨payload, rfl⟩ : magic <+: bytes := hmagic ▸ List.take_prefix ..
    rw [List.prefix_append_right_inj] at cut
    rcases words?_cut cut with hodd | ⟨ws, hws, heven⟩
    · refine .inr ⟨.oddLength payload.length, ?_, .inr (.inl ⟨_, rfl⟩)⟩
      rw [decode, if_neg (not_not_intro hmagic), List.drop_left]
      simp only [hodd]
    · obtain rfl := words?_eq_some heven
      rw [decode_magic_ofWords]
      rcases decodeWords_cut h hws with ⟨first, rest, hsplit, rfl⟩ | ⟨o, part, herror⟩
      · rcases List.eq_nil_or_concat first with rfl | ⟨front, s, rfl⟩
        · -- The constants are read as a whole, and no frame is behind them.
          refine .inr ⟨.missingEntryPoint, ?_, .inr (.inr (.inr rfl))⟩
          exact decodeWords_constants h.address_ne
        · refine .inl ⟨front, s, rest, ?_, ?_, ?_⟩
          · rw [hsplit, List.concat_eq_append, List.append_assoc]
            rfl
          · rintro rfl
            rw [List.append_nil] at hsplit
            exact proper (by rw [hsplit])
          · rw [List.concat_eq_append]
      · exact .inr ⟨_, herror, .inr (.inr (.inl ⟨o, part, rfl⟩))⟩
  · refine .inr ⟨.invalidMagic, ?_, .inl rfl⟩
    rw [decode, if_pos hmagic]

end Spelled

/-- **Binaries cut short.** A proper front of a binary is read as a program exactly if it ends with
a frame other than the last. It is then the program cut behind that subroutine, which is named
`main` and is where a run starts. Every other front is refused for the place where it ends. -/
theorem decode_cut {bytes front : List UInt8} {p : Program} (h : decode bytes = .ok p)
    (cut : front <+: bytes) (proper : front ≠ bytes) :
    (∀ q, decode front = .ok q ↔
      ∃ before s after, p.subroutines = before ++ s :: after ∧ after ≠ [] ∧
        front.length = frameEnd p.constants (before ++ [s]) ∧
        q = ⟨p.constants, before ++ [{ s with name? := some mainName }], s.address⟩) ∧
    (∀ e, decode front = .error e →
      e = .invalidMagic ∨ (∃ length, e = .oddLength length) ∨
        (∃ offset part, e = .truncated offset part) ∨ e = .missingEntryPoint) := by
  obtain ⟨hspelled, rfl⟩ := decode_eq_ok_iff.1 h
  constructor
  · intro q
    constructor
    · intro hq
      rcases hspelled.decode_front cut proper with ⟨before, s, after, hsplit, hafter, rfl⟩ | herror
      · rw [hspelled.decode_upTo hsplit] at hq
        exact ⟨before, s, after, hsplit, hafter, hspelled.length_upTo hsplit,
          (Except.ok.inj hq).symm⟩
      · obtain ⟨e, herror, -⟩ := herror
        rw [hq] at herror
        cases herror
    · rintro ⟨before, s, after, hsplit, hafter, hlength, rfl⟩
      rw [hspelled.eq_of_length_eq_frameEnd hsplit cut hlength]
      exact hspelled.decode_upTo hsplit
  · intro e he
    rcases hspelled.decode_front cut proper with ⟨before, s, after, hsplit, hafter, rfl⟩ | herror
    · rw [hspelled.decode_upTo hsplit] at he
      cases he
    · obtain ⟨e', herror, hkind⟩ := herror
      rw [he] at herror
      cases herror
      exact hkind

/-- A binary with a constant that holds the sentinel and two subroutines, whose frames are at its
end. A front of the second body ends with an opcode. -/
def twoFrames : List UInt8 :=
  [0x53, 0x56, 0x43, 0x42,
    0x09, 0x00, 0xFF, 0xFF, 0xFF, 0xFF,
    0x09, 0x01, 0x00, 0x01, 0x00, 0x16,
    0x09, 0x02, 0x00, 0x04, 0x00, 0x02, 0xFF, 0xFF, 0x00, 0x16, 0x00, 0x16]

theorem decode_cut_twoFrames :
    (∃ p, decode twoFrames = .ok p ∧ p.entry = 0x0902) ∧
      decode (twoFrames.take 16) = .ok
        ⟨[⟨none, 0x0900, 0xFFFF⟩], [⟨some "main", 0x0901, [⟨.ret, []⟩]⟩], 0x0901⟩ ∧
      ∀ opcode address,
        decode (twoFrames.take 22) ≠ .error (.instructionOverrun opcode address) := by
  have h : decode twoFrames = .ok
      ⟨[⟨none, 0x0900, 0xFFFF⟩],
        [⟨none, 0x0901, [⟨.ret, []⟩]⟩,
          ⟨some "main", 0x0902, [⟨.cpl, [0xFFFF, 0x0016]⟩, ⟨.ret, []⟩]⟩],
        0x0902⟩ := by decide +kernel
  have cut (n : Nat) : twoFrames.take n <+: twoFrames := List.take_prefix n twoFrames
  refine ⟨⟨_, h, rfl⟩, ?_, ?_⟩
  · have hfront := (decode_cut h (cut 16) (by decide)).1
    exact (hfront _).2 ⟨[], _, [_], rfl, List.cons_ne_nil _ _, by decide, rfl⟩
  · intro opcode address herror
    have hkind := (decode_cut h (cut 22) (by decide)).2 _ herror
    simp at hkind

end WordMachine.Binary
