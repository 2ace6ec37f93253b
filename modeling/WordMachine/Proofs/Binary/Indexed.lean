import Mathlib.Logic.Relation
import WordMachine.Proofs.Binary.RoundTrip

namespace WordMachine.Binary

open Sequence

/-!
# Decoding by index

The readers of the sections take words off the front of a list. A decoder that keeps its place as a
number takes them at indices, and the bytes themselves say how far it has to go. It is told here in
rounds, one for each turn of one of its three loops. An index or a slice that is not there is an
outcome of its own.

* `elementAt` and `slice` — what is taken without asking whether it is there.
* `wordsByIndex` — the words of bytes.
* `Decoder` and `Decoder.step` — the state between two rounds, and a round.
* `Decoder.Within` — all places lie within the words, and what was read so far is whole.
* `Place.Advances` — where a round goes on.
* `Decoder.answer` — what the readers of the sections make of the rest; `turns_step` — a round stops
  with it or leaves it as it is.
* `Decoder.Ends` — a run of rounds up to a stop; `ends_answer` — from within the words there is one.
* `decode_stays_in_bounds` — decoding by index ends within bounds, with the answer of `decode`.
-/

/-! ### Indices -/

/-- Why a decoder stops. -/
inductive Stop where
  /-- An index or a slice is not there. -/
  | outOfBounds
  | refused (e : BinaryError)
  | finished (p : Program)
  deriving DecidableEq

namespace Stop

/-- The stop with an answer. -/
def ofAnswer : Except BinaryError Program → Stop
  | .ok p => finished p
  | .error e => refused e

end Stop

section Index

variable {α : Type}

/-- The element at an index, which must be there. -/
def elementAt (as : List α) (i : Nat) : Except Stop α :=
  match as[i]? with
  | some a => .ok a
  | none => .error .outOfBounds

/-- The elements at the indices from `first` up to `last`, which must be there. -/
def slice (as : List α) (first last : Nat) : Except Stop (List α) :=
  if first ≤ last ∧ last ≤ as.length then .ok ((as.drop first).take (last - first))
  else .error .outOfBounds

theorem elementAt_of_lt {as : List α} {i : Nat} (h : i < as.length) :
    elementAt as i = .ok as[i] := by
  rw [elementAt, List.getElem?_eq_getElem h]

theorem slice_of_le {as : List α} {first last : Nat} (h : first ≤ last) (hlast : last ≤ as.length) :
    slice as first last = .ok ((as.drop first).take (last - first)) :=
  if_pos ⟨h, hlast⟩

theorem drop_of_getElem?_eq_none {as : List α} {i : Nat} (h : as[i]? = none) : as.drop i = [] :=
  List.drop_eq_nil_of_le (List.getElem?_eq_none_iff.1 h)

theorem drop_of_getElem?_eq_some {as : List α} {i : Nat} {a : α} (h : as[i]? = some a) :
    as.drop i = a :: as.drop (i + 1) := by
  obtain ⟨hlt, rfl⟩ := List.getElem?_eq_some_iff.1 h
  exact List.drop_eq_getElem_cons hlt

end Index

/-! ### Words -/

/-- Bytes two by two. The last one may be alone. -/
def chunks : List UInt8 → List (List UInt8)
  | [] => []
  | [byte] => [[byte]]
  | high :: low :: rest => [high, low] :: chunks rest

/-- The word of two bytes. -/
def wordAt (chunk : List UInt8) : Except Stop Word := do
  return Word.ofBytes (← elementAt chunk 0) (← elementAt chunk 1)

/-- The words behind the magic number. -/
def wordsByIndex (bytes : List UInt8) : Except Stop (List Word) :=
  if bytes.length < magic.length then .error (.refused .invalidMagic)
  else do
    let front ← slice bytes 0 magic.length
    if front ≠ magic then .error (.refused .invalidMagic)
    else do
      let payload ← slice bytes magic.length bytes.length
      if payload.length % 2 ≠ 0 then .error (.refused (.oddLength payload.length))
      else (chunks payload).mapM wordAt

/-- There are words exactly if the number of bytes is even, and no byte is alone then. -/
theorem mapM_wordAt_chunks (bytes : List UInt8) :
    (bytes.length % 2 = 0 ∧ ∃ ws, words? bytes = some ws ∧ (chunks bytes).mapM wordAt = .ok ws) ∨
      (bytes.length % 2 ≠ 0 ∧ words? bytes = none) := by
  match bytes with
  | [] => exact .inl ⟨rfl, [], rfl, rfl⟩
  | [_] => exact .inr ⟨by simp, rfl⟩
  | high :: low :: rest =>
    rw [words?_cons_cons, chunks, List.mapM_cons]
    simp only [List.length_cons, Nat.add_mod_right, Nat.add_assoc]
    rcases mapM_wordAt_chunks rest with ⟨heven, ws, hws, hchunks⟩ | ⟨hodd, hnone⟩
    · refine .inl ⟨heven, _, by rw [hws]; rfl, ?_⟩
      rw [hchunks]
      rfl
    · exact .inr ⟨hodd, by rw [hnone]; rfl⟩

/-- The words of bytes are found within bounds, or the bytes are refused as `decode` refuses them,
without a look at instructions. -/
theorem decode_eq_wordsByIndex (bytes : List UInt8) :
    (∃ ws, wordsByIndex bytes = .ok ws ∧ decode bytes = decodeWords ws) ∨
      ∃ e, wordsByIndex bytes = .error (.refused e) ∧ decode bytes = .error e ∧
        ∀ opcode a, e ≠ .instructionOverrun opcode a := by
  by_cases hmagic : bytes.take magic.length = magic
  · obtain ⟨payload, rfl⟩ : magic <+: bytes := hmagic ▸ List.take_prefix ..
    have hlen : ¬ (magic ++ payload).length < magic.length := by
      rw [List.length_append]
      omega
    have hfront : slice (magic ++ payload) 0 magic.length = .ok magic := by
      rw [slice_of_le (Nat.zero_le _) (Nat.not_lt.1 hlen), List.drop_zero, Nat.sub_zero, hmagic]
    have hpayload : slice (magic ++ payload) magic.length (magic ++ payload).length =
        .ok payload := by
      rw [slice_of_le (Nat.not_lt.1 hlen) (Nat.le_refl _), List.drop_left]
      simp
    have hwords : wordsByIndex (magic ++ payload) =
        if payload.length % 2 ≠ 0 then .error (.refused (.oddLength payload.length))
        else (chunks payload).mapM wordAt := by
      rw [wordsByIndex, if_neg hlen, hfront, hpayload]
      rfl
    rcases mapM_wordAt_chunks payload with ⟨heven, ws, hws, hchunks⟩ | ⟨hodd, hnone⟩
    · refine .inl ⟨ws, by rw [hwords, if_neg (not_not_intro heven), hchunks], ?_⟩
      simp only [decode, hmagic, ne_eq, not_true_eq_false, if_false, List.drop_left, hws]
    · refine .inr ⟨_, by rw [hwords, if_pos hodd], ?_, fun _ _ => BinaryError.noConfusion⟩
      simp only [decode, hmagic, ne_eq, not_true_eq_false, if_false, List.drop_left, hnone]
  · refine .inr ⟨.invalidMagic, ?_, by rw [decode, if_pos hmagic],
      fun _ _ => BinaryError.noConfusion⟩
    rw [wordsByIndex]
    split
    · rfl
    · next hlen =>
      rw [slice_of_le (Nat.zero_le _) (Nat.not_lt.1 hlen), List.drop_zero, Nat.sub_zero]
      exact if_pos hmagic

/-! ### Rounds -/

/-- The body of a subroutine: its address, and where its words start and stop. -/
structure Body where
  address : Word
  start : Nat
  stop : Nat
  deriving DecidableEq, Repr

/-- Where a decoder stands: in front of a constant, of a frame, or of an instruction in a body. -/
inductive Place where
  | constants (offset : Nat)
  | frames (offset : Nat)
  | body (b : Body) (cursor : Nat)
  deriving DecidableEq, Repr

/-- The state between two rounds. What was read last comes first. -/
structure Decoder where
  place : Place
  constants : List Constant
  subroutines : List Subroutine
  /-- The instructions of the body that the decoder stands in. -/
  instructions : List Instruction
  deriving DecidableEq, Repr

/-- The program of some constants and subroutines. -/
def programOf (constants : List Constant) (subroutines : List Subroutine) :
    Except BinaryError Program :=
  match subroutines.getLast? with
  | some last => .ok ⟨constants, Program.onlyMainNamed subroutines, last.address⟩
  | none => .error .missingEntryPoint

namespace Decoder

/-- The state in front of the first word. -/
def start : Decoder :=
  ⟨.constants 0, [], [], []⟩

/-- A constant, or the sentinel. -/
def constantRound (ws : List Word) (d : Decoder) (offset : Nat) : Except Stop Decoder :=
  match ws[offset]? with
  | none => .error (.refused (.truncated offset .constantSection))
  | some address =>
    if address = sentinel then .ok { d with place := .frames (offset + 1) }
    else
      match ws[offset + 1]? with
      | none => .error (.refused (.truncated (offset + 1) .constantPair))
      | some value =>
        .ok { d with
          place := .constants (offset + 2)
          constants := ⟨none, address, value⟩ :: d.constants }

/-- The header of a frame, or the end of the words. -/
def frameRound (ws : List Word) (d : Decoder) (offset : Nat) : Except Stop Decoder :=
  if offset < ws.length then do
    let address ← elementAt ws offset
    match ws[offset + 1]? with
    | none => .error (.refused (.truncated (offset + 1) .subroutineHeader))
    | some size =>
      if ¬ frameFits address size.toNat then .error (.refused .reservedAddress)
      else if ws.length < offset + 2 + size.toNat then
        .error (.refused (.truncated ws.length .subroutineBody))
      else
        .ok { d with
          place := .body ⟨address, offset + 2, offset + 2 + size.toNat⟩ (offset + 2)
          instructions := [] }
  else .error (.ofAnswer (programOf d.constants.reverse d.subroutines.reverse))

/-- An instruction, or the end of a body. -/
def bodyRound (ws : List Word) (d : Decoder) (b : Body) (cursor : Nat) : Except Stop Decoder :=
  if cursor < b.stop then do
    let code ← elementAt ws cursor
    match Opcode.ofCode? code with
    | none => .error (.refused (.unknownOpcode code cursor))
    | some opcode =>
      if b.stop < cursor + opcode.size then
        .error (.refused
          (.instructionOverrun opcode (b.address + UInt16.ofNat (cursor - b.start))))
      else do
        let operands ← slice ws (cursor + 1) (cursor + opcode.size)
        .ok { d with
          place := .body b (cursor + opcode.size)
          instructions := ⟨opcode, operands⟩ :: d.instructions }
  else
    .ok { d with
      place := .frames b.stop
      subroutines := ⟨none, b.address, d.instructions.reverse⟩ :: d.subroutines }

/-- A round: one turn of the loop that the decoder is in. -/
def step (ws : List Word) (d : Decoder) : Except Stop Decoder :=
  match d.place with
  | .constants offset => d.constantRound ws offset
  | .frames offset => d.frameRound ws offset
  | .body b cursor => d.bodyRound ws b cursor

end Decoder

/-! ### The readers of the sections -/

theorem constantsFrom_at_sentinel (done : List Constant) (offset : Nat) (rest : List Word) :
    constantsFrom done offset (sentinel :: rest) = .ok (done.reverse, offset + 1, rest) := by
  rw [constantsFrom_eq, constantsFrom_sentinel]
  simp [Except.map]

/-- Behind a header that fits there is a body, and behind the body there are more frames. -/
theorem subroutinesFrom_header {address size : Word} {rest : List Word}
    (fits : frameFits address size.toNat) (long : size.toNat ≤ rest.length)
    (done : List Subroutine) (offset : Nat) :
    subroutinesFrom done offset (address :: size :: rest) =
      instructionsFrom [] address (offset + 2) (rest.take size.toNat) >>= fun is =>
        subroutinesFrom (⟨none, address, is⟩ :: done) (offset + 2 + size.toNat)
          (rest.drop size.toNat) := by
  have hlength : (rest.take size.toNat).length = size.toNat := List.length_take_of_le long
  rw [subroutinesFrom]
  simp only [fits, not_true_eq_false, if_false, hlength, Nat.lt_irrefl]
  cases instructionsFrom [] address (offset + 2) (rest.take size.toNat) <;> rfl

/-- An instruction ends with the last of its operands. -/
theorem instructionsFrom_code {code : Word} {opcode : Opcode} {rest : List Word}
    (hopcode : Opcode.ofCode? code = some opcode) (long : opcode.operandCount ≤ rest.length)
    (done : List Instruction) (address : Word) (offset : Nat) :
    instructionsFrom done address offset (code :: rest) =
      instructionsFrom (⟨opcode, rest.take opcode.operandCount⟩ :: done)
        (address + UInt16.ofNat opcode.size) (offset + opcode.size)
        (rest.drop opcode.operandCount) := by
  have hlength : (rest.take opcode.operandCount).length = opcode.operandCount :=
    List.length_take_of_le long
  rw [instructionsFrom, hopcode]
  simp only [hlength, Nat.lt_irrefl, if_false]

/-- Too few words before the end of a body. -/
theorem instructionsFrom_overrun {code : Word} {opcode : Opcode} {rest : List Word}
    (hopcode : Opcode.ofCode? code = some opcode) (short : rest.length < opcode.operandCount)
    (done : List Instruction) (address : Word) (offset : Nat) :
    instructionsFrom done address offset (code :: rest) =
      .error (.instructionOverrun opcode address) := by
  have hlength : (rest.take opcode.operandCount).length < opcode.operandCount := by
    rwa [List.take_of_length_le (Nat.le_of_lt short)]
  rw [instructionsFrom, hopcode]
  simp only [hlength, if_true]

/-! ### What a round keeps -/

/-- A place within the words. -/
def Place.Within (ws : List Word) : Place → Prop
  | constants offset => offset ≤ ws.length
  | frames offset => offset ≤ ws.length
  | body b cursor =>
    b.start ≤ cursor ∧ cursor ≤ b.stop ∧ b.stop ≤ ws.length ∧ frameFits b.address (b.stop - b.start)

/-- Where a round goes on. The place moves on by what was read, and a body is left at its end. -/
inductive Place.Advances : Place → Place → Prop where
  | constant {offset : Nat} : Advances (.constants offset) (.constants (offset + 2))
  | sentinel {offset : Nat} : Advances (.constants offset) (.frames (offset + 1))
  | header {offset : Nat} {address : Word} {size : Nat} :
      Advances (.frames offset) (.body ⟨address, offset + 2, offset + 2 + size⟩ (offset + 2))
  | instruction {b : Body} {cursor next : Nat} (further : cursor < next) (inside : next ≤ b.stop) :
      Advances (.body b cursor) (.body b next)
  | close {b : Body} : Advances (.body b b.stop) (.frames b.stop)

namespace Decoder

/-- The decoder stands within the words, and each instruction read so far has the operands that its
opcode takes. -/
structure Within (ws : List Word) (d : Decoder) : Prop where
  place : d.place.Within ws
  subroutines : ∀ s ∈ d.subroutines, s.WellFormed
  instructions : ∀ i ∈ d.instructions, i.WellFormed

/-- What the readers of the sections make of the words from the place of the decoder on. -/
def answer (ws : List Word) (d : Decoder) : Except BinaryError Program :=
  match d.place with
  | .constants offset => do
    let (constants, offset, rest) ← constantsFrom d.constants offset (ws.drop offset)
    let subroutines ← subroutinesFrom d.subroutines offset rest
    programOf constants subroutines
  | .frames offset => do
    let subroutines ← subroutinesFrom d.subroutines offset (ws.drop offset)
    programOf d.constants.reverse subroutines
  | .body b cursor => do
    let instructions ← instructionsFrom d.instructions
      (b.address + UInt16.ofNat (cursor - b.start)) cursor ((ws.take b.stop).drop cursor)
    let subroutines ←
      subroutinesFrom (⟨none, b.address, instructions⟩ :: d.subroutines) b.stop (ws.drop b.stop)
    programOf d.constants.reverse subroutines

/-- A round has no other outcome than one that comes to an answer: it stops with it, or goes on to a
decoder with the same answer, which stands further on within the words. -/
inductive Turns (ws : List Word) (d : Decoder) : Except Stop Decoder → Prop where
  | stop {a : Except BinaryError Program} (same : d.answer ws = a) :
      Turns ws d (.error (.ofAnswer a))
  | next {e : Decoder} (advances : d.place.Advances e.place) (within : e.Within ws)
      (same : e.answer ws = d.answer ws) : Turns ws d (.ok e)

section Rounds

variable {ws : List Word} {constants : List Constant} {subroutines : List Subroutine}
  {instructions : List Instruction}

theorem turns_constantRound {offset : Nat}
    (h : Within ws ⟨.constants offset, constants, subroutines, instructions⟩) :
    Turns ws ⟨.constants offset, constants, subroutines, instructions⟩
      (constantRound ws ⟨.constants offset, constants, subroutines, instructions⟩ offset) := by
  unfold constantRound
  cases haddress : ws[offset]? with
  | none =>
    refine .stop (a := .error _) ?_
    simp only [answer, drop_of_getElem?_eq_none haddress, constantsFrom]
    rfl
  | some address =>
    obtain ⟨hoffset, -⟩ := List.getElem?_eq_some_iff.1 haddress
    by_cases hsentinel : address = sentinel
    · simp only [hsentinel, if_true]
      refine .next .sentinel ⟨hoffset, h.subroutines, h.instructions⟩ ?_
      simp only [answer, drop_of_getElem?_eq_some haddress, hsentinel, constantsFrom_at_sentinel]
      rfl
    · simp only [hsentinel, if_false]
      cases hvalue : ws[offset + 1]? with
      | none =>
        refine .stop (a := .error _) ?_
        simp only [answer, drop_of_getElem?_eq_some haddress, drop_of_getElem?_eq_none hvalue,
          constantsFrom, hsentinel, if_false]
        rfl
      | some value =>
        obtain ⟨hlt, -⟩ := List.getElem?_eq_some_iff.1 hvalue
        refine .next .constant ⟨hlt, h.subroutines, h.instructions⟩ ?_
        simp only [answer, drop_of_getElem?_eq_some haddress, drop_of_getElem?_eq_some hvalue,
          constantsFrom, hsentinel, if_false]

theorem turns_frameRound {offset : Nat}
    (h : Within ws ⟨.frames offset, constants, subroutines, instructions⟩) :
    Turns ws ⟨.frames offset, constants, subroutines, instructions⟩
      (frameRound ws ⟨.frames offset, constants, subroutines, instructions⟩ offset) := by
  have hwithin : offset ≤ ws.length := h.place
  unfold frameRound
  split
  · next hoffset =>
    have haddress := List.getElem?_eq_getElem hoffset
    rw [elementAt_of_lt hoffset]
    generalize ws[offset] = address at haddress
    simp only [bind, Except.bind]
    cases hsize : ws[offset + 1]? with
    | none =>
      refine .stop (a := .error _) ?_
      simp only [answer, drop_of_getElem?_eq_some haddress, drop_of_getElem?_eq_none hsize]
      rw [subroutinesFrom]
      rfl
    | some size =>
      obtain ⟨hlt, -⟩ := List.getElem?_eq_some_iff.1 hsize
      -- The header is there, and the body is what follows it.
      have hdrop : ws.drop offset = address :: size :: ws.drop (offset + 2) := by
        rw [drop_of_getElem?_eq_some haddress, drop_of_getElem?_eq_some hsize]
      have hlength : ((ws.drop (offset + 2)).take size.toNat).length =
          min size.toNat (ws.length - (offset + 2)) := by
        rw [List.length_take, List.length_drop]
      by_cases fits : frameFits address size.toNat
      · by_cases short : ws.length < offset + 2 + size.toNat
        · simp only [fits, short, not_true_eq_false, if_true, if_false]
          refine .stop (a := .error _) ?_
          simp only [answer, hdrop]
          rw [subroutinesFrom]
          have hshort : min size.toNat (ws.length - (offset + 2)) < size.toNat := by omega
          have hend : offset + 2 + min size.toNat (ws.length - (offset + 2)) = ws.length := by omega
          simp only [fits, not_true_eq_false, if_false, hlength, hshort, if_true, hend]
          rfl
        · simp only [fits, short, not_true_eq_false, if_false]
          refine .next .header ⟨⟨Nat.le_refl _, Nat.le_add_right _ _, Nat.not_lt.1 short, ?_⟩,
            h.subroutines, by simp⟩ ?_
          · rwa [Nat.add_sub_cancel_left]
          · have hbody : (ws.take (offset + 2 + size.toNat)).drop (offset + 2) =
                (ws.drop (offset + 2)).take size.toNat := by
              rw [List.drop_take, Nat.add_sub_cancel_left]
            have hlong : size.toNat ≤ (ws.drop (offset + 2)).length := by
              rw [List.length_drop]
              omega
            have hzero : address + UInt16.ofNat 0 = address := UInt16.add_zero _
            simp only [answer, hdrop, hbody, Nat.sub_self, hzero]
            rw [subroutinesFrom_header fits hlong, List.drop_drop]
            cases instructionsFrom [] address (offset + 2)
              ((ws.drop (offset + 2)).take size.toNat) <;> rfl
      · simp only [fits, not_false_eq_true, if_true]
        refine .stop (a := .error _) ?_
        simp only [answer, hdrop]
        rw [subroutinesFrom]
        simp only [fits, not_false_eq_true, if_true]
        rfl
  · next hend =>
    refine .stop ?_
    simp only [answer, List.drop_eq_nil_of_le (Nat.not_lt.1 hend)]
    rw [subroutinesFrom]
    rfl

theorem turns_bodyRound {b : Body} {cursor : Nat}
    (h : Within ws ⟨.body b cursor, constants, subroutines, instructions⟩) :
    Turns ws ⟨.body b cursor, constants, subroutines, instructions⟩
      (bodyRound ws ⟨.body b cursor, constants, subroutines, instructions⟩ b cursor) := by
  obtain ⟨hstart, hstop, hend, fits⟩ := h.place
  unfold bodyRound
  split
  · next hcursor =>
    have hlt : cursor < ws.length := Nat.lt_of_lt_of_le hcursor hend
    have hcode : (ws.take b.stop)[cursor]? = some ws[cursor] := by
      rw [List.getElem?_take_of_lt hcursor, List.getElem?_eq_getElem hlt]
    rw [elementAt_of_lt hlt]
    generalize ws[cursor] = code at hcode
    simp only [bind, Except.bind]
    cases hopcode : Opcode.ofCode? code with
    | none =>
      refine .stop (a := .error _) ?_
      simp only [answer, drop_of_getElem?_eq_some hcode]
      rw [instructionsFrom, hopcode]
      rfl
    | some opcode =>
      have hsize : opcode.size = 1 + opcode.operandCount := rfl
      have hleft : ((ws.take b.stop).drop (cursor + 1)).length = b.stop - (cursor + 1) := by
        rw [List.length_drop, List.length_take, Nat.min_eq_left hend]
      simp only
      by_cases overruns : b.stop < cursor + opcode.size
      · rw [if_pos overruns]
        refine .stop (a := .error _) ?_
        simp only [answer, drop_of_getElem?_eq_some hcode]
        rw [instructionsFrom_overrun hopcode (by omega)]
        rfl
      · have hfits : opcode.operandCount ≤ b.stop - (cursor + 1) := by omega
        have hnext : cursor + opcode.size = cursor + 1 + opcode.operandCount := by omega
        -- Inside a body the words up to its end are the same as all words.
        have hoperands : ((ws.take b.stop).drop (cursor + 1)).take opcode.operandCount =
            (ws.drop (cursor + 1)).take (cursor + opcode.size - (cursor + 1)) := by
          rw [hnext, Nat.add_sub_cancel_left, List.drop_take, List.take_take,
            Nat.min_eq_left hfits]
        have haddress : b.address + UInt16.ofNat (cursor - b.start) + UInt16.ofNat opcode.size =
            b.address + UInt16.ofNat (cursor + opcode.size - b.start) := by
          rw [← add_ofNat_add, ← Nat.sub_add_comm hstart]
        rw [if_neg overruns, slice_of_le (by omega) (by omega), ← hoperands]
        refine .next (.instruction (by omega) (Nat.not_lt.1 overruns))
          ⟨⟨Nat.le_add_right_of_le hstart, Nat.not_lt.1 overruns, hend, fits⟩, h.subroutines, ?_⟩ ?_
        · rw [List.forall_mem_cons]
          exact ⟨List.length_take_of_le (hleft ▸ hfits), h.instructions⟩
        · simp only [answer, drop_of_getElem?_eq_some hcode]
          rw [instructionsFrom_code hopcode (hleft ▸ hfits), haddress, List.drop_drop, ← hnext]
  · next hcursor =>
    obtain rfl : cursor = b.stop := Nat.le_antisymm hstop (Nat.not_lt.1 hcursor)
    refine .next .close ⟨hend, ?_, h.instructions⟩ ?_
    · rw [List.forall_mem_cons]
      exact ⟨fun i hi => h.instructions i (List.mem_reverse.1 hi), h.subroutines⟩
    · have hnil : (ws.take b.stop).drop b.stop = [] := by
        rw [List.drop_take, Nat.sub_self, List.take_zero]
      simp only [answer, hnil]
      rw [instructionsFrom]
      rfl

end Rounds

theorem turns_step {ws : List Word} {d : Decoder} (h : d.Within ws) : Turns ws d (d.step ws) := by
  obtain ⟨place, constants, subroutines, instructions⟩ := d
  cases place with
  | constants offset => exact turns_constantRound h
  | frames offset => exact turns_frameRound h
  | body b cursor => exact turns_bodyRound h

end Decoder

/-! ### Runs -/

/-- How much is left behind a place. A body counts more than the frames behind it, since leaving it
reads nothing. -/
def Place.remaining (ws : List Word) : Place → Nat
  | constants offset => 2 * (ws.length - offset)
  | frames offset => 2 * (ws.length - offset)
  | body _ cursor => 2 * (ws.length - cursor) + 1

theorem Place.Advances.remaining_lt {ws : List Word} {p q : Place} (h : p.Advances q)
    (within : q.Within ws) : q.remaining ws < p.remaining ws := by
  cases h with
  | constant =>
    have hle : _ ≤ ws.length := within
    simp only [remaining]
    omega
  | sentinel =>
    have hle : _ ≤ ws.length := within
    simp only [remaining]
    omega
  | header =>
    obtain ⟨-, hle, hend, -⟩ := within
    simp only [remaining]
    omega
  | instruction further inside =>
    obtain ⟨-, -, hend, -⟩ := within
    simp only [remaining]
    omega
  | close => exact Nat.lt_succ_self _

namespace Decoder

/-- A decoder comes to a stop, in finitely many rounds. -/
inductive Ends (ws : List Word) : Decoder → Stop → Prop where
  | stop {d : Decoder} {stop : Stop} (h : d.step ws = .error stop) : Ends ws d stop
  | next {d e : Decoder} {stop : Stop} (h : d.step ws = .ok e) (ends : Ends ws e stop) :
      Ends ws d stop

/-- A decoder passes through a state. -/
def Reaches (ws : List Word) : Decoder → Decoder → Prop :=
  Relation.ReflTransGen fun d e => d.step ws = .ok e

variable {ws : List Word} {d e : Decoder}

/-- There is one stop at most, since a round has one outcome. -/
theorem Ends.unique {s t : Stop} (hs : Ends ws d s) (ht : Ends ws d t) : s = t := by
  induction hs with
  | stop h =>
    cases ht with
    | stop h' =>
      rw [h] at h'
      injection h'
    | next h' =>
      rw [h] at h'
      cases h'
  | next h _ ih =>
    cases ht with
    | stop h' =>
      rw [h] at h'
      cases h'
    | next h' ends =>
      rw [h] at h'
      injection h' with same
      exact ih (same ▸ ends)

theorem within_start (ws : List Word) : start.Within ws :=
  ⟨Nat.zero_le _, by simp [start], by simp [start]⟩

theorem Reaches.within (h : Reaches ws d e) (hd : d.Within ws) : e.Within ws := by
  induction h with
  | refl => exact hd
  | tail _ hstep ih =>
    have turns := turns_step ih
    rw [hstep] at turns
    cases turns with
    | next _ within => exact within

/-- A run ends with the answer of the readers: rounds leave it as it is, and what is left becomes
less with each. -/
theorem ends_answer (h : d.Within ws) : Ends ws d (.ofAnswer (d.answer ws)) := by
  generalize hn : d.place.remaining ws = n
  induction n using Nat.strongRecOn generalizing d with
  | _ n ih =>
    have turns := turns_step h
    generalize hstep : d.step ws = outcome at turns
    cases turns with
    | stop same => exact .stop (same ▸ hstep)
    | next advances within same =>
      exact .next hstep (same ▸ ih _ (hn ▸ advances.remaining_lt within.place) within rfl)

theorem answer_start (ws : List Word) : start.answer ws = decodeWords ws := by
  simp only [answer, start, decodeWords, List.drop_zero]
  rfl

/-- The run up to a stop. -/
theorem Ends.reaches {stop : Stop} (h : Ends ws d stop) :
    ∃ e, Reaches ws d e ∧ e.step ws = .error stop := by
  induction h with
  | stop h => exact ⟨_, .refl, h⟩
  | next h _ ih =>
    obtain ⟨e, hreach, hstop⟩ := ih
    exact ⟨e, hreach.head h, hstop⟩

/-- An overrun is found in a body. -/
theorem place_of_instructionOverrun {opcode : Opcode} {a : Word} (hd : d.Within ws)
    (h : d.step ws = .error (.refused (.instructionOverrun opcode a))) :
    ∃ b cursor, d.place = .body b cursor ∧ cursor < b.stop ∧
      a = b.address + UInt16.ofNat (cursor - b.start) := by
  unfold step at h
  split at h
  · unfold constantRound at h
    split at h
    · cases h
    · split at h
      · cases h
      · split at h <;> cases h
  · unfold frameRound at h
    split at h
    · next hoffset =>
      rw [elementAt_of_lt hoffset] at h
      simp only [bind, Except.bind] at h
      split at h
      · cases h
      · split at h
        · cases h
        · split at h <;> cases h
    · unfold programOf at h
      split at h <;> cases h
  · next b cursor hplace =>
    have hwithin := hd.place
    rw [hplace] at hwithin
    obtain ⟨-, -, hend, -⟩ := hwithin
    unfold bodyRound at h
    split at h
    · next hcursor =>
      rw [elementAt_of_lt (Nat.lt_of_lt_of_le hcursor hend)] at h
      simp only [bind, Except.bind] at h
      split at h
      · cases h
      · split at h
        · injection h with h
          injection h with h
          injection h with _ ha
          exact ⟨b, cursor, hplace, hcursor, ha.symm⟩
        · next opcode' _ inside =>
          have hsize : opcode'.size = 1 + opcode'.operandCount := rfl
          rw [slice_of_le (by omega) (by omega)] at h
          cases h
    · cases h

/-- The address of an overrun lies in the frame, so it is counted without wrapping. -/
theorem toNat_of_instructionOverrun {opcode : Opcode} {a : Word} (hd : d.Within ws)
    (h : d.step ws = .error (.refused (.instructionOverrun opcode a))) :
    ∃ b cursor, d.place = .body b cursor ∧ a.toNat = b.address.toNat + (cursor - b.start) ∧
      a.toNat < haltAddress.toNat := by
  obtain ⟨b, cursor, hplace, hcursor, rfl⟩ := place_of_instructionOverrun hd h
  have hwithin := hd.place
  rw [hplace] at hwithin
  obtain ⟨hstart, -, -, -, fits⟩ := hwithin
  have hhalt : haltAddress.toNat = 65535 := rfl
  have ha : (b.address + UInt16.ofNat (cursor - b.start)).toNat =
      b.address.toNat + (cursor - b.start) :=
    toNat_add_ofNat (by omega)
  exact ⟨b, cursor, hplace, ha, by omega⟩

end Decoder

/-! ### Decoding -/

/-- Decoding bytes comes to a stop. -/
def DecodesTo (bytes : List UInt8) (stop : Stop) : Prop :=
  wordsByIndex bytes = .error stop ∨
    ∃ ws, wordsByIndex bytes = .ok ws ∧ Decoder.start.Ends ws stop

theorem Stop.ofAnswer_ne_outOfBounds (a : Except BinaryError Program) :
    Stop.ofAnswer a ≠ .outOfBounds := by
  cases a <;> exact Stop.noConfusion

/-- The one stop of decoding by index is the answer of `decode`. -/
theorem decodesTo_iff {bytes : List UInt8} {stop : Stop} :
    DecodesTo bytes stop ↔ stop = .ofAnswer (decode bytes) := by
  rcases decode_eq_wordsByIndex bytes with ⟨ws, hws, hdecode⟩ | ⟨e, he, hdecode, -⟩
  · have ends := Decoder.ends_answer (Decoder.within_start ws)
    rw [Decoder.answer_start, ← hdecode] at ends
    constructor
    · rintro (h | ⟨vs, hvs, h⟩)
      · rw [hws] at h
        cases h
      · rw [hws] at hvs
        cases hvs
        exact h.unique ends
    · rintro rfl
      exact .inr ⟨ws, hws, ends⟩
  · rw [hdecode]
    constructor
    · rintro (h | ⟨ws, hws, -⟩)
      · rw [he] at h
        cases h
        rfl
      · rw [he] at hws
        cases hws
    · rintro rfl
      exact .inl he

/-- Decoding by index ends for all bytes, with the answer of `decode`, and takes nothing that is not
there. In every state on the way all places lie within the words, each instruction read has its
operands, and the next round goes further on. An instruction that overruns its body is told with its
address, which lies below `haltAddress`. -/
theorem decode_stays_in_bounds (bytes : List UInt8) :
    (∀ stop, DecodesTo bytes stop ↔ stop = .ofAnswer (decode bytes)) ∧
    ¬ DecodesTo bytes .outOfBounds ∧
    (∀ ws d, wordsByIndex bytes = .ok ws → Decoder.start.Reaches ws d →
      d.Within ws ∧ ∀ e, d.step ws = .ok e → d.place.Advances e.place) ∧
    ∀ opcode a, decode bytes = .error (.instructionOverrun opcode a) →
      ∃ ws d b cursor, wordsByIndex bytes = .ok ws ∧ Decoder.start.Reaches ws d ∧
        d.place = .body b cursor ∧
        d.step ws = .error (.refused (.instructionOverrun opcode a)) ∧
        a.toNat = b.address.toNat + (cursor - b.start) ∧ a.toNat < haltAddress.toNat := by
  refine ⟨fun _ => decodesTo_iff, ?bounds, ?states, ?overrun⟩
  case bounds =>
    intro h
    exact Stop.ofAnswer_ne_outOfBounds _ (decodesTo_iff.1 h).symm
  case states =>
    intro ws d _ hreach
    have within := hreach.within (Decoder.within_start ws)
    refine ⟨within, fun e he => ?_⟩
    have turns := Decoder.turns_step within
    rw [he] at turns
    cases turns with
    | next advances _ _ => exact advances
  case overrun =>
    intro opcode a h
    rcases decode_eq_wordsByIndex bytes with ⟨ws, hws, hdecode⟩ | ⟨e, -, hdecode, hne⟩
    · have ends := Decoder.ends_answer (Decoder.within_start ws)
      rw [Decoder.answer_start, ← hdecode, h] at ends
      obtain ⟨d, hreach, hstep⟩ := ends.reaches
      obtain ⟨b, cursor, hplace, ha⟩ :=
        Decoder.toNat_of_instructionOverrun (hreach.within (Decoder.within_start ws)) hstep
      exact ⟨ws, d, b, cursor, hws, hreach, hplace, hstep, ha⟩
    · rw [hdecode] at h
      injection h with h
      exact absurd h (hne opcode a)

end WordMachine.Binary
