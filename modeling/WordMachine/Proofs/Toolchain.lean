import WordMachine.CommandLine
import WordMachine.Proofs.Assembly.Layout
import WordMachine.Proofs.Binary.RoundTrip
import WordMachine.Proofs.Machine.Arguments

namespace WordMachine

open Sequence

/-!
# From a text to a running machine

Assembly, the binary format and the loader each check limits of their own. Whatever passes the
checks of assembly passes the others, and each stage hands on what the one before it made.

* `decode_encode_of_assemble` — an assembled program has a binary form, which keeps all but names.
* `load_of_assemble` — a machine with the layout it was assembled for takes it.
* `toolchain_agrees` — the two together, and what may still fail on the command line.
* `fetches_what_was_assembled` — the machine executes the instructions of the text.
-/

/-! ### The binary form -/

/-- A program laid out anywhere passes the encoder's checks. -/
theorem encode_of_laidOut {base : Word} {p : Program} (h : p.LaidOut base)
    (nonempty : p.subroutines ≠ []) : ∃ bytes, Binary.encode p = .ok bytes := by
  refine ⟨_, Binary.encode_eq_ok_iff.2 ⟨nonempty, ?_, ?_, rfl⟩⟩
  · -- Constants stand below `haltAddress` for being part of the image.
    intro c hc heq
    have hlt := h.toNat_constant_lt hc
    rw [heq] at hlt
    exact Nat.lt_irrefl _ hlt
  · intro s hs
    exact ⟨h.below s hs, (h.toNat_address_add_size_le hs).2⟩

/-- Its constants are in order already. -/
theorem nameless_of_laidOut {base : Word} {p : Program} (h : p.LaidOut base) {last : Subroutine}
    (hlast : p.main? = some last) (entry : p.entry = last.address) :
    Binary.nameless p = p.withoutSymbols := by
  have horder : p.withoutSymbols.constants.Pairwise fun c d => c.address ≤ d.address :=
    h.withoutSymbols.ascending_constants
  rw [Binary.nameless, Binary.sortConstants_eq_self horder, hlast, Option.map_some,
    Option.getD_some, ← entry]
  rfl

section Assembled

variable {lines : List Source.Line} {base : Word} {p : Program}

theorem decode_encode_of_assemble (h : assemble lines base = .ok p) :
    ∃ bytes, Binary.encode p = .ok bytes ∧ Binary.decode bytes = .ok p.withoutSymbols := by
  have hlaid := laidOut_of_assemble h
  obtain ⟨last, hlast, -, hentry⟩ := main_of_assemble h
  have nonempty : p.subroutines ≠ [] := by
    intro hnil
    rw [Program.main?, hnil] at hlast
    cases hlast
  obtain ⟨bytes, hbytes⟩ := encode_of_laidOut hlaid nonempty
  refine ⟨bytes, hbytes, ?_⟩
  rw [Binary.decode_of_checks hlaid.wellFormed hbytes, nameless_of_laidOut hlaid hlast hentry]

/-- A run does not start at `haltAddress`. -/
theorem entry_ne_of_assemble (h : assemble lines base = .ok p) : p.entry ≠ haltAddress := by
  obtain ⟨last, hlast, -, hentry⟩ := main_of_assemble h
  rw [hentry]
  exact (laidOut_of_assemble h).below last (List.mem_of_getLast? hlast)

/-! ### The loader -/

theorem load_of_assemble {m : Machine} (h : assemble lines m.layout.programStart = .ok p) :
    m.load p = .ok (m.loaded p) ∧ m.load p.withoutSymbols = .ok (m.loaded p) := by
  have hload := Machine.load_eq_ok (laidOut_of_assemble h).fits
  exact ⟨hload, (m.load_withoutSymbols p).trans hload⟩

end Assembled

/-! ### The command line -/

namespace CommandLine

theorem failure_of_loadArguments {m : Machine} {arguments : List String} {e : MachineError}
    (h : m.loadArguments arguments = .error e) :
    ∃ needed available, e = .heapOverflow needed available := by
  obtain ⟨n, hrun⟩ := Machine.InPlace.accepted_eq_error_iff.1 h
  rw [Machine.run_copyArguments] at hrun
  split at hrun
  · cases hrun
    exact ⟨_, _, rfl⟩
  · cases hrun

/-- Once a program is loaded, only its arguments may be refused. -/
theorem failure_of_loadMachine {p : Program} {arguments : List String} {e : MachineError}
    (hload : ∀ m : Machine, m.layout.screen = .standard → ∃ m', m.load p = .ok m')
    (h : loadMachine p arguments = .error e) :
    ∃ needed available, e = .heapOverflow needed available := by
  have hscreen : Screen.standard.Fits := by decide
  rw [loadMachine, Machine.ofScreen, if_pos hscreen] at h
  obtain ⟨m', hm'⟩ := hload ⟨RegisterFile.zero.set .sp (Layout.empty .standard).stackTop,
    Memory.blank, Layout.empty .standard⟩ rfl
  simp only [bind, Except.bind, hm'] at h
  exact failure_of_loadArguments h

/-- What stops the run of a loaded machine is a fault. -/
theorem failure_of_runMachine {m : Machine} {failure : Failure}
    (h : (runMachine m).2 = some failure) : ∃ fault, failure = .fault fault := by
  simp only [runMachine] at h
  split at h
  · exact ⟨_, (Option.some.inj h).symm⟩
  · cases h

/-- Behind assembly, a run fails for its arguments or for a fault. -/
theorem failure_of_runText {source : String} {arguments : List String} {p : Program}
    (hp : assembleText source (Layout.empty .standard).programStart = .ok p)
    (hcodec : ∃ bytes, Binary.encode p = .ok bytes ∧ Binary.decode bytes = .ok p.withoutSymbols)
    (hload : ∀ m : Machine, m.layout.screen = .standard → ∃ m', m.load p.withoutSymbols = .ok m')
    {failure : Failure} (h : (runText source arguments).2 = some failure) :
    (∃ needed available, failure = .machine (.heapOverflow needed available)) ∨
      ∃ fault, failure = .fault fault := by
  obtain ⟨bytes, hencode, hdecode⟩ := hcodec
  simp only [runText, hp, runProgram, hencode, runBinary, hdecode] at h
  split at h
  · next e he =>
    obtain ⟨needed, available, rfl⟩ := failure_of_loadMachine hload he
    exact .inl ⟨needed, available, (Option.some.inj h).symm⟩
  · exact .inr (failure_of_runMachine h)

end CommandLine

/-! ### The whole toolchain -/

/-- **Toolchain agreement.** A text that assembles for a screen has a binary form, which is read
back as the program without its names, and every machine with that screen takes both and is the same
machine afterwards. So on the command line a text that assembles fails for its arguments or for a
fault of one of its instructions only. -/
theorem toolchain_agrees {screen : Screen} {text : String} {p : Program}
    (h : assembleText text (Layout.empty screen).programStart = .ok p) :
    (∃ bytes, Binary.encode p = .ok bytes ∧ Binary.decode bytes = .ok p.withoutSymbols) ∧
      (∀ m : Machine, m.layout.screen = screen →
        ∃ m', m.load p = .ok m' ∧ m.load p.withoutSymbols = .ok m') ∧
      (screen = .standard → ∀ arguments failure,
        (CommandLine.runText text arguments).2 = some failure →
          (∃ needed available, failure = .machine (.heapOverflow needed available)) ∨
            ∃ fault, failure = .fault fault) := by
  obtain ⟨lines, -, hlines⟩ := bind_eq_ok_iff.1 h
  have hcodec := decode_encode_of_assemble hlines
  have hload : ∀ m : Machine, m.layout.screen = screen →
      ∃ m', m.load p = .ok m' ∧ m.load p.withoutSymbols = .ok m' := by
    rintro m rfl
    exact ⟨_, load_of_assemble hlines⟩
  refine ⟨hcodec, hload, ?_⟩
  rintro rfl arguments failure hfailure
  -- The command line loads what it has read back.
  refine CommandLine.failure_of_runText h hcodec ?_ hfailure
  intro m hm
  obtain ⟨m', -, hm'⟩ := hload m hm
  exact ⟨m', hm'⟩

/-- A text with a constant that holds `ffff`, a character of two bytes, an empty subroutine, and a
label behind its first use. -/
def mixedText : String :=
  "n = -1\ns = \"é\"\nnone:\nmain:\n cpl aa &end ; forward\n cal \x7bnone\x7d\n&end\n ret\n"

theorem toolchain_agrees_mixedText :
    ∃ p, assembleText mixedText (Layout.empty .standard).programStart = .ok p ∧
      ∃ bytes, Binary.encode p = .ok bytes ∧ Binary.decode bytes = .ok p.withoutSymbols := by
  have h : assembleText mixedText (Layout.empty .standard).programStart = .ok
      ⟨[⟨some "n", 0x0900, 0xFFFF⟩, ⟨some "s", 0x0901, 0x00E9⟩, ⟨none, 0x0902, 0⟩],
        [⟨some "none", 0x0903, []⟩,
          ⟨some "main", 0x0903, [⟨.cpl, [0, 0x0908]⟩, ⟨.cal, [0x0903]⟩, ⟨.ret, []⟩]⟩],
        0x0903⟩ := by decide +kernel
  exact ⟨_, h, (toolchain_agrees h).1⟩

/-- **Execution of what was assembled.** Whatever a machine held before, once it is loaded with a
program assembled for it, or with what the binary form keeps of that program, each instruction is
fetched where the program lists it, next to the one before it in its subroutine, and a run finds
everything else in place. -/
theorem fetches_what_was_assembled {m : Machine} (fits : m.layout.screen.Fits)
    {lines : List Source.Line} {p : Program}
    (h : assemble lines m.layout.programStart = .ok p) :
    (∀ s ∈ p.subroutines, ∀ k a i b j, s.addressed[k]? = some (a, i) →
      s.addressed[k + 1]? = some (b, j) → a.toNat + i.size = b.toNat) ∧
      ∃ bytes q m', Binary.encode p = .ok bytes ∧ Binary.decode bytes = .ok q ∧
        m.load p = .ok m' ∧ m.load q = .ok m' ∧ m'.layout.screen = m.layout.screen ∧
        m'.Ready p ∧ m'.Ready q := by
  have hlaid := laidOut_of_assemble h
  have hentry := entry_ne_of_assemble h
  obtain ⟨bytes, hbytes, hdecode⟩ := decode_encode_of_assemble h
  obtain ⟨hload, hload'⟩ := load_of_assemble h
  have hready := Machine.ready_loaded fits hlaid hentry
  -- Without its names the program stands in the same place and loads to the same machine.
  have hready' : (m.loaded p).Ready p.withoutSymbols := by
    rw [← m.loaded_withoutSymbols p]
    exact Machine.ready_loaded fits hlaid.withoutSymbols hentry
  refine ⟨?_, bytes, p.withoutSymbols, m.loaded p, hbytes, hdecode, hload, hload',
    Machine.screen_loaded, hready, hready'⟩
  intro s hs k a i b j ha hb
  have hend : s.address.toNat + s.size ≤ 65535 := (hlaid.toNat_address_add_size_le hs).2
  exact (Subroutine.toNat_addressed_succ (by omega) ha hb).symm

/-- A machine that something else has run on before, with words where a program will stand. -/
def usedMachine : Machine where
  registers := (RegisterFile.zero.set .sp 0x0007).set .pc haltAddress
  memory := (Memory.blank.set 0x0130 0xBEEF).set 0x0134 0x0016
  layout := ⟨⟨0, 0⟩, 0x1234⟩

/-- A subroutine and a call of it, with a label behind its first use. -/
def callingLines : List Source.Line :=
  [⟨1, ["s", "=", "\"a\""]⟩, ⟨2, ["f:"]⟩, ⟨3, ["ret"]⟩, ⟨4, ["main:"]⟩,
    ⟨5, ["cpl", "aa", "&end"]⟩, ⟨6, ["cal", "\x7bf\x7d"]⟩, ⟨7, ["&end"]⟩, ⟨8, ["ret"]⟩]

theorem fetches_what_was_assembled_usedMachine :
    usedMachine.layout.screen.Fits ∧
      ∃ p, assemble callingLines usedMachine.layout.programStart = .ok p ∧
        ∃ m', usedMachine.load p = .ok m' ∧ m'.Ready p := by
  have fits : usedMachine.layout.screen.Fits := by decide
  have h : assemble callingLines usedMachine.layout.programStart = .ok
      ⟨[⟨some "s", 0x0130, 0x0061⟩, ⟨none, 0x0131, 0⟩],
        [⟨some "f", 0x0132, [⟨.ret, []⟩]⟩,
          ⟨some "main", 0x0133, [⟨.cpl, [0, 0x0138]⟩, ⟨.cal, [0x0132]⟩, ⟨.ret, []⟩]⟩],
        0x0133⟩ := by decide +kernel
  obtain ⟨-, -, -, m', -, -, hload, -, -, hready, -⟩ := fetches_what_was_assembled fits h
  exact ⟨fits, _, h, m', hload, hready⟩

end WordMachine
