import WordMachine.Proofs.Assembly.Renaming
import WordMachine.Proofs.Machine.ArgumentTexts
import WordMachine.Proofs.Source.Formatting
import WordMachine.Proofs.Toolchain

namespace WordMachine

open Sequence Source

/-!
# Strings in memory

A string keeps all of its characters from the text to memory. No character but a double quote ends
it in its line, its words follow each other in the program, and the zero behind them tells where
they end if there is no other zero among them.

* `Source.tokenizes_declaration` — a declaration has three tokens, whatever the string holds.
* `Source.exists_place_of_declaration` — it is a line of the text that declares the constant.
* `Spells.operand_eq`, `Spells.exists_constants_eq` — what a program has of a constant;
  `Machine.wordsFrom_loaded` — what memory has of it.
* `StringAt` — what is known of a string at an address.
* `strings_reach_memory` — a declared string stands at the address that its name stands for.
-/

namespace Source

/-! ### The line -/

/-- The characters of names stand in bare tokens. -/
theorem isBare_of_isSymbolChar {c : Char} (h : isSymbolChar c = true) : isBare c = true := by
  have between : ∀ low high : Char, low.val ≤ c.val ∧ c.val ≤ high.val →
      low.toNat ≤ c.toNat ∧ c.toNat ≤ high.toNat := fun low high hc =>
    ⟨UInt32.le_iff_toNat_le.1 hc.1, UInt32.le_iff_toNat_le.1 hc.2⟩
  have hcode : 46 ≤ c.toNat ∧ c.toNat ≤ 122 ∧ c.toNat ≠ 59 := by
    simp only [isSymbolChar, Char.isAlphanum, Bool.or_eq_true, beq_iff_eq] at h
    rcases h with ((halpha | hdigit) | rfl) | rfl
    · rcases Bool.or_eq_true_iff.1 halpha with hupper | hlower
      · have : 65 ≤ c.toNat ∧ c.toNat ≤ 90 := between 'A' 'Z' (of_decide_eq_true hupper)
        omega
      · have : 97 ≤ c.toNat ∧ c.toNat ≤ 122 := between 'a' 'z'
          ((Bool.and_eq_true_iff.1 hlower).imp of_decide_eq_true of_decide_eq_true)
        omega
    · have : 48 ≤ c.toNat ∧ c.toNat ≤ 57 := between '0' '9'
        ((Bool.and_eq_true_iff.1 hdigit).imp of_decide_eq_true of_decide_eq_true)
      omega
    · decide
    · decide
  rw [isBare_iff]
  refine ⟨?_, ?_⟩
  · simp [Text.isWhite]
    omega
  · rintro rfl
    exact hcode.2.2 rfl

/-- The tokens of a declaration: a name, an equals sign, and a string in double quotes. -/
def declarationTokens (name s : String) : List (List Char) :=
  [name.toList, ['='], '"' :: s.toList ++ ['"']]

section Declaration

variable {name s : String} (named : SymbolName name.toList)

include named

/-- A declaration has its three tokens, whatever the string holds. -/
theorem tokenizes_declaration (unquoted : '"' ∉ s.toList) {line : List Char}
    (formats : Formats (declarationTokens name s) line) :
    Tokenizes line (declarationTokens name s) := by
  have hspace : ∀ (rest : List Char) c, (' ' :: rest).head? = some c → isBare c = false := by
    intro rest c hc
    cases hc
    rfl
  have hname : ∀ rest, Begins (name.toList ++ ' ' :: rest) name.toList (' ' :: rest) := by
    intro rest
    refine .bare named.1 (fun c hc => isBare_of_isSymbolChar (named.2 c hc)) (hspace rest) ?_
    intro cs hcs
    obtain ⟨c, cs', hname⟩ := List.exists_cons_of_ne_nil named.1
    have hc := named.2 c (by simp [hname])
    rw [hname] at hcs
    obtain ⟨rfl, -⟩ := List.cons.inj hcs
    cases hc
  have hequals : ∀ rest, Begins (['='] ++ ' ' :: rest) ['='] (' ' :: rest) := by
    intro rest
    refine .bare (List.cons_ne_nil _ _) (by simp [isBare, Text.isWhite]) (hspace rest) ?_
    intro cs hcs
    cases hcs
  have hstring : Begins ('"' :: s.toList ++ '"' :: []) ('"' :: s.toList ++ ['"']) [] :=
    .string unquoted
  have hgap : Gap [' '] := by decide
  have hline : Tokenizes
      ([] ++ (name.toList ++ ' ' :: (['='] ++ ' ' :: ('"' :: s.toList ++ ['"']))))
      (declarationTokens name s) :=
    .token gap_nil (hname _) (.token hgap (hequals _) (.token hgap hstring tokenizes_nil))
  exact hline.reformat formats

/-- They declare a constant, whose words are the code units of the string and a zero. -/
theorem ofLine_declaration (number : Nat) :
    ∃ value, Statement.ofLine ⟨number, (declarationTokens name s).map String.ofList⟩ =
        .ok (.constant name value) ∧
      constantWords number value = .ok (Text.Utf16.encode s ++ [0]) := by
  have hname : name? name.toList = some name :=
    name?_eq_some_iff.2 ⟨named, String.ofList_toList⟩
  refine ⟨String.ofList ('"' :: s.toList ++ ['"']), ?_, ?_⟩
  · rw [declarationTokens, List.map_cons, String.ofList_toList]
    exact ofLine_constant hname _
  · have hquoted : quoted? ('"' :: s.toList ++ ['"']) = some s.toList := by
      rw [List.cons_append, quoted?, List.getLast?_concat, if_pos rfl, List.dropLast_concat]
    rw [constantWords, String.toList_ofList, hquoted]
    show Except.ok (Text.Utf16.encode (String.ofList s.toList) ++ [0]) = _
    rw [String.ofList_toList]

end Declaration

/-! ### The text -/

/-- A declaration has a place in the text. -/
theorem exists_place_of_declaration {text : String} {lines : List Line}
    (h : Line.ofSource text = .ok lines) {name s : String} (named : SymbolName name.toList)
    (unquoted : '"' ∉ s.toList) {line : List Char} (hline : line ∈ splitLines text.toList)
    (formats : Formats (declarationTokens name s) line) :
    ∃ q ∈ places lines, ∃ value, Statement.ofLine q.line = .ok (.constant name value) ∧
      q.line.valueWords value = Text.Utf16.encode s ++ [0] := by
  obtain ⟨number, hmem⟩ := mem_ofSource h hline (tokenizes_declaration named unquoted formats)
    (List.cons_ne_nil _ _)
  obtain ⟨value, kind, hwords⟩ := ofLine_declaration named number
  rw [← map_line_places lines, List.mem_map] at hmem
  obtain ⟨q, hq, hlineq⟩ := hmem
  refine ⟨q, hq, value, by rw [hlineq, kind], ?_⟩
  rw [hlineq, Line.valueWords, hwords]
  rfl

/-! ### The program -/

section Program

variable {lines : List Line} {base : Word} {p : Program} {name : String} {a : Word}

/-- Behind all lines, the name of a constant is resolved to its address. -/
theorem draftToken_of_address? {state : Assembly}
    (hrun : lines.foldlM Assembly.step (Assembly.start base) = .ok state)
    (named : name? name.toList = some name)
    (haddress : address? base lines (.constant name) = some a) (number : Nat) :
    Assembly.draftToken state.symbols number ("[" ++ name ++ "]") = .ok (.word a) := by
  have hfollows := Assembly.follows_of_run hrun (Assembly.follows_start base)
  have hconstant : state.symbols.constant? name = some a :=
    (hfollows.lookup (.constant name)).trans haddress
  refine Assembly.draftToken_eq_ok_iff.2 ⟨.constant name, ofChars?_constant named, ?_⟩
  rw [Assembly.draftOperand, hconstant]

/-- An instruction has the address wherever its line has the name. -/
theorem Spells.operand_eq (h : Spells base lines p) (named : name? name.toList = some name)
    (haddress : address? base lines (.constant name) = some a) {k : Nat} {sub : Subroutine}
    (hsub : p.subroutines[k]? = some sub) :
    List.Forall₂
      (fun q i => ∃ tokens,
        Statement.ofLine q.line = .ok (.instruction i.opcode.mnemonic tokens) ∧
          List.Forall₂ (fun token w => token = "[" ++ name ++ "]" → w = a) tokens i.operands)
      (body lines (k + 1)) sub.instructions := by
  refine (h.instructions hsub).imp fun q i hspells => ?_
  obtain ⟨tokens, kind, hvalues⟩ := hspells
  refine ⟨tokens, kind, hvalues.imp fun token w hvalue => ?_⟩
  rintro rfl
  rw [Place.value?, ofChars?_constant named] at hvalue
  exact Option.some.inj (hvalue.symm.trans haddress)

/-- The words that a line declares stand in the program one behind the other. -/
theorem Spells.exists_constants_eq (h : Spells base lines p) {q : Place} (hq : q ∈ places lines)
    {value : String} (kind : Statement.ofLine q.line = .ok (.constant name value)) :
    ∃ before after, p.constants = before ++
      Assembly.constantsOf name (q.address base) (q.line.valueWords value) ++ after := by
  obtain ⟨above, below, hplaces⟩ := List.append_of_mem hq
  refine ⟨above.flatMap (Place.constants base), below.flatMap (Place.constants base), ?_⟩
  rw [h.constants, hplaces, List.flatMap_append, List.flatMap_cons, ← List.append_assoc]
  simp only [Place.constants, kind]

end Program

end Source

/-- The first word of a constant has its name, and the others have none. -/
theorem Assembly.names_constantsOf (name : String) (a : Word) {ws : List Word} (h : ws ≠ []) :
    (constantsOf name a ws).map Constant.name? =
      some name :: List.replicate (ws.length - 1) none := by
  obtain ⟨w, ws, rfl⟩ := List.exists_cons_of_ne_nil h
  simp only [constantsOf, placed_cons, List.map_cons, List.map_map, List.cons.injEq, true_and]
  rw [List.eq_replicate_iff, List.length_map, length_placed]
  refine ⟨rfl, fun name? hname => ?_⟩
  obtain ⟨_, -, rfl⟩ := List.mem_map.1 hname
  rfl

/-! ### Memory -/

/-- Longer runs of words begin with shorter ones. -/
theorem Memory.take_wordsFrom (m : Memory) (a : Word) {k n : Nat} (h : k ≤ n) :
    (m.wordsFrom a n).take k = m.wordsFrom a k := by
  rw [wordsFrom, ← List.map_take, List.take_range, Nat.min_eq_left h, wordsFrom]

/-- A text is read up to the zero behind it, if it holds no other one. -/
theorem decode_takeWhile_of_take {s : String} (h : '\x00' ∉ s.toList) {ws : List Word}
    (front : ws.take ((Text.Utf16.encode s).length + 1) = Text.Utf16.encode s ++ [0]) :
    Text.Utf16.decode (ws.takeWhile (· != 0)) = s.toList.map some := by
  have hnonzero : ∀ w ∈ Text.Utf16.encode s, (w != 0) = true := by
    intro w hw
    rw [bne_iff_ne]
    rintro rfl
    exact h (Text.Utf16.zero_mem_encode_iff.1 hw)
  rw [← List.take_append_drop ((Text.Utf16.encode s).length + 1) ws, front, List.append_assoc,
    List.takeWhile_append_of_pos hnonzero, List.singleton_append, List.takeWhile_cons]
  rw [if_neg (by decide), List.append_nil, Text.Utf16.decode_encode_eq_map_some]

/-- Constants one behind the other are in memory once their program is loaded. -/
theorem Machine.wordsFrom_loaded {m : Machine} (fits : m.layout.screen.Fits) {p : Program}
    (h : p.LaidOut m.layout.programStart) {cells : List Constant}
    (hcells : ∀ c ∈ cells, c ∈ p.constants) {a : Word} {ws : List Word}
    (hplaced : cells.map (fun c => (c.address, c.value)) = placed a ws) :
    (m.loaded p).memory.wordsFrom a ws.length = ws := by
  apply Memory.wordsFrom_of_placed
  intro cell hcell
  rw [← hplaced, List.mem_map] at hcell
  obtain ⟨c, hc, rfl⟩ := hcell
  exact Machine.peek_image_loaded fits h (Program.mem_image_of_mem_constants (hcells c hc))

/-! ### Strings -/

/-- What is known of a string constant of an assembled text: what its name stands for, its words in
the program, and its words in memory. -/
structure StringAt (lines : List Line) (p : Program) (m : Machine) (base : Word) (name s : String)
    (a : Word) : Prop where
  /-- Behind all lines, `[name]` is resolved to the address. -/
  resolved : ∃ state, lines.foldlM Assembly.step (Assembly.start base) = .ok state ∧
    ∀ number, Assembly.draftToken state.symbols number ("[" ++ name ++ "]") = .ok (.word a)
  /-- Wherever an instruction of the text has the operand `[name]`, that of the program has the
  address. -/
  operand : ∀ k sub, p.subroutines[k]? = some sub →
    List.Forall₂
      (fun q i => ∃ tokens,
        Statement.ofLine q.line = .ok (.instruction i.opcode.mnemonic tokens) ∧
          List.Forall₂ (fun token w => token = "[" ++ name ++ "]" → w = a) tokens i.operands)
      (body lines (k + 1)) sub.instructions
  /-- The words follow each other, and the first one alone has the name. -/
  constants : ∃ before cells after, p.constants = before ++ cells ++ after ∧
    cells.map (fun c => (c.address, c.value)) = placed a (Text.Utf16.encode s ++ [0]) ∧
    cells.map Constant.name? = some name :: List.replicate (Text.Utf16.encode s).length none
  only : ∀ c ∈ p.constants, c.name? = some name → c.address = a
  words : m.memory.wordsFrom a ((Text.Utf16.encode s).length + 1) = Text.Utf16.encode s ++ [0]
  decoded : '\x00' ∉ s.toList → ∀ n, (Text.Utf16.encode s).length < n →
    Text.Utf16.decode ((m.memory.wordsFrom a n).takeWhile (· != 0)) = s.toList.map some

/-- **Strings reach memory.** Take a text that assembles for a machine and has a line that declares
a name to be a string, with any gaps and with or without a comment. Once the program is loaded, the
code units of the string and a zero stand in memory from the address on that the name stands for.
Only the first of these words has the name. If the string holds no zero, the words up to the first
zero are decoded to the string. -/
theorem strings_reach_memory {m : Machine} (fits : m.layout.screen.Fits) {text : String}
    {p : Program} (h : assembleText text m.layout.programStart = .ok p) {name s : String}
    (named : SymbolName name.toList) (unquoted : '"' ∉ s.toList) {line : List Char}
    (hline : line ∈ splitLines text.toList) (formats : Formats (declarationTokens name s) line) :
    ∃ lines m' a, Line.ofSource text = .ok lines ∧ m.load p = .ok m' ∧
      StringAt lines p m' m.layout.programStart name s a := by
  obtain ⟨lines, hlines, hassemble⟩ := bind_eq_ok_iff.1 h
  obtain ⟨-, distinct, spells⟩ := assemble_eq_ok_iff.1 hassemble
  obtain ⟨state, hrun, -⟩ := bind_eq_ok_iff.1 hassemble
  have hname : name? name.toList = some name := name?_eq_some_iff.2 ⟨named, String.ofList_toList⟩
  obtain ⟨q, hq, value, kind, hvalue⟩ :=
    exists_place_of_declaration hlines named unquoted hline formats
  have haddress : address? m.layout.programStart lines (.constant name) =
      some (q.address m.layout.programStart) :=
    address?_of_mem_places distinct hq (Place.symbol?_constant kind)
  obtain ⟨before, after, hconstants⟩ := spells.exists_constants_eq hq kind
  rw [hvalue] at hconstants
  have hplaced := Assembly.map_constantsOf name (q.address m.layout.programStart)
    (Text.Utf16.encode s ++ [0])
  have hnames := Assembly.names_constantsOf name (q.address m.layout.programStart)
    (List.append_ne_nil_of_right_ne_nil (Text.Utf16.encode s) (List.cons_ne_nil 0 []))
  rw [List.length_append, List.length_singleton, Nat.add_sub_cancel] at hnames
  have hwords : (m.loaded p).memory.wordsFrom (q.address m.layout.programStart)
      ((Text.Utf16.encode s).length + 1) = Text.Utf16.encode s ++ [0] := by
    have hloaded := Machine.wordsFrom_loaded fits (laidOut_of_assemble hassemble)
      (fun c hc => by simp [hconstants, hc]) hplaced
    rwa [List.length_append, List.length_singleton] at hloaded
  refine ⟨lines, m.loaded p, q.address m.layout.programStart, hlines,
    (load_of_assemble hassemble).1, ?_⟩
  exact {
    resolved := ⟨state, hrun, draftToken_of_address? hrun hname haddress⟩
    operand := fun k sub hsub => spells.operand_eq hname haddress hsub
    constants := ⟨before, _, after, hconstants, hplaced, hnames⟩
    only := fun c hc hcname => by
      have := spells.address?_constant distinct hc hcname
      rw [haddress] at this
      exact (Option.some.inj this).symm
    words := hwords
    decoded := fun nonzero n hn => by
      apply decode_takeWhile_of_take nonzero
      rw [Memory.take_wordsFrom _ _ hn, hwords] }

/-- A string with a semicolon, white space and a character of two code units, in front of a
comment. -/
def signText : String :=
  "k = 7\n\tsign = \"; \u00a0😀\"; here\nmain:\npsh [sign]\nret"

theorem strings_reach_memory_sign :
    ∃ p m' a, assembleText signText usedMachine.layout.programStart = .ok p ∧
      usedMachine.load p = .ok m' ∧
      m'.memory.wordsFrom a 6 = [0x003B, 0x0020, 0x00A0, 0xD83D, 0xDE00, 0] ∧
      Text.Utf16.decode ((m'.memory.wordsFrom a 9).takeWhile (· != 0)) =
        "; \u00a0😀".toList.map some := by
  have fits : usedMachine.layout.screen.Fits := by decide
  have h : assembleText signText usedMachine.layout.programStart = .ok
      ⟨[⟨some "k", 0x0130, 7⟩, ⟨some "sign", 0x0131, 0x003B⟩, ⟨none, 0x0132, 0x0020⟩,
          ⟨none, 0x0133, 0x00A0⟩, ⟨none, 0x0134, 0xD83D⟩, ⟨none, 0x0135, 0xDE00⟩,
          ⟨none, 0x0136, 0⟩],
        [⟨some "main", 0x0137, [⟨.psh, [0x0131]⟩, ⟨.ret, []⟩]⟩], 0x0137⟩ := by
    decide +kernel
  have hline : "\tsign = \"; \u00a0😀\"; here".toList ∈ splitLines signText.toList := by
    decide +kernel
  have formats : Formats (declarationTokens "sign" "; \u00a0😀")
      "\tsign = \"; \u00a0😀\"; here".toList := by
    refine ⟨"\t".toList ++ "sign".toList ++ (" ".toList ++ ['='] ++
      (" ".toList ++ ('"' :: "; \u00a0😀".toList ++ ['"']) ++ [])), "; here".toList, rfl, ?_,
      .inr ⟨_, rfl⟩, fun _ => by decide⟩
    refine .cons (by decide) (.cons (by decide) (.cons (by decide) (.nil gap_nil) ?_) ?_) ?_
    · exact fun h => absurd rfl h
    · exact fun _ => ⟨_, rfl, rfl⟩
    · exact fun _ => ⟨_, rfl, rfl⟩
  obtain ⟨_, m', a, -, hload, hstring⟩ := strings_reach_memory (s := "; \u00a0😀") fits h
    ⟨by decide, List.all_eq_true.1 (by decide)⟩ (by decide) hline formats
  exact ⟨_, m', a, h, hload, hstring.words, hstring.decoded (by decide) 9 (by decide)⟩

end WordMachine
