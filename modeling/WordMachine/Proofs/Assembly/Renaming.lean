import WordMachine.Proofs.Assembly.Relocation
import WordMachine.Proofs.Binary.Canonical
import WordMachine.Proofs.Toolchain

namespace WordMachine

open Sequence Source

/-!
# Other names

A name does nothing but tie references to a declaration. So the symbols of a text may be given other
names, as long as no two of one namespace come to share theirs: references find the declarations
that they found before, and the binary form has no names at all. A constant, a subroutine and labels
may have one name, before and after.

* `Source.Renaming` — new names, apart by namespace and, for labels, by subroutine.
* `Source.Renaming.text` — a text under new names.
* `Source.mentioned` — the symbols that a text declares or refers to.
* `Source.Renaming.Consistent` — what new names have to keep apart.
* `Source.Renaming.Consistent.ofLine_line` — a line says the same under new names.
* `Source.Renaming.Consistent.address?_text` — and every symbol stands where it did.
* `assemble_renamed` — assembly and the binary form of a renamed text.
-/

namespace Source

/-! ### Names that a text mentions -/

/-- The name of a symbol. -/
def Symbol.name : Symbol → String
  | .constant name | .subroutine name | .label _ name => name

/-- The symbol that an operand refers to. A label belongs to the subroutine around the operand. -/
def Operand.symbol? (scope : Nat) : Operand → Option Symbol
  | .constant name => some (.constant name)
  | .subroutine name => some (.subroutine name)
  | .label name => some (.label scope name)
  | .literal _ | .register _ => none

/-- The symbols that a line declares or refers to. -/
def Place.mentioned (q : Place) : List Symbol :=
  q.symbol?.toList ++ q.line.operands.filterMap fun token =>
    (Operand.ofChars? token.toList).bind (Operand.symbol? q.scope)

/-- The symbols that a text declares or refers to. -/
def mentioned (text : List Line) : List Symbol :=
  (places text).flatMap Place.mentioned

/-! ### Renamed texts -/

/-- The tokens that a statement is read from. -/
def Statement.tokens : Statement → List String
  | .constant name value => [name, "=", value]
  | .subroutine name => [name ++ ":"]
  | .label name => ["&" ++ name]
  | .instruction mnemonic tokens => mnemonic :: tokens

/-- New names for symbols. Each subroutine has its own for labels. -/
structure Renaming where
  constant : String → String
  subroutine : String → String
  label : Nat → String → String

namespace Renaming

/-- A symbol under its new name. -/
def symbol (r : Renaming) : Symbol → Symbol
  | .constant name => .constant (r.constant name)
  | .subroutine name => .subroutine (r.subroutine name)
  | .label scope name => .label scope (r.label scope name)

/-- An operand in a subroutine under new names. -/
def operand (r : Renaming) (scope : Nat) : Operand → Operand
  | .constant name => .constant (r.constant name)
  | .subroutine name => .subroutine (r.subroutine name)
  | .label name => .label (r.label scope name)
  | .literal w => .literal w
  | .register register => .register register

/-- An operand token in a subroutine under new names. What refers to no symbol stays as it is. -/
def token (r : Renaming) (scope : Nat) (token : String) : String :=
  match Operand.ofChars? token.toList with
  | some (.constant name) => "[" ++ r.constant name ++ "]"
  | some (.subroutine name) => "\x7b" ++ r.subroutine name ++ "\x7d"
  | some (.label name) => "&" ++ r.label scope name
  | _ => token

/-- A statement in a subroutine under new names. -/
def statement (r : Renaming) (scope : Nat) : Statement → Statement
  | .constant name value => .constant (r.constant name) value
  | .subroutine name => .subroutine (r.subroutine name)
  | .label name => .label (r.label scope name)
  | .instruction mnemonic tokens => .instruction mnemonic (tokens.map (r.token scope))

/-- A line under new names. What is no statement stays as it is. -/
def line (r : Renaming) (q : Place) : Line :=
  match Statement.ofLine q.line with
  | .ok statement => ⟨q.line.number, (r.statement q.scope statement).tokens⟩
  | .error _ => q.line

/-- A text under new names. -/
def text (r : Renaming) (text : List Line) : List Line :=
  (places text).map r.line

/-- A place of a text, in the text under new names. -/
def place (r : Renaming) (q : Place) : Place :=
  ⟨r.text q.above, r.line q⟩

/-- Names are given out consistently: they are symbol names, no two symbols that a text mentions
share a name in one namespace, and `main` is fixed, so it is the new name of `main` alone. -/
structure Consistent (r : Renaming) (text : List Line) : Prop where
  named : ∀ s ∈ mentioned text, name? (r.symbol s).name.toList = some (r.symbol s).name
  injective : ∀ s ∈ mentioned text, ∀ t ∈ mentioned text, r.symbol s = r.symbol t → s = t
  main : ∀ s ∈ mentioned text, r.symbol s = .subroutine mainName ↔ s = .subroutine mainName

end Renaming

/-! ### Mentioned symbols -/

section Mentioned

variable {text : List Line} {q : Place} {symbol : Symbol}

theorem mem_mentioned_of_place (hq : q ∈ places text) (h : symbol ∈ q.mentioned) :
    symbol ∈ mentioned text :=
  List.mem_flatMap.2 ⟨q, hq, h⟩

theorem mem_mentioned_above (hq : q ∈ places text) (h : symbol ∈ mentioned q.above) :
    symbol ∈ mentioned text := by
  obtain ⟨below, rfl⟩ := mem_places.1 hq
  rw [mentioned, places_append, List.flatMap_append]
  exact List.mem_append_left _ h

theorem Place.mem_mentioned_of_symbol? (h : q.symbol? = some symbol) : symbol ∈ q.mentioned := by
  rw [Place.mentioned, h]
  exact List.mem_cons_self

theorem mem_mentioned_of_mem_symbols (h : symbol ∈ symbols text) : symbol ∈ mentioned text := by
  obtain ⟨q, hq, hsymbol⟩ := List.mem_filterMap.1 h
  exact mem_mentioned_of_place hq (Place.mem_mentioned_of_symbol? hsymbol)

/-- The subroutines that a text opens are among the symbols it declares. -/
theorem mem_symbols_of_mem_headNames {name : String} (h : name ∈ headNames text) :
    .subroutine name ∈ symbols text := by
  rw [← map_line_places text, headNames, List.filterMap_map, List.mem_filterMap] at h
  obtain ⟨q, hq, hname⟩ := h
  refine List.mem_filterMap.2 ⟨q, hq, Place.symbol?_subroutine ?_⟩
  simp only [Function.comp_apply, Line.headName?] at hname
  split at hname
  · next kind => rw [kind, Option.some.inj hname]
  · cases hname

/-- What an operand of an instruction refers to is mentioned. -/
theorem Place.mem_mentioned_of_operand {mnemonic : String} {tokens : List String}
    (kind : Statement.ofLine q.line = .ok (.instruction mnemonic tokens)) {token : String}
    (htoken : token ∈ tokens) {operand : Operand}
    (hchars : Operand.ofChars? token.toList = some operand)
    (hsymbol : operand.symbol? q.scope = some symbol) : symbol ∈ q.mentioned := by
  have hoperands : q.line.operands = tokens := by simp only [Line.operands, kind]
  rw [Place.mentioned, hoperands]
  refine List.mem_append_right _ (List.mem_filterMap.2 ⟨token, htoken, ?_⟩)
  rw [hchars, Option.bind_some, hsymbol]

end Mentioned

/-! ### Names as characters -/

theorem name?_eq_some {cs : List Char} {name : String} (h : name? cs = some name) :
    cs ≠ [] ∧ ∀ c ∈ cs, isSymbolChar c = true :=
  (name?_eq_some_iff.1 h).1

section Named

variable {number : Nat} {name : String} (named : name? name.toList = some name)

include named

theorem ofLine_constant (value : String) :
    Statement.ofLine ⟨number, [name, "=", value]⟩ = .ok (.constant name value) := by
  simp only [Statement.ofLine, parseName, named, if_true]
  rfl

/-- A head is read as the name in front of its colon. -/
theorem ofLine_head : Statement.ofLine ⟨number, [name ++ ":"]⟩ = .ok (.subroutine name) := by
  have hpos := List.length_pos_iff.2 (name?_eq_some named).1
  have hchars : (name ++ ":").toList = name.toList ++ [':'] := String.toList_append
  have hhead : (name ++ ":").toList.length > 1 ∧ (name ++ ":").toList.getLast? = some ':' := by
    rw [hchars, List.length_append, List.getLast?_concat, List.length_singleton]
    exact ⟨by omega, rfl⟩
  simp only [Statement.ofLine, Statement.ofToken, if_pos hhead]
  rw [hchars, List.dropLast_concat, parseName, String.toList_ofList, named]
  rfl

/-- A label is read as the name behind its ampersand. -/
theorem ofLine_label : Statement.ofLine ⟨number, ["&" ++ name]⟩ = .ok (.label name) := by
  have hchars : ("&" ++ name).toList = '&' :: name.toList := String.toList_append
  -- A colon is no character of names, so the line is no head.
  have hhead : ¬(("&" ++ name).toList.length > 1 ∧ ("&" ++ name).toList.getLast? = some ':') := by
    rintro ⟨-, hlast⟩
    have hmem := List.mem_of_getLast? hlast
    rw [hchars, List.mem_cons] at hmem
    rcases hmem with heq | hmem
    · cases heq
    · have hcolon := (name?_eq_some named).2 ':' hmem
      cases hcolon
  have hlabel : ("&" ++ name).toList.head? = some '&' := by
    rw [hchars]
    rfl
  simp only [Statement.ofLine, Statement.ofToken, if_neg hhead, if_pos hlabel]
  rw [hchars, List.tail_cons, parseName, String.toList_ofList, named]
  rfl

theorem ofChars?_label : Operand.ofChars? ("&" ++ name).toList = some (.label name) := by
  have hchars : ("&" ++ name).toList = '&' :: name.toList := String.toList_append
  rw [hchars]
  simp only [Operand.ofChars?, named, Option.map_some]

theorem ofChars?_constant :
    Operand.ofChars? ("[" ++ name ++ "]").toList = some (.constant name) := by
  have hchars : ("[" ++ name ++ "]").toList = '[' :: (name.toList ++ [']']) := by
    rw [String.toList_append, String.toList_append]
    rfl
  rw [hchars]
  simp only [Operand.ofChars?, Operand.enclosed?, List.getLast?_concat, List.dropLast_concat,
    if_true, named, Option.map_some]

theorem ofChars?_subroutine :
    Operand.ofChars? ("\x7b" ++ name ++ "\x7d").toList = some (.subroutine name) := by
  have hchars : ("\x7b" ++ name ++ "\x7d").toList = '\x7b' :: (name.toList ++ ['\x7d']) := by
    rw [String.toList_append, String.toList_append]
    rfl
  rw [hchars]
  simp only [Operand.ofChars?, Operand.enclosed?, List.getLast?_concat, List.dropLast_concat,
    if_true, named, Option.map_some]

end Named

/-! ### Renamed lines -/

namespace Renaming

/-- A renamed token is read as the renamed operand. -/
theorem ofChars?_token {r : Renaming} {scope : Nat} {token : String}
    (named : ∀ operand s, Operand.ofChars? token.toList = some operand →
      operand.symbol? scope = some s → name? (r.symbol s).name.toList = some (r.symbol s).name) :
    Operand.ofChars? (r.token scope token).toList =
      (Operand.ofChars? token.toList).map (r.operand scope) := by
  cases hchars : Operand.ofChars? token.toList with
  | none => simp only [Renaming.token, hchars, Option.map_none]
  | some operand =>
    cases operand with
    | literal w => simp only [Renaming.token, hchars, Option.map_some, Renaming.operand]
    | register register => simp only [Renaming.token, hchars, Option.map_some, Renaming.operand]
    | constant name =>
      simp only [Renaming.token, hchars]
      exact ofChars?_constant (named (.constant name) (.constant name) hchars rfl)
    | subroutine name =>
      simp only [Renaming.token, hchars]
      exact ofChars?_subroutine (named (.subroutine name) (.subroutine name) hchars rfl)
    | label name =>
      simp only [Renaming.token, hchars]
      exact ofChars?_label (named (.label name) (.label scope name) hchars rfl)

/-- No renamed token makes an instruction a declaration. -/
theorem token_ne_equals {r : Renaming} {scope : Nat} {token : String} (h : token ≠ "=") :
    r.token scope token ≠ "=" := by
  unfold Renaming.token
  split
  case h_4 => exact h
  -- A reference to a symbol starts with another character.
  all_goals
    intro heq
    have hfront := congrArg (fun t => t.toList.head?) heq
    simp [String.toList_append] at hfront

theorem number_line (r : Renaming) (q : Place) : (r.line q).number = q.line.number := by
  unfold Renaming.line
  split <;> rfl

theorem text_concat (r : Renaming) (lines : List Line) (l : Line) :
    r.text (lines ++ [l]) = r.text lines ++ [r.line ⟨lines, l⟩] := by
  rw [Renaming.text, places_concat, List.map_append]
  rfl

/-- The places of a renamed text are those of the text. -/
theorem places_text (r : Renaming) (lines : List Line) :
    places (r.text lines) = (places lines).map r.place := by
  induction lines using List.reverseRecOn with
  | nil => rfl
  | append_singleton lines l ih =>
    rw [text_concat, places_concat, places_concat, List.map_append, ih]
    rfl

namespace Consistent

variable {r : Renaming} {text : List Line} {q : Place} (h : r.Consistent text)

include h

/-- Names given out consistently in a text are so in the lines above one of its lines. -/
theorem above (hq : q ∈ places text) : r.Consistent q.above where
  named s hs := h.named s (mem_mentioned_above hq hs)
  injective s hs t ht := h.injective s (mem_mentioned_above hq hs) t (mem_mentioned_above hq ht)
  main s hs := h.main s (mem_mentioned_above hq hs)

/-- What an operand of a line refers to is under its new name what the renamed token refers to. -/
theorem ofChars?_token (hq : q ∈ places text) {mnemonic : String} {tokens : List String}
    (kind : Statement.ofLine q.line = .ok (.instruction mnemonic tokens)) {token : String}
    (htoken : token ∈ tokens) :
    Operand.ofChars? (r.token q.scope token).toList =
      (Operand.ofChars? token.toList).map (r.operand q.scope) := by
  refine Renaming.ofChars?_token ?_
  intro operand s hchars hsymbol
  have hmentioned := q.mem_mentioned_of_operand kind htoken hchars hsymbol
  exact h.named s (mem_mentioned_of_place hq hmentioned)

/-- A renamed line says the same under new names. -/
theorem ofLine_line (hq : q ∈ places text) :
    Statement.ofLine (r.line q) = (Statement.ofLine q.line).map (r.statement q.scope) := by
  have declared (s : Symbol) (hs : q.symbol? = some s) :
      name? (r.symbol s).name.toList = some (r.symbol s).name :=
    h.named s (mem_mentioned_of_place hq (Place.mem_mentioned_of_symbol? hs))
  cases kind : Statement.ofLine q.line with
  | error e =>
    simp only [Renaming.line, kind]
    rfl
  | ok statement =>
    simp only [Renaming.line, kind]
    cases statement with
    | constant name value =>
      exact ofLine_constant (declared (.constant name) (Place.symbol?_constant kind)) value
    | subroutine name =>
      exact ofLine_head (declared (.subroutine name) (Place.symbol?_subroutine kind))
    | label name => exact ofLine_label (declared (.label q.scope name) (Place.symbol?_label kind))
    | instruction mnemonic tokens =>
      refine ofLine_of_tokens kind (List.length_map _).symm ?_
      intro hequals
      rw [List.head?_map, Option.map_eq_some_iff] at hequals
      obtain ⟨token, hhead, heq⟩ := hequals
      refine token_ne_equals ?_ heq
      rintro rfl
      exact (tokens_of_ofLine kind).2 hhead

theorem headName?_line (hq : q ∈ places text) :
    (r.line q).headName? = q.line.headName?.map r.subroutine := by
  simp only [Line.headName?, h.ofLine_line hq]
  cases Statement.ofLine q.line with
  | error e => rfl
  | ok statement => cases statement <;> rfl

theorem isInstruction_line (hq : q ∈ places text) :
    (r.line q).isInstruction = q.line.isInstruction := by
  simp only [Line.isInstruction, h.ofLine_line hq]
  cases Statement.ofLine q.line with
  | error e => rfl
  | ok statement => cases statement <;> rfl

theorem size_line (hq : q ∈ places text) : (r.line q).size = q.line.size := by
  have hnumber := r.number_line q
  simp only [Line.size, Line.valueWords, h.ofLine_line hq, hnumber]
  cases Statement.ofLine q.line with
  | error e => rfl
  | ok statement => cases statement <;> rfl

/-! ### What renamed lines add up to -/

theorem headNames_text : headNames (r.text text) = (headNames text).map r.subroutine := by
  conv_rhs => rw [← map_line_places text]
  rw [headNames, headNames, Renaming.text, List.filterMap_map, List.filterMap_map,
    List.map_filterMap]
  exact List.filterMap_congr fun q hq => h.headName?_line hq

theorem wordCount_text : wordCount (r.text text) = wordCount text := by
  conv_rhs => rw [← map_line_places text]
  rw [wordCount, wordCount, Renaming.text, List.map_map, List.map_map]
  exact congrArg List.sum (List.map_congr_left fun q hq => h.size_line hq)

/-! ### Renamed places -/

theorem start_place (hq : q ∈ places text) (base : Word) :
    (r.place q).start base = q.start base := by
  rw [Place.start, Place.start, Renaming.place, (h.above hq).wordCount_text]

theorem address_place (hq : q ∈ places text) (base : Word) :
    (r.place q).address base = q.address base := by
  rw [Place.address, Place.address, h.start_place hq]

theorem scope_place (hq : q ∈ places text) : (r.place q).scope = q.scope := by
  rw [Place.scope, Place.scope, Renaming.place, (h.above hq).headNames_text, List.length_map]

theorem symbol?_place (hq : q ∈ places text) : (r.place q).symbol? = q.symbol?.map r.symbol := by
  have hscope := h.scope_place hq
  simp only [Place.symbol?, hscope]
  simp only [Renaming.place, h.ofLine_line hq]
  cases Statement.ofLine q.line with
  | error e => rfl
  | ok statement => cases statement <;> rfl

/-! ### Symbols under new names -/

theorem symbols_text : symbols (r.text text) = (symbols text).map r.symbol := by
  rw [symbols, symbols, places_text, List.filterMap_map, List.map_filterMap]
  exact List.filterMap_congr fun q hq => h.symbol?_place hq

/-- Of mentioned symbols, one is found exactly if it is under its new name. -/
theorem mem_map_symbol_iff {ss : List Symbol} (hss : ∀ s ∈ ss, s ∈ mentioned text) {s : Symbol}
    (hs : s ∈ mentioned text) : r.symbol s ∈ ss.map r.symbol ↔ s ∈ ss := by
  rw [List.mem_map]
  constructor
  · rintro ⟨t, ht, heq⟩
    rw [← h.injective t (hss t ht) s hs heq]
    exact ht
  · intro hmem
    exact ⟨s, hmem, rfl⟩

theorem declarations_text (base : Word) :
    declarations base (r.text text) =
      (declarations base text).map fun entry => (r.symbol entry.1, entry.2) := by
  rw [declarations, declarations, places_text, List.filterMap_map, List.map_filterMap]
  refine List.filterMap_congr fun q hq => ?_
  show (r.place q).declaration? base = _
  rw [Place.declaration?, Place.declaration?, h.symbol?_place hq, h.address_place hq,
    Option.map_map, Option.map_map]
  rfl

/-- Every symbol stands where it did. -/
theorem address?_text (base : Word) {s : Symbol} (hs : s ∈ mentioned text) :
    address? base (r.text text) (r.symbol s) = address? base text s := by
  rw [address?, address?, h.declarations_text]
  apply lookup_map_of_injOn
  intro t ht heq
  rw [map_fst_declarations] at ht
  exact h.injective t (mem_mentioned_of_mem_symbols ht) s hs heq

theorem nodup_symbols_text_iff : (symbols (r.text text)).Nodup ↔ (symbols text).Nodup := by
  rw [h.symbols_text]
  constructor
  · exact List.Nodup.of_map r.symbol
  · intro hnodup
    refine hnodup.map_on ?_
    intro s hs t ht heq
    exact h.injective s (mem_mentioned_of_mem_symbols hs) t (mem_mentioned_of_mem_symbols ht) heq

/-! ### Subroutines under new names -/

theorem heads_text : heads (r.text text) = (heads text).map r.place := by
  rw [heads, heads, places_text, List.filter_map]
  congr 1
  refine List.filter_congr fun q hq => ?_
  show (r.line q).headName?.isSome = q.line.headName?.isSome
  rw [h.headName?_line hq, Option.isSome_map]

theorem body_text (scope : Nat) : body (r.text text) scope = (body text scope).map r.place := by
  rw [body, body, places_text, List.filter_map]
  congr 1
  refine List.filter_congr fun q hq => ?_
  show ((r.line q).isInstruction && (r.place q).scope == scope) = _
  rw [h.isInstruction_line hq, h.scope_place hq]

/-! ### Well-formed texts under new names -/

/-- An operand has a meaning exactly if it has one under its new name. -/
theorem knows_place_iff (hq : q ∈ places text) {operand : Operand}
    (hoperand : ∀ s, operand.symbol? q.scope = some s → s ∈ mentioned text) :
    (r.place q).Knows (r.text text) (r.operand q.scope operand) ↔ q.Knows text operand := by
  have hsymbols : ∀ s ∈ symbols text, s ∈ mentioned text := fun s => mem_mentioned_of_mem_symbols
  have habove : ∀ s ∈ symbols q.above, s ∈ mentioned text := fun s hs =>
    mem_mentioned_above hq (mem_mentioned_of_mem_symbols hs)
  cases operand with
  | literal w => exact Iff.rfl
  | register register => exact Iff.rfl
  | constant name =>
    rw [Renaming.operand, Place.Knows, Place.Knows, h.symbols_text]
    exact h.mem_map_symbol_iff hsymbols (hoperand _ rfl)
  | subroutine name =>
    show .subroutine (r.subroutine name) ∈ symbols (r.text q.above) ↔ _
    rw [Place.Knows, (h.above hq).symbols_text]
    exact h.mem_map_symbol_iff habove (hoperand _ rfl)
  | label name =>
    rw [Renaming.operand, Place.Knows, Place.Knows, h.symbols_text, h.scope_place hq]
    exact h.mem_map_symbol_iff hsymbols (hoperand _ rfl)

/-- The operand tokens of a line have a meaning exactly if they have one under new names. -/
theorem operands_place_iff (hq : q ∈ places text) {mnemonic : String} {tokens : List String}
    (kind : Statement.ofLine q.line = .ok (.instruction mnemonic tokens)) :
    (∀ token ∈ tokens.map (r.token q.scope), ∃ operand,
        Operand.ofChars? token.toList = some operand ∧ (r.place q).Knows (r.text text) operand) ↔
      ∀ token ∈ tokens, ∃ operand,
        Operand.ofChars? token.toList = some operand ∧ q.Knows text operand := by
  rw [List.forall_mem_map]
  refine forall₂_congr fun token htoken => ?_
  have hoperand : ∀ operand, Operand.ofChars? token.toList = some operand →
      ((r.place q).Knows (r.text text) (r.operand q.scope operand) ↔ q.Knows text operand) := by
    intro operand hchars
    refine h.knows_place_iff hq fun s hs => mem_mentioned_of_place hq ?_
    exact q.mem_mentioned_of_operand kind htoken hchars hs
  rw [h.ofChars?_token hq kind htoken]
  cases hchars : Operand.ofChars? token.toList with
  | none => simp
  | some operand => simp [hoperand operand hchars]

/-- A line that is allowed where it stands is allowed under new names. -/
theorem allowed_place (hq : q ∈ places text) {base : Word}
    (hallowed : q.Allowed base (q.Knows text)) :
    (r.place q).Allowed base ((r.place q).Knows (r.text text)) := by
  have hline : Statement.ofLine (r.place q).line = _ := h.ofLine_line hq
  have hnumber : (r.place q).line.number = q.line.number := r.number_line q
  have hscope := h.scope_place hq
  have hstart := h.start_place hq base
  cases hallowed with
  | constant kind first spells room =>
    rw [kind] at hline
    rw [← hscope] at first
    rw [← hnumber] at spells
    rw [← hstart] at room
    exact .constant hline first spells room
  | subroutine kind room =>
    rw [kind] at hline
    rw [← hstart] at room
    exact .subroutine hline room
  | label kind inside room =>
    rw [kind] at hline
    rw [← hscope] at inside
    rw [← hstart] at room
    exact .label hline inside room
  | instruction kind inside known count operands room =>
    rw [kind] at hline
    rw [← hscope] at inside
    rw [← hstart] at room
    refine .instruction hline inside known ?_ ((h.operands_place_iff hq kind).2 operands) room
    rw [List.length_map]
    exact count

/-- The kind of a renamed line is the kind of the line. -/
theorem exists_statement_of_line (hq : q ∈ places text) {statement : Statement}
    (kind : Statement.ofLine (r.line q) = .ok statement) :
    ∃ old, Statement.ofLine q.line = .ok old ∧ r.statement q.scope old = statement := by
  rw [h.ofLine_line hq, map_eq_ok_iff] at kind
  exact kind

/-- So only such a line is. -/
theorem allowed_of_place (hq : q ∈ places text) {base : Word}
    (hallowed : (r.place q).Allowed base ((r.place q).Knows (r.text text))) :
    q.Allowed base (q.Knows text) := by
  have hnumber : (r.place q).line.number = q.line.number := r.number_line q
  have hscope := h.scope_place hq
  have hstart := h.start_place hq base
  cases hallowed with
  | constant renamed first spells room =>
    rw [hscope] at first
    rw [hnumber] at spells
    rw [hstart] at room
    obtain ⟨old, kind, heq⟩ := h.exists_statement_of_line hq renamed
    cases old <;> cases heq
    exact .constant kind first spells room
  | subroutine renamed room =>
    rw [hstart] at room
    obtain ⟨old, kind, heq⟩ := h.exists_statement_of_line hq renamed
    cases old <;> cases heq
    exact .subroutine kind room
  | label renamed inside room =>
    rw [hscope] at inside
    rw [hstart] at room
    obtain ⟨old, kind, heq⟩ := h.exists_statement_of_line hq renamed
    cases old <;> cases heq
    exact .label kind inside room
  | instruction renamed inside known count operands room =>
    rw [hscope] at inside
    rw [hstart] at room
    obtain ⟨old, kind, heq⟩ := h.exists_statement_of_line hq renamed
    cases old <;> cases heq
    rw [List.length_map] at count
    exact .instruction kind inside known count ((h.operands_place_iff hq kind).1 operands) room

/-- The name of a subroutine becomes `main` only if it is. -/
theorem subroutine_eq_main_iff {name : String} (hname : name ∈ headNames text) :
    r.subroutine name = mainName ↔ name = mainName := by
  have hmentioned := mem_mentioned_of_mem_symbols (mem_symbols_of_mem_headNames hname)
  have hmain := h.main _ hmentioned
  rw [Renaming.symbol, Symbol.subroutine.injEq, Symbol.subroutine.injEq] at hmain
  exact hmain

/-- The last subroutine is `main` exactly if it is under its new name. -/
theorem main_text_iff :
    (headNames (r.text text)).getLast? = some mainName ↔
      (headNames text).getLast? = some mainName := by
  rw [h.headNames_text, List.getLast?_map]
  cases hlast : (headNames text).getLast? with
  | none => simp
  | some name =>
    rw [Option.map_some, Option.some.injEq, Option.some.injEq]
    exact h.subroutine_eq_main_iff (List.mem_of_getLast? hlast)

theorem wellFormed_text_iff (base : Word) :
    WellFormed base (r.text text) ↔ WellFormed base text := by
  have hallowed : (∀ q ∈ places (r.text text), q.Allowed base (q.Knows (r.text text))) ↔
      ∀ q ∈ places text, q.Allowed base (q.Knows text) := by
    rw [places_text, List.forall_mem_map]
    exact forall₂_congr fun q hq => ⟨h.allowed_of_place hq, h.allowed_place hq⟩
  constructor
  · rintro ⟨allowed, distinct, main⟩
    exact ⟨hallowed.1 allowed, h.nodup_symbols_text_iff.1 distinct, h.main_text_iff.1 main⟩
  · rintro ⟨allowed, distinct, main⟩
    exact ⟨hallowed.2 allowed, h.nodup_symbols_text_iff.2 distinct, h.main_text_iff.2 main⟩

end Consistent

end Renaming

end Source

/-! ### Programs under new names -/

/-- A program under new names. -/
def Program.renamed (p : Program) (r : Renaming) : Program where
  constants := p.constants.map fun c => { c with name? := c.name?.map r.constant }
  subroutines := p.subroutines.map fun s => { s with name? := s.name?.map r.subroutine }
  entry := p.entry

/-- Without names, it is what it was. -/
theorem Program.withoutSymbols_renamed (p : Program) (r : Renaming) :
    (p.renamed r).withoutSymbols = p.withoutSymbols := by
  have hsubroutines : onlyMainNamed (p.renamed r).subroutines = onlyMainNamed p.subroutines :=
    Binary.onlyMainNamed_map (f := fun s => { s with name? := s.name?.map r.subroutine })
      (fun _ _ => rfl) p.subroutines
  rw [withoutSymbols, withoutSymbols, hsubroutines, renamed, List.map_map]
  rfl

theorem Assembly.constantsOf_rename (f : String → String) (name : String) (a : Word)
    (ws : List Word) :
    constantsOf (f name) a ws =
      (constantsOf name a ws).map fun c => { c with name? := c.name?.map f } := by
  rw [constantsOf, constantsOf]
  cases placed a ws with
  | nil => rfl
  | cons cell rest =>
    simp only [List.map_cons, List.map_map]
    rfl

namespace Source.Renaming.Consistent

variable {base : Word} {r : Renaming} {text : List Line} {q : Place} (h : r.Consistent text)

include h

theorem constants_place (hq : q ∈ places text) :
    (r.place q).constants base =
      (q.constants base).map fun c => { c with name? := c.name?.map r.constant } := by
  have hline : Statement.ofLine (r.place q).line = _ := h.ofLine_line hq
  have hnumber : (r.place q).line.number = q.line.number := r.number_line q
  have haddress := h.address_place hq base
  simp only [Place.constants, hline, haddress, Line.valueWords, hnumber]
  cases Statement.ofLine q.line with
  | error e => rfl
  | ok statement =>
    cases statement with
    | constant name value => exact Assembly.constantsOf_rename r.constant name _ _
    | _ => rfl

/-- An operand has the same value under its new name. -/
theorem operandValue?_place (hq : q ∈ places text) {operand : Operand}
    (hoperand : ∀ s, operand.symbol? q.scope = some s → s ∈ mentioned text) :
    (r.place q).operandValue? base (r.text text) (r.operand q.scope operand) =
      q.operandValue? base text operand := by
  cases operand with
  | literal w => rfl
  | register register => rfl
  | constant name => exact h.address?_text base (hoperand _ rfl)
  | subroutine name => exact h.address?_text base (hoperand _ rfl)
  | label name =>
    rw [Renaming.operand, Place.operandValue?, Place.operandValue?, h.scope_place hq]
    exact h.address?_text base (hoperand _ rfl)

/-- So a line spells the same instruction. -/
theorem spells_place (hq : q ∈ places text) {i : Instruction} (hi : q.Spells base text i) :
    (r.place q).Spells base (r.text text) i := by
  obtain ⟨tokens, kind, hvalues⟩ := hi
  have hline : Statement.ofLine (r.place q).line = _ := h.ofLine_line hq
  rw [kind] at hline
  refine ⟨tokens.map (r.token q.scope), hline, ?_⟩
  rw [List.forall₂_map_left_iff]
  refine ((List.forall₂_and_left _ _).2 ⟨fun token htoken => htoken, hvalues⟩).imp ?_
  rintro token w ⟨htoken, hvalue⟩
  obtain ⟨operand, hchars, hvalue⟩ := Option.bind_eq_some_iff.1 hvalue
  rw [Place.value?, h.ofChars?_token hq kind htoken, hchars, Option.map_some, Option.bind_some,
    h.operandValue?_place hq, hvalue]
  intro s hs
  exact mem_mentioned_of_place hq (q.mem_mentioned_of_operand kind htoken hchars hs)

/-- A head opens the same subroutine, under its new name. -/
theorem opens_place (hq : q ∈ places text) {s : Subroutine} (hs : q.Opens base text s) :
    (r.place q).Opens base (r.text text) { s with name? := s.name?.map r.subroutine } where
  name?_eq := by
    show s.name?.map r.subroutine = (r.line q).headName?
    rw [h.headName?_line hq, hs.name?_eq]
  address_eq := by
    rw [h.address_place hq]
    exact hs.address_eq
  instructions := by
    rw [h.scope_place hq, h.body_text, List.forall₂_map_left_iff]
    have hplaces : ∀ t ∈ body text (q.scope + 1), t ∈ places text := fun t ht => (mem_body.1 ht).1
    refine ((List.forall₂_and_left _ _).2 ⟨hplaces, hs.instructions⟩).imp ?_
    rintro t i ⟨ht, hi⟩
    exact h.spells_place ht hi

/-- A renamed text spells the renamed program. -/
theorem spells_text {p : Program} (hmain : mainName ∈ headNames text) (hp : Spells base text p) :
    Spells base (r.text text) (p.renamed r) where
  constants := by
    rw [places_text, List.flatMap_map, Program.renamed, hp.constants, List.map_flatMap,
      List.flatMap_def, List.flatMap_def]
    exact congrArg List.flatten (List.map_congr_left fun q hq => (h.constants_place hq).symm)
  subroutines := by
    rw [h.heads_text, Program.renamed, List.forall₂_map_left_iff, List.forall₂_map_right_iff]
    have hplaces : ∀ q ∈ heads text, q ∈ places text := fun q hq => List.mem_of_mem_filter hq
    refine ((List.forall₂_and_left _ _).2 ⟨hplaces, hp.subroutines⟩).imp ?_
    rintro q s ⟨hq, hs⟩
    exact h.opens_place hq hs
  main := by
    obtain ⟨last, hlast, hname, hentry⟩ := hp.main
    refine ⟨{ last with name? := last.name?.map r.subroutine }, ?_, ?_, hentry⟩
    · rw [Program.main?, Program.renamed, List.getLast?_map]
      exact congrArg _ hlast
    · rw [hname, Option.map_some, (h.subroutine_eq_main_iff hmain).2 rfl]

end Source.Renaming.Consistent

/-! ### Assembly of renamed texts -/

section Assembled

variable {base : Word} {r : Renaming} {text : List Line} {p : Program}

theorem assemble_text (h : r.Consistent text) (hp : assemble text base = .ok p) :
    assemble (r.text text) base = .ok (p.renamed r) := by
  have wf : WellFormed base text := exists_assemble_iff.1 ⟨p, hp⟩
  -- The renamed text is assembled to something, and it spells one program only.
  obtain ⟨q, hq⟩ := exists_assemble_iff.2 ((h.wellFormed_text_iff base).2 wf)
  obtain ⟨allowed, distinct, -⟩ := assemble_eq_ok_iff.1 hq
  obtain ⟨-, -, hspells⟩ := assemble_eq_ok_iff.1 hp
  exact assemble_eq_ok_iff.2
    ⟨allowed, distinct, h.spells_text (List.mem_of_getLast? wf.main) hspells⟩

/-- Programs that are the same without names have the same bytes. -/
theorem encode_eq_of_withoutSymbols_eq {text' : List Line} {q : Program}
    (hp : assemble text base = .ok p) (hq : assemble text' base = .ok q)
    (same : q.withoutSymbols = p.withoutSymbols) :
    ∃ bytes, Binary.encode p = .ok bytes ∧ Binary.encode q = .ok bytes := by
  obtain ⟨bytes, hbytes, hdecode⟩ := decode_encode_of_assemble hp
  obtain ⟨bytes', hbytes', hdecode'⟩ := decode_encode_of_assemble hq
  -- What is read back is read from no other bytes.
  have heq : bytes = bytes' := by
    rw [same] at hdecode'
    rw [(Binary.decode_eq_ok_iff.1 hdecode).2, (Binary.decode_eq_ok_iff.1 hdecode').2]
  exact ⟨bytes, hbytes, heq ▸ hbytes'⟩

/-- **Renaming.** A text under other names, given out consistently, assembles exactly if the text
does. Its program is that of the text under the same names, and the binary forms of the two are the
same, byte for byte. -/
theorem assemble_renamed (base : Word) (h : r.Consistent text) :
    ((∃ q, assemble (r.text text) base = .ok q) ↔ ∃ p, assemble text base = .ok p) ∧
      ∀ p q, assemble text base = .ok p → assemble (r.text text) base = .ok q →
        q = p.renamed r ∧ ∃ bytes, Binary.encode p = .ok bytes ∧ Binary.encode q = .ok bytes := by
  constructor
  · rw [exists_assemble_iff, exists_assemble_iff]
    exact h.wellFormed_text_iff base
  · intro p q hp hq
    have hrenamed : q = p.renamed r := Except.ok.inj (hq.symm.trans (assemble_text h hp))
    refine ⟨hrenamed, encode_eq_of_withoutSymbols_eq hp hq ?_⟩
    rw [hrenamed, Program.withoutSymbols_renamed]

/-- A constant, a subroutine and labels of two subroutines that share a name. -/
def namesakes : List Line :=
  [⟨1, ["x", "=", "7"]⟩,
    ⟨2, ["x:"]⟩, ⟨3, ["gto", "&x"]⟩, ⟨4, ["&x"]⟩, ⟨5, ["ret"]⟩,
    ⟨6, ["main:"]⟩, ⟨7, ["cop", "[x]", "aa"]⟩, ⟨8, ["cal", "\x7bx\x7d"]⟩, ⟨9, ["gto", "&x"]⟩,
    ⟨10, ["&x"]⟩, ⟨11, ["ret"]⟩]

/-- Other names for them, some of which are shared too. -/
def otherNames : Renaming where
  constant _ := "main"
  subroutine name := if name = "x" then "f.1" else name
  label scope _ := if scope = 1 then "f.1" else "main"

theorem assemble_renamed_namesakes :
    otherNames.text namesakes =
        [⟨1, ["main", "=", "7"]⟩,
          ⟨2, ["f.1:"]⟩, ⟨3, ["gto", "&f.1"]⟩, ⟨4, ["&f.1"]⟩, ⟨5, ["ret"]⟩,
          ⟨6, ["main:"]⟩, ⟨7, ["cop", "[main]", "aa"]⟩, ⟨8, ["cal", "\x7bf.1\x7d"]⟩,
          ⟨9, ["gto", "&main"]⟩, ⟨10, ["&main"]⟩, ⟨11, ["ret"]⟩] ∧
      ∃ p q bytes, assemble namesakes 0x0900 = .ok p ∧
        assemble (otherNames.text namesakes) 0x0900 = .ok q ∧
        Binary.encode p = .ok bytes ∧ Binary.encode q = .ok bytes := by
  have h : otherNames.Consistent namesakes := by
    constructor
    all_goals decide +kernel
  have hp : assemble namesakes 0x0900 = .ok
      ⟨[⟨some "x", 0x0900, 7⟩],
        [⟨some "x", 0x0901, [⟨.gto, [0x0903]⟩, ⟨.ret, []⟩]⟩,
          ⟨some "main", 0x0904,
            [⟨.cop, [0x0900, 0]⟩, ⟨.cal, [0x0901]⟩, ⟨.gto, [0x090B]⟩, ⟨.ret, []⟩]⟩],
        0x0904⟩ := by decide +kernel
  obtain ⟨hiff, hbytes⟩ := assemble_renamed 0x0900 h
  obtain ⟨q, hq⟩ := hiff.2 ⟨_, hp⟩
  obtain ⟨-, bytes, hp', hq'⟩ := hbytes _ q hp hq
  exact ⟨by decide +kernel, _, q, bytes, hp, hq, hp', hq'⟩

end Assembled

end WordMachine
