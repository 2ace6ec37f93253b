import Mathlib.Algebra.GroupWithZero.Nat
import Mathlib.Data.List.Induction
import WordMachine.Assembly
import WordMachine.Proofs.Sequence

namespace WordMachine.Source

open Sequence

/-!
# A text as a whole

Assembly carries a state from line to line. What a line declares and where it stands can be said
without one, from the lines above it: they tell the words before it and the subroutine around it.

* `Line.size` — the words that a line takes.
* `Place` and `places` — the lines of a text, each with the lines above it.
* `Place.start` and `Place.scope` — the address and the subroutine of a line.
* `Symbol` and `symbols` — the names that a text declares, apart by namespace and scope.
* `address?` — the address of the line that declares a symbol.
* `heads` and `body` — the heads of subroutines, and the instructions of one of them.

`places_append` is what makes these functions follow a text as it grows.
-/

/-! ### Lines -/

namespace Line

/-- The words that the right-hand side of a declaration stands for, none if it has no meaning. -/
def valueWords (l : Line) (value : String) : List Word :=
  (constantWords l.number value).toOption.getD []

/-- The number of words that a line takes. -/
def size (l : Line) : Nat :=
  match Statement.ofLine l with
  | .ok (.constant _ value) => (l.valueWords value).length
  | .ok (.instruction mnemonic _) => (Opcode.ofMnemonic? mnemonic).elim 0 Opcode.size
  | _ => 0

/-- The name of the subroutine that a line opens. -/
def headName? (l : Line) : Option String :=
  match Statement.ofLine l with
  | .ok (.subroutine name) => some name
  | _ => none

/-- Whether a line is an instruction. -/
def isInstruction (l : Line) : Bool :=
  match Statement.ofLine l with
  | .ok (.instruction _ _) => true
  | _ => false

end Line

/-- The number of words that lines take. -/
def wordCount (ls : List Line) : Nat :=
  (ls.map Line.size).sum

/-- The names of the subroutines that lines open. -/
def headNames (ls : List Line) : List String :=
  ls.filterMap Line.headName?

/-! ### Places -/

/-- A line with the lines above it. -/
structure Place where
  above : List Line
  line : Line
  deriving DecidableEq, Repr

/-- The places of lines that stand below others. -/
def placesFrom (above : List Line) : List Line → List Place
  | [] => []
  | l :: ls => ⟨above, l⟩ :: placesFrom (above ++ [l]) ls

/-- The places of all lines of a text. -/
def places (text : List Line) : List Place :=
  placesFrom [] text

theorem placesFrom_append (above ls ms : List Line) :
    placesFrom above (ls ++ ms) = placesFrom above ls ++ placesFrom (above ++ ls) ms := by
  induction ls generalizing above with
  | nil => simp [placesFrom]
  | cons l ls ih => simp [placesFrom, ih]

theorem places_append (ls ms : List Line) : places (ls ++ ms) = places ls ++ placesFrom ls ms :=
  placesFrom_append [] ls ms

theorem places_concat (ls : List Line) (l : Line) : places (ls ++ [l]) = places ls ++ [⟨ls, l⟩] :=
  places_append ls [l]

theorem mem_placesFrom {above ls : List Line} {q : Place} :
    q ∈ placesFrom above ls ↔
      ∃ before below, ls = before ++ q.line :: below ∧ q.above = above ++ before := by
  induction ls generalizing above with
  | nil => simp [placesFrom]
  | cons l ls ih =>
    rw [placesFrom, List.mem_cons, ih]
    constructor
    · rintro (rfl | ⟨before, below, rfl, habove⟩)
      · exact ⟨[], ls, rfl, (List.append_nil above).symm⟩
      · exact ⟨l :: before, below, rfl, by rw [habove, List.append_assoc, List.singleton_append]⟩
    · rintro ⟨before, below, hsplit, habove⟩
      cases before with
      | nil =>
        obtain ⟨rfl, rfl⟩ := List.cons.inj hsplit
        rw [List.append_nil] at habove
        exact .inl (by rw [← habove])
      | cons m before =>
        obtain ⟨rfl, rfl⟩ := List.cons.inj hsplit
        refine .inr ⟨before, below, rfl, ?_⟩
        rw [habove, List.append_assoc, List.singleton_append]

/-- A place splits the text. -/
theorem mem_places {text : List Line} {q : Place} :
    q ∈ places text ↔ ∃ below, text = q.above ++ q.line :: below := by
  rw [places, mem_placesFrom]
  constructor
  · rintro ⟨before, below, hsplit, habove⟩
    rw [List.nil_append] at habove
    exact ⟨below, by rw [habove, hsplit]⟩
  · rintro ⟨below, hsplit⟩
    exact ⟨q.above, below, hsplit, rfl⟩

/-- The places of a text hold its lines. -/
theorem map_line_places (text : List Line) : (places text).map Place.line = text := by
  induction text using List.reverseRecOn with
  | nil => rfl
  | append_singleton text l ih => rw [places_concat, List.map_append, ih, List.map_singleton]

/-- Of two places, the one stands above the other or has all lines above it above itself. -/
theorem mem_places_above_or {text : List Line} {q r : Place} (hq : q ∈ places text)
    (hr : r ∈ places text) : r ∈ places q.above ∨ ∃ lines, r.above = q.above ++ lines := by
  obtain ⟨belowq, rfl⟩ := mem_places.1 hq
  obtain ⟨belowr, heq⟩ := mem_places.1 hr
  rcases List.append_eq_append_iff.1 heq with ⟨lines, habove, -⟩ | ⟨lines, habove, hlines⟩
  · exact .inr ⟨lines, habove⟩
  · cases lines with
    | nil => exact .inr ⟨[], by rw [habove, List.append_nil, List.append_nil]⟩
    | cons l lines =>
      obtain ⟨rfl, -⟩ := List.cons.inj hlines
      exact .inl (mem_places.2 ⟨lines, habove⟩)

/-! ### Symbols -/

/-- A name in its namespace. A label belongs to a subroutine, which is counted from one. -/
inductive Symbol where
  | constant (name : String)
  | subroutine (name : String)
  | label (scope : Nat) (name : String)
  deriving DecidableEq, Repr

namespace Place

/-- The address of the first word that a line takes, or would take. -/
def start (base : Word) (q : Place) : Nat :=
  base.toNat + wordCount q.above

/-- The same as a word. -/
def address (base : Word) (q : Place) : Word :=
  UInt16.ofNat (q.start base)

/-- The number of heads above a line, which tells its subroutine. Above the first head it is
zero. -/
def scope (q : Place) : Nat :=
  (headNames q.above).length

/-- The symbol that a line declares. -/
def symbol? (q : Place) : Option Symbol :=
  match Statement.ofLine q.line with
  | .ok (.constant name _) => some (.constant name)
  | .ok (.subroutine name) => some (.subroutine name)
  | .ok (.label name) => some (.label q.scope name)
  | _ => none

section Kinds

variable {q : Place} {name : String}

theorem symbol?_constant {value : String}
    (kind : Statement.ofLine q.line = .ok (.constant name value)) :
    q.symbol? = some (.constant name) := by
  simp only [symbol?, kind]

theorem symbol?_subroutine (kind : Statement.ofLine q.line = .ok (.subroutine name)) :
    q.symbol? = some (.subroutine name) := by
  simp only [symbol?, kind]

theorem symbol?_label (kind : Statement.ofLine q.line = .ok (.label name)) :
    q.symbol? = some (.label q.scope name) := by
  simp only [symbol?, kind]

theorem symbol?_instruction {mnemonic : String} {tokens : List String}
    (kind : Statement.ofLine q.line = .ok (.instruction mnemonic tokens)) : q.symbol? = none := by
  simp only [symbol?, kind]

end Kinds

/-- The symbol that a line declares, with the address of the line. -/
def declaration? (base : Word) (q : Place) : Option (Symbol × Word) :=
  q.symbol?.map fun symbol => (symbol, q.address base)

end Place

/-- The symbols that a text declares, in its order. -/
def symbols (text : List Line) : List Symbol :=
  (places text).filterMap Place.symbol?

/-- The symbols that a text declares, with their addresses. -/
def declarations (base : Word) (text : List Line) : List (Symbol × Word) :=
  (places text).filterMap (Place.declaration? base)

/-- The address of the first line that declares a symbol. -/
def address? (base : Word) (text : List Line) (symbol : Symbol) : Option Word :=
  (declarations base text).lookup symbol

/-- The heads of subroutines. -/
def heads (text : List Line) : List Place :=
  (places text).filter fun q => q.line.headName?.isSome

/-- The instructions of a subroutine, which is counted from one. -/
def body (text : List Line) (scope : Nat) : List Place :=
  (places text).filter fun q => q.line.isInstruction && q.scope == scope

/-! ### A line at the end -/

section Concat

variable {base : Word} {text : List Line} {l : Line}

theorem wordCount_concat (text : List Line) (l : Line) :
    wordCount (text ++ [l]) = wordCount text + l.size := by
  rw [wordCount, List.map_append, List.sum_append, List.map_singleton, List.sum_singleton]
  rfl

theorem headNames_concat (text : List Line) (l : Line) :
    headNames (text ++ [l]) = headNames text ++ l.headName?.toList := by
  rw [headNames, filterMap_concat, headNames]

theorem symbols_concat (text : List Line) (l : Line) :
    symbols (text ++ [l]) = symbols text ++ (Place.symbol? ⟨text, l⟩).toList := by
  rw [symbols, places_concat, filterMap_concat, symbols]

theorem heads_concat (text : List Line) (l : Line) :
    heads (text ++ [l]) =
      if l.headName?.isSome then heads text ++ [⟨text, l⟩] else heads text := by
  rw [heads, places_concat, List.filter_append, ← heads, List.filter_cons, List.filter_nil]
  split <;> simp

theorem body_concat (text : List Line) (l : Line) (scope : Nat) :
    body (text ++ [l]) scope =
      if l.isInstruction && (headNames text).length == scope then body text scope ++ [⟨text, l⟩]
      else body text scope := by
  rw [body, places_concat, List.filter_append, ← body, List.filter_cons, List.filter_nil,
    Place.scope]
  split <;> simp

/-- A line at the end declares a symbol if no line above it does. -/
theorem address?_concat (base : Word) (text : List Line) (l : Line) (symbol : Symbol) :
    address? base (text ++ [l]) symbol =
      (address? base text symbol).or
        (if Place.symbol? ⟨text, l⟩ = some symbol then some (Place.address base ⟨text, l⟩)
          else none) := by
  rw [address?, declarations, places_concat, filterMap_concat, List.lookup_append,
    Place.declaration?]
  congr 1
  cases Place.symbol? ⟨text, l⟩ with
  | none => rfl
  | some declared =>
    by_cases h : declared = symbol
    · subst h
      simp
    · have hne : (symbol == declared) = false := beq_eq_false_iff_ne.2 (Ne.symm h)
      simp [List.lookup_cons, hne, h]

end Concat

/-! ### Declared symbols -/

section Declared

variable {base : Word} {above text : List Line} {symbol : Symbol}

theorem map_fst_declarations (base : Word) (text : List Line) :
    (declarations base text).map Prod.fst = symbols text := by
  rw [declarations, symbols, List.map_filterMap]
  congr 1
  funext q
  rw [Place.declaration?, Option.map_map]
  exact Option.map_id' ..

theorem address?_eq_none_iff : address? base text symbol = none ↔ symbol ∉ symbols text := by
  rw [address?, List.lookup_eq_none_iff, ← map_fst_declarations base text, List.mem_map]
  constructor
  · rintro h ⟨d, hd, rfl⟩
    exact absurd (h d hd) (by simp)
  · intro h d hd
    rw [bne_iff_ne]
    rintro rfl
    exact h ⟨d, hd, rfl⟩

theorem exists_address?_iff (base : Word) :
    (∃ a, address? base text symbol = some a) ↔ symbol ∈ symbols text := by
  rw [← Option.ne_none_iff_exists', ne_eq, address?_eq_none_iff, Decidable.not_not]

/-- More lines below leave an address as it is. -/
theorem address?_append {a : Word} (h : address? base above symbol = some a) (below : List Line) :
    address? base (above ++ below) symbol = some a := by
  rw [address?] at h ⊢
  rw [declarations, places_append, List.filterMap_append, List.lookup_append]
  rw [declarations] at h
  rw [h]
  rfl

theorem mem_symbols_append (h : symbol ∈ symbols above) (below : List Line) :
    symbol ∈ symbols (above ++ below) := by
  rw [symbols, places_append, List.filterMap_append]
  exact List.mem_append_left _ h

end Declared

/-! ### Subroutines -/

section Subroutines

variable {text : List Line}

/-- Heads are counted in their order. -/
theorem map_scope_heads (text : List Line) :
    (heads text).map Place.scope = List.range (headNames text).length := by
  induction text using List.reverseRecOn with
  | nil => rfl
  | append_singleton text l ih =>
    rw [heads_concat, headNames_concat]
    cases h : l.headName? with
    | none => simp [ih]
    | some name => simp [ih, List.range_succ, Place.scope]

/-- So there is a head for each of the numbers. -/
theorem exists_mem_heads {scope : Nat} (h : scope < (headNames text).length) :
    ∃ q ∈ heads text, q.scope = scope := by
  rw [← List.mem_range, ← map_scope_heads, List.mem_map] at h
  exact h

/-- The heads open the subroutines of the text. -/
theorem map_headName?_heads (text : List Line) :
    (heads text).map (fun q => q.line.headName?) = (headNames text).map some := by
  induction text using List.reverseRecOn with
  | nil => rfl
  | append_singleton text l ih =>
    rw [heads_concat, headNames_concat]
    cases h : l.headName? with
    | none => simp [ih]
    | some name => simp [ih, h]

/-- More lines above may open more subroutines. -/
theorem length_headNames_le (above lines : List Line) :
    (headNames above).length ≤ (headNames (above ++ lines)).length := by
  rw [headNames, headNames, List.filterMap_append, List.length_append]
  exact Nat.le_add_right _ _

theorem scope_le {q : Place} (h : q ∈ places text) : q.scope ≤ (headNames text).length := by
  obtain ⟨below, rfl⟩ := mem_places.1 h
  exact length_headNames_le q.above (q.line :: below)

theorem mem_body {q : Place} {scope : Nat} :
    q ∈ body text scope ↔ q ∈ places text ∧ q.line.isInstruction = true ∧ q.scope = scope := by
  rw [body, List.mem_filter, Bool.and_eq_true, beq_iff_eq]

/-- A subroutine that is not open yet has no instructions. -/
theorem body_eq_nil {scope : Nat} (h : (headNames text).length < scope) : body text scope = [] := by
  rw [List.eq_nil_iff_forall_not_mem]
  intro q hq
  obtain ⟨hplace, -, rfl⟩ := mem_body.1 hq
  exact Nat.not_lt.2 (scope_le hplace) h

end Subroutines

end WordMachine.Source
