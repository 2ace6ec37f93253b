import WordMachine.Proofs.Assembly.Acceptance

namespace WordMachine

open Sequence Source

/-!
# Literals in place of symbols

A symbol in an operand is no more than the address it stands for. So a text in which operands of
instructions are written as hexadecimal numbers instead is a text of the same program: its lines
are as long as before, they declare the same symbols at the same addresses, and they spell the same
instructions.

* `hexLiteral?_hex` — the digits of a word are read as the word.
* `Source.Place.Rewrites` — a line with literals in place of operands.
* `Source.Line.Alike` and `Source.Place.Alike` — what such a line has in common with the old one.
* `Source.Place.Mirrors` — a place in the new text with the place in the old one.
* `operands_stand_for_addresses` — what operands stand for, and that they may be written as such.
-/

/-! ### Hexadecimal literals -/

namespace Source

theorem hexDigit_spec : ∀ n < 16, isHexDigit (Word.hexDigit n) = true ∧
    digitValue (Word.hexDigit n) = n := by
  decide

/-- The four digits of a word are read as the word. -/
theorem hexLiteral?_hex (w : Word) : hexLiteral? ("0x" ++ w.hex).toList = some w := by
  have hw : w.toNat < 65536 := w.toNat_lt
  have hdigits : w.hex.toList = w.hexDigits := String.toList_ofList
  have hchars : ("0x" ++ w.hex).toList = '0' :: 'x' :: w.hexDigits := by
    rw [String.toList_append, hdigits]
    rfl
  obtain ⟨h3, v3⟩ := hexDigit_spec (w.toNat / 4096) (by omega)
  obtain ⟨h2, v2⟩ := hexDigit_spec (w.toNat / 256 % 16) (by omega)
  obtain ⟨h1, v1⟩ := hexDigit_spec (w.toNat / 16 % 16) (by omega)
  obtain ⟨h0, v0⟩ := hexDigit_spec (w.toNat % 16) (by omega)
  have hnumeral : numeral 16 w.hexDigits = w.toNat := by
    simp only [numeral, Word.hexDigits, List.foldl_cons, List.foldl_nil, v3, v2, v1, v0]
    omega
  rw [hchars, hexLiteral?, hnumeral, UInt16.ofNat_toNat, if_pos]
  refine ⟨List.cons_ne_nil _ _, Nat.le_refl 4, ?_⟩
  simp [Word.hexDigits, h3, h2, h1, h0]

/-- A hexadecimal literal is an operand of no other form. -/
theorem Operand.ofChars?_of_hexLiteral? {cs : List Char} {w : Word} (h : hexLiteral? cs = some w) :
    Operand.ofChars? cs = some (.literal w) := by
  obtain ⟨digits, rfl, some, four, hex, value⟩ := hexLiteral?_eq_some_iff.1 h
  exact Operand.ofChars?_of_spelled (.hexadecimal some four hex value)

/-! ### Rewritten lines -/

namespace Place

/-- An operand token is left as it is, or replaced by a hexadecimal literal of its value. -/
def Replaces (base : Word) (text : List Line) (q : Place) (token token' : String) : Prop :=
  token' = token ∨ ∃ w, q.value? base text token = some w ∧ hexLiteral? token'.toList = some w

/-- A line is left as it is, or some operand tokens of its instruction are replaced. -/
def Rewrites (base : Word) (text : List Line) (q : Place) (l : Line) : Prop :=
  l = q.line ∨ ∃ mnemonic tokens tokens',
    Statement.ofLine q.line = .ok (.instruction mnemonic tokens) ∧
      l = ⟨q.line.number, mnemonic :: tokens'⟩ ∧
      List.Forall₂ (q.Replaces base text) tokens tokens'

end Place

/-- The tokens of an instruction are its mnemonic and its operands. No equals sign comes second. -/
theorem tokens_of_ofLine {l : Line} {mnemonic : String} {tokens : List String}
    (h : Statement.ofLine l = .ok (.instruction mnemonic tokens)) :
    l.tokens = mnemonic :: tokens ∧ tokens.head? ≠ some "=" := by
  unfold Statement.ofLine at h
  split at h
  · cases h
  · next token htokens =>
    simp only [Statement.ofToken] at h
    split at h
    · obtain ⟨_, -, heq⟩ := map_eq_ok_iff.1 h
      cases heq
    · split at h
      · obtain ⟨_, -, heq⟩ := map_eq_ok_iff.1 h
        cases heq
      · cases h
        exact ⟨htokens, by simp⟩
  · next first second rest htokens =>
    split at h
    · split at h
      · obtain ⟨_, -, heq⟩ := map_eq_ok_iff.1 h
        cases heq
      · cases h
    · next hne =>
      cases h
      exact ⟨htokens, by simpa using hne⟩

/-- As many other operands make an instruction again. -/
theorem ofLine_of_tokens {l : Line} {mnemonic : String} {tokens tokens' : List String}
    (h : Statement.ofLine l = .ok (.instruction mnemonic tokens))
    (count : tokens.length = tokens'.length) (plain : tokens'.head? ≠ some "=") :
    Statement.ofLine ⟨l.number, mnemonic :: tokens'⟩ = .ok (.instruction mnemonic tokens') := by
  cases tokens' with
  | nil =>
    obtain rfl := List.length_eq_zero_iff.1 count
    obtain ⟨number, ts⟩ := l
    obtain ⟨rfl, -⟩ := tokens_of_ofLine h
    exact h
  | cons token rest =>
    have hne : token ≠ "=" := by simpa using plain
    simp only [Statement.ofLine, if_neg hne]

/-! ### What rewritten lines have in common -/

/-- Lines that are the same, or that are instructions of one mnemonic. -/
def Line.Alike (l m : Line) : Prop :=
  m = l ∨ ∃ mnemonic tokens tokens', Statement.ofLine l = .ok (.instruction mnemonic tokens) ∧
    Statement.ofLine m = .ok (.instruction mnemonic tokens')

namespace Line.Alike

variable {l m : Line} (h : l.Alike m)

include h

theorem size_eq : m.size = l.size := by
  rcases h with rfl | ⟨mnemonic, tokens, tokens', hl, hm⟩
  · rfl
  · simp only [size, hl, hm]

theorem headName?_eq : m.headName? = l.headName? := by
  rcases h with rfl | ⟨mnemonic, tokens, tokens', hl, hm⟩
  · rfl
  · simp only [headName?, hl, hm]

theorem isInstruction_eq : m.isInstruction = l.isInstruction := by
  rcases h with rfl | ⟨mnemonic, tokens, tokens', hl, hm⟩
  · rfl
  · simp only [isInstruction, hl, hm]

end Line.Alike

/-- Places of lines that are alike, and so are the lines above them. -/
structure Place.Alike (q r : Place) : Prop where
  above : List.Forall₂ Line.Alike q.above r.above
  line : q.line.Alike r.line

namespace Place.Alike

variable {base : Word} {q r : Place} (h : q.Alike r)

include h

theorem start_eq : r.start base = q.start base := by
  rw [start, start, wordCount, wordCount, map_eq_of_forall₂ (fun _ _ hl => hl.size_eq) h.above]

theorem address_eq : r.address base = q.address base := by
  rw [address, address, h.start_eq]

theorem scope_eq : r.scope = q.scope := by
  rw [scope, scope, headNames, headNames,
    filterMap_eq_of_forall₂ (fun _ _ hl => hl.headName?_eq) h.above]

theorem symbol?_eq : r.symbol? = q.symbol? := by
  have hscope := h.scope_eq
  rcases h.line with heq | ⟨mnemonic, tokens, tokens', hl, hm⟩
  · simp only [symbol?, heq, hscope]
  · simp only [symbol?, hl, hm]

theorem declaration?_eq : r.declaration? base = q.declaration? base := by
  rw [declaration?, declaration?, h.symbol?_eq, h.address_eq]

theorem constants_eq : r.constants base = q.constants base := by
  have haddress : r.address base = q.address base := h.address_eq
  rcases h.line with heq | ⟨mnemonic, tokens, tokens', hl, hm⟩
  · simp only [constants, heq, haddress]
  · simp only [constants, hl, hm]

end Place.Alike

/-! ### Texts of such lines -/

theorem forall₂_placesFrom {above above' ls ms : List Line}
    (ha : List.Forall₂ Line.Alike above above') (h : List.Forall₂ Line.Alike ls ms) :
    List.Forall₂ Place.Alike (placesFrom above ls) (placesFrom above' ms) := by
  induction h generalizing above above' with
  | nil => exact .nil
  | cons hl _ ih => exact .cons ⟨ha, hl⟩ (ih (List.rel_append ha (.cons hl .nil)))

section Alike

variable {base : Word} {text text' : List Line} (h : List.Forall₂ Line.Alike text text')

include h

theorem forall₂_places : List.Forall₂ Place.Alike (places text) (places text') :=
  forall₂_placesFrom .nil h

theorem symbols_of_alike : symbols text' = symbols text :=
  filterMap_eq_of_forall₂ (fun _ _ hq => hq.symbol?_eq) (forall₂_places h)

theorem address?_of_alike (symbol : Symbol) :
    address? base text' symbol = address? base text symbol := by
  rw [address?, address?, declarations, declarations,
    filterMap_eq_of_forall₂ (fun _ _ hq => hq.declaration?_eq) (forall₂_places h)]

theorem constants_of_alike :
    (places text').flatMap (Place.constants base) = (places text).flatMap (Place.constants base) := by
  rw [List.flatMap_def, List.flatMap_def,
    map_eq_of_forall₂ (fun _ _ hq => hq.constants_eq) (forall₂_places h)]

end Alike

/-- A line is left as it is, or rewritten to an instruction of the same mnemonic. -/
theorem Place.Rewrites.eq_or_instruction {base : Word} {text : List Line} {q : Place} {l : Line}
    (h : q.Rewrites base text l) :
    l = q.line ∨ ∃ mnemonic tokens tokens',
      Statement.ofLine q.line = .ok (.instruction mnemonic tokens) ∧
        Statement.ofLine l = .ok (.instruction mnemonic tokens') ∧
        List.Forall₂ (q.Replaces base text) tokens tokens' := by
  rcases h with rfl | ⟨mnemonic, tokens, tokens', kind, rfl, htokens⟩
  · exact .inl rfl
  · refine .inr ⟨mnemonic, tokens, tokens', kind, ?_, htokens⟩
    refine ofLine_of_tokens kind htokens.length_eq ?_
    -- An equals sign is no literal, and it was not there before.
    intro heq
    obtain ⟨rest, rfl⟩ := List.head?_eq_some_iff.1 heq
    cases htokens with
    | cons htoken hrest =>
      rcases htoken with rfl | ⟨w, -, hw⟩
      · exact (tokens_of_ofLine kind).2 rfl
      · have hnone : hexLiteral? "=".toList = none := rfl
        rw [hnone] at hw
        cases hw

theorem Place.Rewrites.alike {base : Word} {text : List Line} {q : Place} {l : Line}
    (h : q.Rewrites base text l) : q.line.Alike l := by
  rcases h.eq_or_instruction with heq | ⟨mnemonic, tokens, tokens', kind, kind', -⟩
  · exact .inl heq
  · exact .inr ⟨mnemonic, tokens, tokens', kind, kind'⟩

/-! ### The program of a rewritten text -/

/-- A place of the rewritten text stands for one of the old text. -/
structure Place.Mirrors (base : Word) (text : List Line) (q r : Place) : Prop extends q.Alike r where
  rewrites : q.Rewrites base text r.line

namespace Place.Mirrors

variable {base : Word} {text text' : List Line} {q r : Place} (hq : q.Mirrors base text r)

include hq

/-- A rewritten line is allowed where it stands if the old line is. -/
theorem allowed (h : q.Allowed base q.Sees) : r.Allowed base r.Sees := by
  have hsees : ∀ operand, q.Sees operand → r.Sees operand := by
    intro operand
    cases operand <;> simp only [Sees, symbols_of_alike hq.above, imp_self]
  rcases hq.rewrites.eq_or_instruction with heq | ⟨mnemonic, tokens, tokens', kind, kind', htokens⟩
  · exact h.of_le heq (Nat.le_of_eq hq.start_eq) hq.scope_eq hsees
  · cases h with
    | constant other first spells room => simp [kind] at other
    | subroutine other room => simp [kind] at other
    | label other inside room => simp [kind] at other
    | instruction same inside known count operands room =>
      rw [kind] at same
      cases same
      refine .instruction kind' ?_ known ?_ ?_ ?_
      · rw [hq.scope_eq]
        exact inside
      · rw [← htokens.length_eq]
        exact count
      · refine forall_mem_of_forall₂ ?_ htokens operands
        rintro token token' (rfl | ⟨w, -, hw⟩) ⟨operand, hchars, hseen⟩
        · exact ⟨operand, hchars, hsees operand hseen⟩
        · exact ⟨.literal w, Operand.ofChars?_of_hexLiteral? hw, trivial⟩
      · rw [hq.start_eq]
        exact room

variable (h : List.Forall₂ Line.Alike text text')

include h

/-- An operand has the same value in both texts. -/
theorem operandValue?_eq (operand : Operand) :
    r.operandValue? base text' operand = q.operandValue? base text operand := by
  have hscope := hq.scope_eq
  cases operand with
  | literal w => rfl
  | register r => rfl
  | constant name => exact address?_of_alike h _
  | subroutine name => exact address?_of_alike h _
  | label name => simp only [operandValue?, address?_of_alike h, hscope]

/-- So has an operand token, and a literal in place of it. -/
theorem value?_eq {token token' : String} (ht : q.Replaces base text token token') :
    r.value? base text' token' = q.value? base text token := by
  rcases ht with rfl | ⟨w, hw, hliteral⟩
  · rw [value?, value?]
    congr 1
    funext operand
    exact hq.operandValue?_eq h operand
  · rw [hw, value?, Operand.ofChars?_of_hexLiteral? hliteral]
    rfl

/-- So the line spells the same instruction. -/
theorem spells_iff {i : Instruction} : r.Spells base text' i ↔ q.Spells base text i := by
  rcases hq.rewrites.eq_or_instruction with heq | ⟨mnemonic, tokens, tokens', kind, kind', htokens⟩
  · have hvalues : ∀ token, r.value? base text' token = q.value? base text token := fun token =>
      hq.value?_eq h (.inl rfl)
    simp only [Spells, heq, hvalues]
  · have hvalues : ∀ ws, List.Forall₂ (fun t w => r.value? base text' t = some w) tokens' ws ↔
        List.Forall₂ (fun t w => q.value? base text t = some w) tokens ws := fun ws =>
      forall₂_iff_of_forall₂ (fun t t' w ht => by rw [hq.value?_eq h ht]) htokens
    simp only [Spells, kind, kind', Except.ok.injEq, Statement.instruction.injEq]
    refine ⟨?_, ?_⟩
    · rintro ⟨_, ⟨hmnemonic, rfl⟩, hws⟩
      exact ⟨tokens, ⟨hmnemonic, rfl⟩, (hvalues _).1 hws⟩
    · rintro ⟨_, ⟨hmnemonic, rfl⟩, hws⟩
      exact ⟨tokens', ⟨hmnemonic, rfl⟩, (hvalues _).2 hws⟩

end Place.Mirrors

section Rewritten

variable {base : Word} {text text' : List Line}
  (h : List.Forall₂ (Place.Rewrites base text) (places text) text')

include h

theorem forall₂_alike : List.Forall₂ Line.Alike text text' := by
  have hlines : List.Forall₂ (fun q l => Line.Alike (Place.line q) l) (places text) text' :=
    h.imp fun _ _ hq => hq.alike
  rw [← List.forall₂_map_left_iff (f := Place.line), map_line_places] at hlines
  exact hlines

theorem forall₂_mirrors :
    List.Forall₂ (Place.Mirrors base text) (places text) (places text') := by
  have halike := forall₂_places (forall₂_alike h)
  rw [← map_line_places text', List.forall₂_map_right_iff] at h
  exact h.mp (fun _ _ hrewrites hq => ⟨hq, hrewrites⟩) halike

theorem forall₂_heads : List.Forall₂ (Place.Mirrors base text) (heads text) (heads text') := by
  refine List.rel_filter ?_ (forall₂_mirrors h)
  intro q r hq
  dsimp only
  rw [hq.line.headName?_eq]

theorem forall₂_body (scope : Nat) :
    List.Forall₂ (Place.Mirrors base text) (body text scope) (body text' scope) := by
  refine List.rel_filter ?_ (forall₂_mirrors h)
  intro q r hq
  dsimp only
  rw [hq.line.isInstruction_eq, hq.scope_eq]

/-- A head opens the same subroutine. -/
theorem Place.Mirrors.opens_iff {q r : Place} (hq : q.Mirrors base text r) {s : Subroutine} :
    r.Opens base text' s ↔ q.Opens base text s := by
  have hbody : List.Forall₂ (Place.Spells base text') (body text' (q.scope + 1)) s.instructions ↔
      List.Forall₂ (Place.Spells base text) (body text (q.scope + 1)) s.instructions := by
    refine forall₂_iff_of_forall₂ ?_ (forall₂_body h _)
    intro q r i hr
    exact hr.spells_iff (forall₂_alike h)
  have hname := hq.line.headName?_eq
  have haddress : r.address base = q.address base := hq.address_eq
  have hscope := hq.scope_eq
  refine ⟨?_, ?_⟩
  · rintro ⟨name, address, instructions⟩
    rw [hscope] at instructions
    exact ⟨by rw [name, hname], by rw [address, haddress], hbody.1 instructions⟩
  · rintro ⟨name, address, instructions⟩
    refine ⟨by rw [name, hname], by rw [address, haddress], ?_⟩
    rw [hscope]
    exact hbody.2 instructions

/-- A rewritten text spells the same program. -/
theorem Spells.of_rewrites {p : Program} (hspells : Spells base text p) : Spells base text' p where
  constants := by
    rw [constants_of_alike (forall₂_alike h)]
    exact hspells.constants
  subroutines := by
    refine (forall₂_iff_of_forall₂ ?_ (forall₂_heads h)).2 hspells.subroutines
    intro q r s hq
    exact hq.opens_iff h
  main := hspells.main

end Rewritten

end Source

/-! ### Addresses in the program -/

/-- Only the first word of a constant has its name. -/
theorem Assembly.of_mem_constantsOf {name n : String} {a : Word} {ws : List Word} {c : Constant}
    (h : c ∈ constantsOf name a ws) (hname : c.name? = some n) : n = name ∧ c.address = a := by
  cases ws with
  | nil => simp [constantsOf] at h
  | cons w ws =>
    simp only [constantsOf, placed_cons, List.mem_cons, List.mem_map] at h
    rcases h with rfl | ⟨_, -, rfl⟩
    · exact ⟨(Option.some.inj hname).symm, rfl⟩
    · cases hname

namespace Source

section Addresses

variable {base : Word} {text : List Line} {p : Program}

/-- A symbol that is declared once stands for the address of the line that declares it. -/
theorem address?_of_mem_places (distinct : (symbols text).Nodup) {q : Place}
    (hq : q ∈ places text) {symbol : Symbol} (hsymbol : q.symbol? = some symbol) :
    address? base text symbol = some (q.address base) := by
  have hnone : address? base q.above symbol = none :=
    address?_eq_none_iff.2 (nodup_symbols_iff.1 distinct q hq symbol hsymbol)
  have hline : address? base (q.above ++ [q.line]) symbol = some (q.address base) := by
    rw [address?_concat, hnone, if_pos hsymbol]
    rfl
  obtain ⟨below, rfl⟩ := mem_places.1 hq
  have happend := address?_append hline below
  rw [List.append_assoc, List.singleton_append] at happend
  exact happend

/-- The instructions of a subroutine are those that its lines spell. -/
theorem Spells.instructions (h : Spells base text p) {k : Nat} {s : Subroutine}
    (hs : p.subroutines[k]? = some s) :
    List.Forall₂ (Place.Spells base text) (body text (k + 1)) s.instructions := by
  have hbodies : List.Forall₂
      (fun scope t => List.Forall₂ (Place.Spells base text) (body text (scope + 1))
        (Subroutine.instructions t))
      (List.range (headNames text).length) p.subroutines := by
    rw [← map_scope_heads, List.forall₂_map_left_iff]
    exact h.subroutines.imp fun _ _ hopens => hopens.instructions
  obtain ⟨hlength, hall⟩ := List.forall₂_iff_get.1 hbodies
  obtain ⟨hk, rfl⟩ := List.getElem?_eq_some_iff.1 hs
  have hbody := hall k (by rw [hlength]; exact hk) hk
  simp only [List.get_eq_getElem, List.getElem_range] at hbody
  exact hbody

/-- The name of a constant stands for the address of its first word. -/
theorem Spells.address?_constant (h : Spells base text p) (distinct : (symbols text).Nodup)
    {c : Constant} (hc : c ∈ p.constants) {name : String} (hname : c.name? = some name) :
    address? base text (.constant name) = some c.address := by
  rw [h.constants, List.mem_flatMap] at hc
  obtain ⟨q, hq, hc⟩ := hc
  unfold Place.constants at hc
  split at hc
  · next declared value kind =>
    obtain ⟨rfl, haddress⟩ := Assembly.of_mem_constantsOf hc hname
    rw [haddress]
    exact address?_of_mem_places distinct hq (Place.symbol?_constant kind)
  · cases hc

/-- The name of a subroutine stands for its address. -/
theorem Spells.address?_subroutine (h : Spells base text p) (distinct : (symbols text).Nodup)
    {s : Subroutine} (hs : s ∈ p.subroutines) {name : String} (hname : s.name? = some name) :
    address? base text (.subroutine name) = some s.address := by
  have hmem : ∀ q ∈ heads text, q ∈ places text := fun q hq => (List.mem_filter.1 hq).1
  refine forall_mem_of_forall₂
    (Q := fun t => t.name? = some name → address? base text (.subroutine name) = some t.address)
    ?_ h.subroutines hmem s hs hname
  intro q t hopens hq hname
  rw [hopens.name?_eq] at hname
  rw [hopens.address_eq]
  unfold Line.headName? at hname
  split at hname
  · next kind =>
    cases hname
    exact address?_of_mem_places distinct hq (Place.symbol?_subroutine kind)
  · cases hname

/-- A line that declares a symbol stands below `haltAddress`. -/
theorem Place.Allowed.toNat_address {Known : Operand → Prop} {q : Place}
    (h : q.Allowed base Known) {symbol : Symbol} (hsymbol : q.symbol? = some symbol) :
    (q.address base).toNat = base.toNat + wordCount q.above := by
  have hroom : q.start base ≤ 65535 := by
    cases h with
    | constant kind first spells room => exact Nat.le_trans (Nat.le_add_right _ _) room
    | subroutine kind room => exact Nat.le_of_lt room
    | label kind inside room => exact Nat.le_of_lt room
    | instruction kind inside known count operands room =>
      simp [Place.symbol?_instruction kind] at hsymbol
  rw [Place.address, UInt16.toNat_ofNat', Nat.mod_eq_of_lt (Nat.lt_succ_of_le hroom)]
  rfl

end Addresses

end Source

/-! ### Assembled programs -/

section Assembled

variable {text text' : List Line} {base : Word} {p : Program}

/-- Operands written as literals leave the program as it is. -/
theorem assemble_of_rewrites (h : assemble text base = .ok p)
    (hrewrites : List.Forall₂ (Place.Rewrites base text) (places text) text') :
    assemble text' base = .ok p := by
  obtain ⟨allowed, distinct, spells⟩ := assemble_eq_ok_iff.1 h
  refine assemble_eq_ok_iff.2 ⟨?_, ?_, spells.of_rewrites hrewrites⟩
  · exact forall_mem_of_forall₂ (fun _ _ hq => hq.allowed) (forall₂_mirrors hrewrites) allowed
  · rw [symbols_of_alike (forall₂_alike hrewrites)]
    exact distinct

/-- **Symbols are addresses.** In an assembled text every symbol stands for the base plus the words of
all lines above its declaration, which is where the program has the first word of a constant and
where a subroutine starts. The instructions of a subroutine are those of its lines, with the value
of each operand token in its place. Any of these tokens may be replaced by a hexadecimal literal of
its value, and there is such a literal for every word; the program stays the same. -/
theorem operands_stand_for_addresses (h : assemble text base = .ok p) :
    (∀ q ∈ places text, ∀ symbol, q.symbol? = some symbol →
        ∃ a, address? base text symbol = some a ∧ a.toNat = base.toNat + wordCount q.above) ∧
      (∀ c ∈ p.constants, ∀ name, c.name? = some name →
        address? base text (.constant name) = some c.address) ∧
      (∀ s ∈ p.subroutines, ∀ name, s.name? = some name →
        address? base text (.subroutine name) = some s.address) ∧
      (∀ k s, p.subroutines[k]? = some s →
        List.Forall₂ (Place.Spells base text) (body text (k + 1)) s.instructions) ∧
      (∀ w, hexLiteral? ("0x" ++ w.hex).toList = some w) ∧
      ∀ text', List.Forall₂ (Place.Rewrites base text) (places text) text' →
        assemble text' base = .ok p := by
  obtain ⟨allowed, distinct, spells⟩ := assemble_eq_ok_iff.1 h
  refine ⟨?_, ?_, ?_, ?_, hexLiteral?_hex, ?_⟩
  · intro q hq symbol hsymbol
    exact ⟨_, address?_of_mem_places distinct hq hsymbol, (allowed q hq).toNat_address hsymbol⟩
  · intro c hc name hname
    exact spells.address?_constant distinct hc hname
  · intro s hs name hname
    exact spells.address?_subroutine distinct hs hname
  · intro k s hs
    exact spells.instructions hs
  · intro text' hrewrites
    exact assemble_of_rewrites h hrewrites

/-- Two subroutines with a label of the same name, each used above its declaration. -/
def crossings : List Line :=
  [⟨1, ["k", "=", "7"]⟩, ⟨2, ["f:"]⟩, ⟨3, ["gto", "&end"]⟩, ⟨4, ["&end"]⟩, ⟨5, ["ret"]⟩,
    ⟨6, ["main:"]⟩, ⟨7, ["cop", "[k]", "bb"]⟩, ⟨8, ["cal", "\x7bf\x7d"]⟩, ⟨9, ["gto", "&end"]⟩,
    ⟨10, ["&end"]⟩, ⟨11, ["ret"]⟩]

theorem assemble_crossings :
    assemble crossings 0x100 = .ok
      ⟨[⟨some "k", 0x100, 7⟩],
        [⟨some "f", 0x101, [⟨.gto, [0x103]⟩, ⟨.ret, []⟩]⟩,
          ⟨some "main", 0x104,
            [⟨.cop, [0x100, 1]⟩, ⟨.cal, [0x101]⟩, ⟨.gto, [0x10b]⟩, ⟨.ret, []⟩]⟩], 0x104⟩ := by
  decide +kernel

/-- The same program with some of the operands as literals. -/
theorem operands_stand_for_addresses_crossings :
    ∃ p, assemble crossings 0x100 = .ok p ∧
      assemble
        [⟨1, ["k", "=", "7"]⟩, ⟨2, ["f:"]⟩, ⟨3, ["gto", "0x0103"]⟩, ⟨4, ["&end"]⟩, ⟨5, ["ret"]⟩,
          ⟨6, ["main:"]⟩, ⟨7, ["cop", "0x0100", "0x0001"]⟩, ⟨8, ["cal", "\x7bf\x7d"]⟩,
          ⟨9, ["gto", "0x10b"]⟩, ⟨10, ["&end"]⟩, ⟨11, ["ret"]⟩] 0x100 = .ok p := by
  refine ⟨_, assemble_crossings,
    (operands_stand_for_addresses assemble_crossings).2.2.2.2.2 _ ?_⟩
  have replaced : ∀ {q : Place} {token token' : String} (w : Word),
      q.value? 0x100 crossings token = some w → hexLiteral? token'.toList = some w →
      q.Replaces 0x100 crossings token token' := fun w hw hliteral => .inr ⟨w, hw, hliteral⟩
  refine .cons (.inl rfl) <| .cons (.inl rfl) <| .cons (.inr ⟨"gto", ["&end"], _, ?_, rfl, ?_⟩) <|
    .cons (.inl rfl) <| .cons (.inl rfl) <| .cons (.inl rfl) <|
    .cons (.inr ⟨"cop", ["[k]", "bb"], _, ?_, rfl, ?_⟩) <| .cons (.inl rfl) <|
    .cons (.inr ⟨"gto", ["&end"], _, ?_, rfl, ?_⟩) <| .cons (.inl rfl) <| .cons (.inl rfl) .nil
  · decide +kernel
  · exact .cons (replaced 0x103 (by decide +kernel) (by decide +kernel)) .nil
  · decide +kernel
  · exact .cons (replaced 0x100 (by decide +kernel) (by decide +kernel)) <|
      .cons (replaced 1 (by decide +kernel) (by decide +kernel)) .nil
  · decide +kernel
  · exact .cons (replaced 0x10b (by decide +kernel) (by decide +kernel)) .nil

end Assembled

end WordMachine
