import WordMachine.Proofs.Sequence
import WordMachine.Proofs.Source.Tokens

namespace WordMachine.Source

open Sequence

/-!
# Formatting

The tokens of a line may be written with other gaps and another comment, and they remain its tokens.
One thing can go wrong. A double quote that no other one follows is a character of its token; a
comment with a double quote would close it, and turn the rest of the line into a string.

* `Spaced` — tokens apart from each other by spaces and tabs.
* `Unclosed` — a token that only starts a string; `Formats` — tokens in front of a comment.
* `Tokenizes.reformat` — tokens of a line, formatted in another way, are the tokens of a line again.
* `Reformats` — the lines of a text in another format, with lines that hold no tokens among them.
* `ofSource_eq_ok_iff`, `mem_ofSource` — the numbered lines of a text.
* `ofSource_of_reformats` — they keep their tokens, and only get other numbers.
-/

/-! ### A line -/

instance (cs : List Char) : Decidable (Gap cs) :=
  List.decidableBAll _ _

/-- Tokens with spaces and tabs around them. Between two tokens there are some. -/
inductive Spaced : List (List Char) → List Char → Prop where
  | nil {gap : List Char} (gap_gap : Gap gap) : Spaced [] gap
  | cons {gap token rest : List Char} {tokens : List (List Char)} (gap_gap : Gap gap)
      (spaced : Spaced tokens rest) (apart : tokens ≠ [] → ∃ c ∈ rest.head?, isGap c = true) :
      Spaced (token :: tokens) (gap ++ token ++ rest)

/-- A token that starts a string and does not end it. -/
def Unclosed (token : List Char) : Prop :=
  ∃ run, token = '"' :: run ∧ '"' ∉ run

/-- Tokens on a line, with a comment behind them. -/
def Formats (tokens : List (List Char)) (cs : List Char) : Prop :=
  ∃ text comment, cs = text ++ comment ∧ Spaced tokens text ∧ Comment comment ∧
    ((∃ token ∈ tokens, Unclosed token) → '"' ∉ comment)

theorem gap_nil : Gap [] := by
  intro c hc
  cases hc

theorem tokenizes_nil : Tokenizes [] [] := by
  show Tokenizes ([] ++ []) []
  exact .done gap_nil (.inl rfl)

theorem Gap.quote_not_mem {gap : List Char} (h : Gap gap) : '"' ∉ gap := by
  intro hmem
  exact absurd (h _ hmem) (by decide)

/-- Each double quote stands in a token. -/
theorem Spaced.quote_not_mem {tokens : List (List Char)} {text : List Char} (h : Spaced tokens text)
    (quoteless : ∀ token ∈ tokens, '"' ∉ token) : '"' ∉ text := by
  induction h with
  | nil gap_gap => exact gap_gap.quote_not_mem
  | cons gap_gap _ _ ih =>
    rw [List.forall_mem_cons] at quoteless
    rw [List.mem_append, List.mem_append, not_or, not_or]
    exact ⟨⟨gap_gap.quote_not_mem, quoteless.1⟩, ih quoteless.2⟩

/-- Tokens hold no characters but those of their line. -/
theorem Tokenizes.mem_of_mem {cs token : List Char} {tokens : List (List Char)}
    (h : Tokenizes cs tokens) (htoken : token ∈ tokens) {c : Char} (hc : c ∈ token) : c ∈ cs := by
  induction h with
  | done => cases htoken
  | token _ begins _ ih =>
    rw [← (token?_append begins.token?_eq).1]
    simp only [List.mem_append]
    rcases List.mem_cons.1 htoken with rfl | hrest
    · exact .inr (.inl hc)
    · exact .inr (.inr (ih hrest))

/-- Behind a token there is a gap, the comment, or nothing. -/
theorem Spaced.isBare_head {tokens : List (List Char)} {text comment : List Char}
    (h : Spaced tokens text) (apart : tokens ≠ [] → ∃ c ∈ text.head?, isGap c = true)
    (comment_comment : Comment comment) {c : Char} (hc : (text ++ comment).head? = some c) :
    isBare c = false := by
  cases text with
  | nil =>
    rcases comment_comment with rfl | ⟨_, rfl⟩
    · cases hc
    · cases hc
      rfl
  | cons d text =>
    obtain rfl : d = c := Option.some.inj hc
    apply isBare_of_isGap
    by_cases htokens : tokens = []
    · subst htokens
      cases h with
      | nil gap_gap => exact gap_gap d List.mem_cons_self
    · obtain ⟨_, ⟨⟩, hgap⟩ := apart htokens
      exact hgap

/-- A token stays what it is in front of a text that it neither runs into nor finds a double quote
in. -/
theorem Begins.reformat {cs token rest rest' : List Char} (h : Begins cs token rest)
    (maximal : ∀ c, rest'.head? = some c → isBare c = false)
    (quoteless : Unclosed token → '"' ∉ rest → '"' ∉ rest') :
    Begins (token ++ rest') token rest' := by
  cases h with
  | @string body rest closed =>
    have hbegins : Begins ('"' :: body ++ '"' :: rest') _ _ := .string closed
    simpa using hbegins
  | bare nonempty bare _ unclosed =>
    refine .bare nonempty bare maximal ?_
    intro cs hcs
    obtain ⟨c, run, rfl⟩ := List.exists_cons_of_ne_nil nonempty
    rw [List.cons_append] at hcs
    obtain ⟨rfl, rfl⟩ := List.cons.inj hcs
    have hquoteless := unclosed (run ++ rest) rfl
    rw [List.mem_append, not_or] at hquoteless ⊢
    exact ⟨hquoteless.1, quoteless ⟨run, rfl, hquoteless.1⟩ hquoteless.2⟩

/-- The tokens of a line are the tokens of any line that they format. -/
theorem Tokenizes.reformat {cs cs' : List Char} {tokens : List (List Char)}
    (h : Tokenizes cs tokens) (formats : Formats tokens cs') : Tokenizes cs' tokens := by
  obtain ⟨text, comment, rfl, spaced, comment_comment, quoteless⟩ := formats
  induction h generalizing text with
  | done =>
    cases spaced with
    | nil gap_gap => exact .done gap_gap comment_comment
  | @token gap cs token rest tokens _ begins tokenizes ih =>
    cases spaced with
    | @cons gap' _ text _ gap_gap spaced apart =>
      have hrest : (∃ token ∈ tokens, Unclosed token) → '"' ∉ comment :=
        fun ⟨token, htoken, unclosed⟩ => quoteless ⟨token, List.mem_cons_of_mem _ htoken, unclosed⟩
      have hbegins : Begins (token ++ (text ++ comment)) token (text ++ comment) := by
        refine begins.reformat (fun c => spaced.isBare_head apart comment_comment) ?_
        intro unclosed hquote
        rw [List.mem_append, not_or]
        refine ⟨spaced.quote_not_mem ?_, quoteless ⟨token, List.mem_cons_self, unclosed⟩⟩
        exact fun t ht hmem => hquote (tokenizes.mem_of_mem ht hmem)
      rw [List.append_assoc, List.append_assoc]
      exact .token gap_gap hbegins (ih text spaced hrest)

/-! ### The lines of a text -/

/-- Rows of tokens as lines, numbered from one more than the number of lines above them. -/
def numbered (above : Nat) : List (List (List Char)) → List Line
  | [] => []
  | tokens :: rows => ⟨above + 1, tokens.map String.ofList⟩ :: numbered (above + 1) rows

/-- The numbered lines that hold tokens. -/
def numberedTokens (above : Nat) (rows : List (List (List Char))) : List Line :=
  (numbered above rows).filter fun line => line.tokens ≠ []

theorem ofText_eq_ok_iff_tokenizes {number : Nat} {cs : List Char} {line : Line} :
    Line.ofText number (String.ofList cs) = .ok line ↔
      ∃ tokens, Tokenizes cs tokens ∧ line = ⟨number, tokens.map String.ofList⟩ := by
  rw [Line.ofText, String.toList_ofList]
  cases htokens : tokens? cs with
  | none =>
    refine ⟨fun h => ?_, ?_⟩
    · cases h
    · rintro ⟨tokens, htokenizes, -⟩
      rw [tokens?_eq_some_iff.2 htokenizes] at htokens
      cases htokens
  | some tokens =>
    have htokenizes := tokens?_eq_some_iff.1 htokens
    refine ⟨fun h => ⟨tokens, htokenizes, (Except.ok.inj h).symm⟩, ?_⟩
    rintro ⟨tokens', htokenizes', rfl⟩
    rw [tokens?_eq_some_iff.2 htokenizes', Option.some_inj] at htokens
    rw [htokens]

/-- Lines are read one by one. -/
theorem mapM_zipIdx_eq_ok_iff {read : List Char × Nat → Except AssemblyError Line}
    (reads : ∀ cs i, read (cs, i) = Line.ofText (i + 1) (String.ofList cs))
    {ls : List (List Char)} {above : Nat} {lines : List Line} :
    (ls.zipIdx above).mapM read = .ok lines ↔
      ∃ rows, List.Forall₂ Tokenizes ls rows ∧ lines = numbered above rows := by
  induction ls generalizing above lines with
  | nil => simp [numbered, pure, Except.pure, eq_comm]
  | cons cs ls ih =>
    simp only [List.zipIdx_cons, List.mapM_cons, bind_eq_ok_iff, reads, ofText_eq_ok_iff_tokenizes,
      ih, pure, Except.pure, Except.ok.injEq]
    refine ⟨?_, ?_⟩
    · rintro ⟨_, ⟨tokens, htokens, rfl⟩, _, ⟨rows, hrows, rfl⟩, rfl⟩
      exact ⟨tokens :: rows, .cons htokens hrows, rfl⟩
    · rintro ⟨_, hrows, rfl⟩
      cases hrows with
      | cons htokens hrows => exact ⟨_, ⟨_, htokens, rfl⟩, _, ⟨_, hrows, rfl⟩, rfl⟩

/-- The numbered lines of a text are those of the tokens of its lines. -/
theorem ofSource_eq_ok_iff {text : String} {lines : List Line} :
    Line.ofSource text = .ok lines ↔
      ∃ rows, List.Forall₂ Tokenizes (splitLines text.toList) rows ∧
        lines = numberedTokens 0 rows := by
  rw [Line.ofSource, bind_eq_ok_iff]
  refine ⟨?_, ?_⟩
  · rintro ⟨_, hread, h⟩
    obtain ⟨rows, hrows, rfl⟩ := (mapM_zipIdx_eq_ok_iff fun _ _ => rfl).1 hread
    exact ⟨rows, hrows, (Except.ok.inj h).symm⟩
  · rintro ⟨rows, hrows, rfl⟩
    exact ⟨_, (mapM_zipIdx_eq_ok_iff fun _ _ => rfl).2 ⟨rows, hrows, rfl⟩, rfl⟩

theorem numberedTokens_cons (above : Nat) (tokens : List (List Char))
    (rows : List (List (List Char))) :
    numberedTokens above (tokens :: rows) =
      if tokens = [] then numberedTokens (above + 1) rows
      else ⟨above + 1, tokens.map String.ofList⟩ :: numberedTokens (above + 1) rows := by
  rw [numberedTokens, numbered, List.filter_cons]
  by_cases h : tokens = [] <;> simp [h, numberedTokens]

theorem mem_numberedTokens {ls : List (List Char)} {rows : List (List (List Char))}
    (h : List.Forall₂ Tokenizes ls rows) {line : List Char} (hline : line ∈ ls) (above : Nat) :
    ∃ number tokens, Tokenizes line tokens ∧
      (tokens ≠ [] → ⟨number, tokens.map String.ofList⟩ ∈ numberedTokens above rows) := by
  induction h generalizing above with
  | nil => cases hline
  | @cons cs tokens ls rows htokens _ ih =>
    rcases List.mem_cons.1 hline with rfl | hrest
    · refine ⟨above + 1, tokens, htokens, fun hne => ?_⟩
      rw [numberedTokens_cons, if_neg hne]
      exact List.mem_cons_self
    · obtain ⟨number, tokens', htokens', hmem⟩ := ih hrest (above + 1)
      refine ⟨number, tokens', htokens', fun hne => ?_⟩
      rw [numberedTokens_cons]
      split
      · exact hmem hne
      · exact List.mem_cons_of_mem _ (hmem hne)

/-- A line that has tokens is among the numbered lines. -/
theorem mem_ofSource {text : String} {lines : List Line} (h : Line.ofSource text = .ok lines)
    {line : List Char} (hline : line ∈ splitLines text.toList) {tokens : List (List Char)}
    (htokens : Tokenizes line tokens) (hne : tokens ≠ []) :
    ∃ number, ⟨number, tokens.map String.ofList⟩ ∈ lines := by
  obtain ⟨rows, hrows, rfl⟩ := ofSource_eq_ok_iff.1 h
  obtain ⟨number, tokens', htokens', hmem⟩ := mem_numberedTokens hrows hline 0
  have hsame : tokens' = tokens :=
    Option.some.inj ((tokens?_eq_some_iff.2 htokens').symm.trans (tokens?_eq_some_iff.2 htokens))
  rw [hsame] at hmem
  exact ⟨number, hmem hne⟩

/-! ### A text -/

/-- The lines of a text in another format, with lines that hold no tokens among them. The last list
holds the number of each line in the other text, which has `above` lines above these. -/
inductive Reformats : Nat → List (List Char) → List (List Char) → List Nat → Prop where
  | nil {above : Nat} : Reformats above [] [] []
  | insert {above : Nat} {l' : List Char} {ls ls' : List (List Char)} {numbers : List Nat}
      (blank : Formats [] l') (reformats : Reformats (above + 1) ls ls' numbers) :
      Reformats above ls (l' :: ls') numbers
  | line {above : Nat} {l l' : List Char} {tokens : List (List Char)} {ls ls' : List (List Char)}
      {numbers : List Nat} (tokenizes : Tokenizes l tokens) (formats : Formats tokens l')
      (reformats : Reformats (above + 1) ls ls' numbers) :
      Reformats above (l :: ls) (l' :: ls') ((above + 1) :: numbers)

/-- The line with another number. -/
def Line.renumbered (ρ : Nat → Nat) (l : Line) : Line :=
  { l with number := ρ l.number }

/-- The tokens of both texts are the same, up to rows without any. -/
theorem Reformats.exists_rows {above : Nat} {ls ls' : List (List Char)} {numbers : List Nat}
    (h : Reformats above ls ls' numbers) :
    ∃ rows rows', List.Forall₂ Tokenizes ls rows ∧ List.Forall₂ Tokenizes ls' rows' ∧
      ∀ (start : Nat) (ρ : Nat → Nat), (∀ i n, numbers[i]? = some n → ρ (start + i + 1) = n) →
        numberedTokens above rows' = (numberedTokens start rows).map (Line.renumbered ρ) := by
  induction h with
  | nil => exact ⟨[], [], .nil, .nil, fun _ _ _ => rfl⟩
  | insert blank _ ih =>
    obtain ⟨rows, rows', hrows, hrows', same⟩ := ih
    refine ⟨rows, [] :: rows', hrows, .cons (tokenizes_nil.reformat blank) hrows',
      fun start ρ hρ => ?_⟩
    rw [numberedTokens_cons, if_pos rfl, same start ρ hρ]
  | @line above _ _ tokens _ _ _ tokenizes formats _ ih =>
    obtain ⟨rows, rows', hrows, hrows', same⟩ := ih
    refine ⟨tokens :: rows, tokens :: rows', .cons tokenizes hrows,
      .cons (tokenizes.reformat formats) hrows', fun start ρ hρ => ?_⟩
    have hhead : ρ (start + 1) = above + 1 := hρ 0 _ rfl
    have htail := same (start + 1) ρ fun i n hn => by
      rw [← hρ (i + 1) n hn]
      congr 1
      omega
    rw [numberedTokens_cons, numberedTokens_cons, htail]
    split
    · rfl
    · rw [List.map_cons, Line.renumbered, hhead]

theorem Reformats.length_numbers {above : Nat} {ls ls' : List (List Char)} {numbers : List Nat}
    (h : Reformats above ls ls' numbers) : numbers.length = ls.length := by
  induction h with
  | nil => rfl
  | insert _ _ ih => exact ih
  | line _ _ _ ih => rw [List.length_cons, List.length_cons, ih]

theorem number_of_mem_numbered {above : Nat} {rows : List (List (List Char))} {l : Line}
    (h : l ∈ numbered above rows) : above < l.number ∧ l.number ≤ above + rows.length := by
  induction rows generalizing above with
  | nil => cases h
  | cons tokens rows ih =>
    rw [List.length_cons]
    rcases List.mem_cons.1 h with rfl | hrest
    · show above < above + 1 ∧ above + 1 ≤ _
      omega
    · have := ih hrest
      omega

/-- A text in another format has the same lines with other numbers. -/
theorem ofSource_of_reformats {text text' : String} {numbers : List Nat}
    (h : Reformats 0 (splitLines text.toList) (splitLines text'.toList) numbers) :
    ∃ lines, Line.ofSource text = .ok lines ∧
      (∀ l ∈ lines, 0 < l.number ∧ l.number ≤ numbers.length) ∧
      Line.ofSource text' =
        .ok (lines.map (Line.renumbered fun n => numbers.getD (n - 1) 0)) := by
  obtain ⟨rows, rows', hrows, hrows', same⟩ := h.exists_rows
  refine ⟨numberedTokens 0 rows, ofSource_eq_ok_iff.2 ⟨rows, hrows, rfl⟩, fun l hl => ?_, ?_⟩
  · have := number_of_mem_numbered (List.mem_of_mem_filter hl)
    rwa [Nat.zero_add, ← hrows.length_eq, ← h.length_numbers] at this
  · refine ofSource_eq_ok_iff.2 ⟨rows', hrows', (same 0 _ fun i n hn => ?_).symm⟩
    rw [Nat.zero_add, Nat.add_sub_cancel, List.getD_eq_getElem?_getD, hn, Option.getD_some]

end WordMachine.Source
