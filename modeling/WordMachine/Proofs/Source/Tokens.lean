import Mathlib.Data.List.TakeWhile
import WordMachine.Source.Line

namespace WordMachine.Source

/-!
# The tokens of a line

A double quote at the start of a token opens a string if the line closes it, and is a character like
any other if not. So whether a line has tokens, and which, seems to depend on all of what follows
each quote. A scan from the left that knows where it stands tells as much.

* `outside` — the characters that a scan finds outside of strings and in front of the comment;
  `Tokenizable` — that the white space among them is spaces and tabs.
* `Begins` — a token at the front of a text; `token?_eq_some_iff` — the tokenizer finds it.
* `Tokenizes` — the grammar of a line: gaps, tokens and a comment, which spell it.
* `line_induction` — any text is in the grammar or has white space where the grammar has none.
* `tokens?_eq_some_iff`, `isSome_tokens?_iff` — the tokenizer agrees with grammar and scan.
* `ofText_follows_grammar` — all of this for numbered lines.
-/

/-! ### A scan from the left -/

/-- Where a scan of a line stands: where a token may start, inside of a string, or inside of a token
that is none. -/
inductive Scan where
  | front | string | bare
  deriving DecidableEq, Repr

/-- The characters outside of strings and in front of the comment. A string starts with a double
quote where a token may start, and ends with the next one, if there is one. -/
def outside : Scan → List Char → List Char
  | _, [] => []
  | .string, c :: cs => outside (if c = '"' then .front else .string) cs
  | .front, c :: cs =>
    if c = ';' then []
    else if c = '"' ∧ '"' ∈ cs then outside .string cs
    else c :: outside (if isGap c then .front else .bare) cs
  | .bare, c :: cs =>
    if c = ';' then [] else c :: outside (if isGap c then .front else .bare) cs

/-- Any white space outside of strings and in front of the comment is spaces and tabs. -/
def Tokenizable (cs : List Char) : Prop :=
  ∀ c ∈ outside .front cs, Text.isWhite c = true → isGap c = true

instance (cs : List Char) : Decidable (Tokenizable cs) :=
  List.decidableBAll _ _

/-! ### The grammar -/

/-- Spaces and tabs. -/
def Gap (cs : List Char) : Prop :=
  ∀ c ∈ cs, isGap c = true

/-- Nothing, or a semicolon with whatever stands behind it. -/
def Comment (cs : List Char) : Prop :=
  cs = [] ∨ ∃ text, cs = ';' :: text

/-- A token at the front of a text, and what follows it: a string, or else a run without white space
and semicolons that goes as far as it can. -/
inductive Begins : List Char → List Char → List Char → Prop where
  | string {body rest : List Char} (closed : '"' ∉ body) :
      Begins ('"' :: body ++ '"' :: rest) ('"' :: body ++ ['"']) rest
  | bare {run rest : List Char} (nonempty : run ≠ []) (bare : ∀ c ∈ run, isBare c = true)
      (maximal : ∀ c, rest.head? = some c → isBare c = false)
      (unclosed : ∀ cs, run ++ rest = '"' :: cs → '"' ∉ cs) : Begins (run ++ rest) run rest

/-- The tokens of a line. -/
inductive Tokenizes : List Char → List (List Char) → Prop where
  | done {gap comment : List Char} (gap_gap : Gap gap) (comment_comment : Comment comment) :
      Tokenizes (gap ++ comment) []
  | token {gap cs token rest : List Char} {tokens : List (List Char)} (gap_gap : Gap gap)
      (begins : Begins cs token rest) (tokenizes : Tokenizes rest tokens) :
      Tokenizes (gap ++ cs) (token :: tokens)

/-! ### Characters -/

theorem isBare_iff {c : Char} : isBare c = true ↔ Text.isWhite c = false ∧ c ≠ ';' := by
  simp [isBare]

theorem isBare_of_isGap {c : Char} (h : isGap c = true) : isBare c = false := by
  simp only [isGap, Bool.or_eq_true, beq_iff_eq] at h
  rcases h with rfl | rfl <;> decide

theorem isGap_of_isBare {c : Char} (h : isBare c = true) : isGap c = false := by
  by_contra hgap
  rw [Bool.not_eq_false] at hgap
  rw [isBare_of_isGap hgap] at h
  cases h

/-! ### A token at the front -/

section Run

variable {p : Char → Bool} {front rest : List Char} (inside : ∀ c ∈ front, p c = true)
  (boundary : ∀ c, rest.head? = some c → p c = false)

include inside boundary

theorem takeWhile_append_of_boundary : (front ++ rest).takeWhile p = front := by
  rw [List.takeWhile_append_of_pos inside]
  cases rest with
  | nil => simp
  | cons c rest => simp [boundary c rfl]

theorem dropWhile_append_of_boundary : (front ++ rest).dropWhile p = rest := by
  have hsplit := List.takeWhile_append_dropWhile (p := p) (l := front ++ rest)
  rw [takeWhile_append_of_boundary inside boundary] at hsplit
  exact List.append_cancel_left hsplit

end Run

theorem head?_dropWhile_eq {p : Char → Bool} {cs : List Char} {c : Char}
    (h : (cs.dropWhile p).head? = some c) : p c = false := by
  have hnot := List.head?_dropWhile_not p cs
  rwa [h] at hnot

theorem bareToken?_append_of_bare {run rest : List Char} (nonempty : run ≠ [])
    (bare : ∀ c ∈ run, isBare c = true)
    (maximal : ∀ c, rest.head? = some c → isBare c = false) :
    bareToken? (run ++ rest) = some (run, rest) := by
  rw [bareToken?, takeWhile_append_of_boundary bare maximal,
    dropWhile_append_of_boundary bare maximal]
  cases run with
  | nil => exact absurd rfl nonempty
  | cons c run => rfl

theorem Begins.token?_eq {cs token rest : List Char} (h : Begins cs token rest) :
    token? cs = some (token, rest) := by
  cases h with
  | @string body rest closed =>
    have inside : ∀ c ∈ body, (c != '"') = true := by
      rintro c hc
      rw [bne_iff_ne]
      rintro rfl
      exact closed hc
    have boundary : ∀ c, ('"' :: rest).head? = some c → (c != '"') = false := by
      rintro c ⟨⟩
      rfl
    simp only [token?, List.cons_append]
    rw [if_pos (by simp), takeWhile_append_of_boundary inside boundary,
      dropWhile_append_of_boundary inside boundary]
    rfl
  | @bare run rest nonempty bare maximal unclosed =>
    have hbare := bareToken?_append_of_bare nonempty bare maximal
    unfold token?
    split
    · next cs hcs =>
      rw [if_neg (by simpa using unclosed cs hcs), ← hcs, hbare]
    · exact hbare

theorem begins_of_bareToken? {cs token rest : List Char}
    (h : bareToken? cs = some (token, rest)) (unclosed : ∀ ds, cs = '"' :: ds → '"' ∉ ds) :
    Begins cs token rest := by
  obtain ⟨rfl, nonempty⟩ := bareToken?_append h
  unfold bareToken? at h
  split at h
  · cases h
  · next c run hrun =>
    obtain ⟨htoken, hrest⟩ := Prod.mk.inj (Option.some.inj h)
    refine .bare nonempty ?_ ?_ unclosed
    · intro d hd
      rw [← htoken, ← hrun] at hd
      exact List.mem_takeWhile_imp hd
    · intro d hd
      rw [← hrest] at hd
      exact head?_dropWhile_eq hd

/-- The tokenizer finds the token at the front. -/
theorem token?_eq_some_iff {cs token rest : List Char} :
    token? cs = some (token, rest) ↔ Begins cs token rest := by
  refine ⟨?_, Begins.token?_eq⟩
  intro h
  unfold token? at h
  split at h
  · next cs =>
    split at h
    · next hq =>
      obtain ⟨rfl, rfl⟩ := Prod.mk.inj (Option.some.inj h)
      have closed : '"' ∉ cs.takeWhile (· != '"') := by
        intro hmem
        simpa using List.mem_takeWhile_imp hmem
      have hbegins : Begins
          ('"' :: cs.takeWhile (· != '"') ++ '"' :: (cs.dropWhile (· != '"')).tail) _ _ :=
        .string closed
      rwa [List.cons_append,
        takeWhile_append_cons_dropWhile (List.contains_iff_mem.1 hq)] at hbegins
    · next hq =>
      apply begins_of_bareToken? h
      rintro ds ⟨⟩
      simpa using hq
  · next hne =>
    exact begins_of_bareToken? h fun ds hds => absurd hds (hne ds)

theorem bareToken?_cons_eq_none_iff {c : Char} {cs : List Char} :
    bareToken? (c :: cs) = none ↔ isBare c = false := by
  rw [bareToken?, List.takeWhile_cons]
  cases isBare c <;> simp

/-- There is none where the first character belongs to no run. -/
theorem token?_cons_eq_none_iff {c : Char} {cs : List Char} :
    token? (c :: cs) = none ↔ isBare c = false := by
  unfold token?
  split
  · next ds hds =>
    obtain ⟨rfl, rfl⟩ := List.cons.inj hds
    -- A double quote opens a string or else belongs to a run.
    have hbare : isBare '"' = true := by decide
    split
    · simp [hbare]
    · exact bareToken?_cons_eq_none_iff
  · exact bareToken?_cons_eq_none_iff

/-! ### The tokens -/

theorem Begins.head_bare {cs token rest : List Char} (h : Begins cs token rest) {c : Char}
    (hc : cs.head? = some c) : isBare c = true := by
  obtain ⟨ds, rfl⟩ := List.head?_eq_some_iff.1 hc
  by_contra hbare
  have hnone : token? (c :: ds) = none := token?_cons_eq_none_iff.2 (by simpa using hbare)
  rw [h.token?_eq] at hnone
  cases hnone

theorem tokens?_gap_append_of_begins {gap cs token rest : List Char} (gap_gap : Gap gap)
    (h : Begins cs token rest) : tokens? (gap ++ cs) = (tokens? rest).map (token :: ·) := by
  have htoken : token? ((gap ++ cs).dropWhile isGap) = some (token, rest) := by
    rw [dropWhile_append_of_boundary gap_gap fun c hc => isGap_of_isBare (h.head_bare hc)]
    exact h.token?_eq
  unfold tokens?
  rw [tokensFrom_of_some htoken, tokensFrom_eq]
  -- The text that is left decides, and it is the same on both sides.
  rcases tokensFrom [] rest with ⟨tokens, left⟩
  cases left with
  | nil => rfl
  | cons c left =>
    by_cases hc : c = ';'
    · subst hc
      rfl
    · simp [hc]

theorem tokens?_gap_append_of_comment {gap comment : List Char} (gap_gap : Gap gap)
    (h : Comment comment) : tokens? (gap ++ comment) = some [] := by
  rcases h with rfl | ⟨text, rfl⟩
  · have hdrop : (gap ++ []).dropWhile isGap = [] :=
      dropWhile_append_of_boundary gap_gap (by simp)
    rw [tokens?, tokensFrom_of_none (by rw [hdrop]; rfl), hdrop]
    rfl
  · have hdrop : (gap ++ ';' :: text).dropWhile isGap = ';' :: text :=
      dropWhile_append_of_boundary gap_gap (by rintro c ⟨⟩; rfl)
    rw [tokens?, tokensFrom_of_none (by rw [hdrop, token?_cons_eq_none_iff]; rfl), hdrop]
    rfl

theorem tokens?_gap_append_of_white {gap cs : List Char} {c : Char} (gap_gap : Gap gap)
    (white : Text.isWhite c = true) (not_gap : isGap c = false) :
    tokens? (gap ++ c :: cs) = none := by
  have hdrop : (gap ++ c :: cs).dropWhile isGap = c :: cs :=
    dropWhile_append_of_boundary gap_gap (by rintro d ⟨⟩; exact not_gap)
  have hbare : isBare c = false := by simp [isBare, white]
  rw [tokens?, tokensFrom_of_none (by rw [hdrop, token?_cons_eq_none_iff]; exact hbare), hdrop]
  have hne : c ≠ ';' := by
    rintro rfl
    revert white
    decide
  simp [hne]

/-- Each text is a gap in front of a comment, of white space that parts no tokens, or of a token and
a text of which as much holds. -/
@[elab_as_elim]
theorem line_induction {motive : List Char → Prop}
    (comment : ∀ gap comment, Gap gap → Comment comment → motive (gap ++ comment))
    (white : ∀ gap c cs, Gap gap → Text.isWhite c = true → isGap c = false →
      motive (gap ++ c :: cs))
    (token : ∀ gap cs token rest, Gap gap → Begins cs token rest → motive rest →
      motive (gap ++ cs)) (cs : List Char) : motive cs := by
  have gap_gap : Gap (cs.takeWhile isGap) := fun c hc => List.mem_takeWhile_imp hc
  have hsplit := List.takeWhile_append_dropWhile (p := isGap) (l := cs)
  rw [← hsplit]
  match htoken : token? (cs.dropWhile isGap) with
  | some (found, rest) =>
    have ih := line_induction comment white token rest
    exact token _ _ found rest gap_gap (token?_eq_some_iff.1 htoken) ih
  | none =>
    cases hleft : cs.dropWhile isGap with
    | nil => exact comment _ _ gap_gap (.inl rfl)
    | cons c left =>
      have hgap : isGap c = false := head?_dropWhile_eq (by rw [hleft]; rfl)
      rw [hleft, token?_cons_eq_none_iff] at htoken
      by_cases hc : c = ';'
      · subst hc
        exact comment _ _ gap_gap (.inr ⟨left, rfl⟩)
      · have hwhite : Text.isWhite c = true := by simpa [isBare, hc] using htoken
        exact white _ c left gap_gap hwhite hgap
termination_by cs.length
decreasing_by exact length_lt_of_token? htoken

/-- The tokenizer yields the tokens of the grammar. -/
theorem tokens?_eq_some_iff {cs : List Char} {tokens : List (List Char)} :
    tokens? cs = some tokens ↔ Tokenizes cs tokens := by
  constructor
  · induction cs using line_induction generalizing tokens with
    | comment gap comment gap_gap comment_comment =>
      rw [tokens?_gap_append_of_comment gap_gap comment_comment]
      rintro ⟨⟩
      exact .done gap_gap comment_comment
    | white gap c cs gap_gap white not_gap =>
      rw [tokens?_gap_append_of_white gap_gap white not_gap]
      rintro ⟨⟩
    | token gap cs token rest gap_gap begins ih =>
      rw [tokens?_gap_append_of_begins gap_gap begins, Option.map_eq_some_iff]
      rintro ⟨tokens, htokens, rfl⟩
      exact .token gap_gap begins (ih htokens)
  · intro h
    induction h with
    | done gap_gap comment_comment => exact tokens?_gap_append_of_comment gap_gap comment_comment
    | token gap_gap begins _ ih =>
      rw [tokens?_gap_append_of_begins gap_gap begins, ih, Option.map_some]

/-! ### The scan -/

theorem outside_gap_append {gap : List Char} (gap_gap : Gap gap) (cs : List Char) :
    outside .front (gap ++ cs) = gap ++ outside .front cs := by
  induction gap with
  | nil => rfl
  | cons c gap ih =>
    have hc : isGap c = true := gap_gap c (by simp)
    have hbare := isBare_of_isGap hc
    have hquote : c ≠ '"' := by rintro rfl; revert hc; decide
    have hcomment : c ≠ ';' := by rintro rfl; revert hc; decide
    simp only [List.cons_append, outside, hquote, hcomment, hc, if_false, false_and, if_true]
    rw [ih fun d hd => gap_gap d (by simp [hd])]

theorem outside_string_append {body : List Char} (closed : '"' ∉ body) (rest : List Char) :
    outside .string (body ++ '"' :: rest) = outside .front rest := by
  induction body with
  | nil => simp [outside]
  | cons c body ih =>
    rw [List.mem_cons, not_or] at closed
    rw [List.cons_append, outside, if_neg (Ne.symm closed.1), ih closed.2]

theorem outside_bare_append {run : List Char} (bare : ∀ c ∈ run, isBare c = true)
    (rest : List Char) : outside .bare (run ++ rest) = run ++ outside .bare rest := by
  induction run with
  | nil => rfl
  | cons c run ih =>
    have hc := bare c (by simp)
    have hcomment := (isBare_iff.1 hc).2
    simp only [List.cons_append, outside, hcomment, isGap_of_isBare hc, if_false,
      Bool.false_eq_true]
    rw [ih fun d hd => bare d (by simp [hd])]

/-- Behind a run, a token may start. -/
theorem outside_bare_eq {rest : List Char}
    (maximal : ∀ c, rest.head? = some c → isBare c = false) :
    outside .bare rest = outside .front rest := by
  cases rest with
  | nil => rfl
  | cons c rest =>
    have hquote : c ≠ '"' := by
      rintro rfl
      exact absurd (maximal _ rfl) (by decide)
    simp [outside, hquote]

/-- The scan passes over a string. -/
theorem outside_string {body : List Char} (closed : '"' ∉ body) (rest : List Char) :
    outside .front ('"' :: body ++ '"' :: rest) = outside .front rest := by
  rw [List.cons_append, outside, if_neg (by decide), if_pos (by simp),
    outside_string_append closed]

/-- The scan finds all of a run. -/
theorem outside_run {run rest : List Char} (nonempty : run ≠ [])
    (bare : ∀ c ∈ run, isBare c = true) (maximal : ∀ c, rest.head? = some c → isBare c = false)
    (unclosed : ∀ cs, run ++ rest = '"' :: cs → '"' ∉ cs) :
    outside .front (run ++ rest) = run ++ outside .front rest := by
  cases run with
  | nil => exact absurd rfl nonempty
  | cons c run =>
    have hc := bare c (by simp)
    have hopens : ¬ (c = '"' ∧ '"' ∈ run ++ rest) := by
      rintro ⟨rfl, hmem⟩
      exact unclosed _ rfl hmem
    rw [List.cons_append, outside, if_neg (isBare_iff.1 hc).2, if_neg hopens,
      if_neg (by simp [isGap_of_isBare hc]), outside_bare_append fun d hd => bare d (by simp [hd]),
      outside_bare_eq maximal]
    rfl

theorem Begins.tokenizable_iff {cs token rest : List Char} (h : Begins cs token rest) :
    Tokenizable cs ↔ Tokenizable rest := by
  unfold Tokenizable
  cases h with
  | string closed => rw [outside_string closed]
  | @bare run rest nonempty bare maximal unclosed =>
    rw [outside_run nonempty bare maximal unclosed, List.forall_mem_append, and_iff_right]
    -- No character of a run is white space.
    intro c hc hwhite
    rw [(isBare_iff.1 (bare c hc)).1] at hwhite
    cases hwhite

theorem tokenizable_gap_append_iff {gap cs : List Char} (gap_gap : Gap gap) :
    Tokenizable (gap ++ cs) ↔ Tokenizable cs := by
  unfold Tokenizable
  rw [outside_gap_append gap_gap, List.forall_mem_append, and_iff_right]
  exact fun c hc _ => gap_gap c hc

theorem tokenizable_of_comment {comment : List Char} (h : Comment comment) :
    Tokenizable comment := by
  rcases h with rfl | ⟨text, rfl⟩ <;> simp [Tokenizable, outside]

theorem not_tokenizable_of_white {c : Char} {cs : List Char} (white : Text.isWhite c = true)
    (not_gap : isGap c = false) : ¬ Tokenizable (c :: cs) := by
  intro h
  have hcomment : c ≠ ';' := by rintro rfl; revert white; decide
  have hquote : c ≠ '"' := by rintro rfl; revert white; decide
  have hmem : c ∈ outside .front (c :: cs) := by simp [outside, hcomment, hquote]
  rw [h c hmem white] at not_gap
  cases not_gap

/-- A line has tokens if any white space outside of strings and comments is spaces and tabs. -/
theorem isSome_tokens?_iff {cs : List Char} : (tokens? cs).isSome ↔ Tokenizable cs := by
  induction cs using line_induction with
  | comment gap comment gap_gap comment_comment =>
    rw [tokens?_gap_append_of_comment gap_gap comment_comment, tokenizable_gap_append_iff gap_gap]
    simpa using tokenizable_of_comment comment_comment
  | white gap c cs gap_gap white not_gap =>
    rw [tokens?_gap_append_of_white gap_gap white not_gap, tokenizable_gap_append_iff gap_gap]
    simpa using not_tokenizable_of_white white not_gap
  | token gap cs token rest gap_gap begins ih =>
    rw [tokens?_gap_append_of_begins gap_gap begins, tokenizable_gap_append_iff gap_gap,
      begins.tokenizable_iff, ← ih, Option.isSome_map]

-- White space in a string or a comment does no harm. A double quote inside of a run opens nothing.
example : Tokenizable "psh \"a;\u00a0b\" ; \u00a0".toList := by decide
example : ¬ Tokenizable "psh x\"a\u00a0b\"".toList := by decide

/-! ### Numbered lines -/

/-- Gaps, tokens and comment spell the line. -/
theorem Tokenizes.spelled {cs : List Char} {tokens : List (List Char)} (h : Tokenizes cs tokens) :
    ∃ gaps last comment, gaps.length = tokens.length ∧ (∀ gap ∈ gaps, Gap gap) ∧ Gap last ∧
      Comment comment ∧ cs = (List.zipWith (· ++ ·) gaps tokens).flatten ++ last ++ comment := by
  induction h with
  | @done gap comment gap_gap comment_comment =>
    exact ⟨[], gap, comment, rfl, by simp, gap_gap, comment_comment, by simp⟩
  | @token gap cs token rest tokens gap_gap begins _ ih =>
    obtain ⟨gaps, last, comment, hlength, hgaps, hlast, hcomment, hspelled⟩ := ih
    refine ⟨gap :: gaps, last, comment, by simp [hlength], ?_, hlast, hcomment, ?_⟩
    · simpa using ⟨gap_gap, hgaps⟩
    · rw [← (token?_append begins.token?_eq).1, hspelled]
      simp

theorem ofText_eq_ok_iff {number : Nat} {text : String} {line : Line} :
    Line.ofText number text = .ok line ↔
      line.number = number ∧ tokens? text.toList = some (line.tokens.map String.toList) := by
  unfold Line.ofText
  obtain ⟨n, tokens⟩ := line
  cases tokens? text.toList with
  | none => simp
  | some found =>
    have hofList : found.map String.ofList = tokens ↔ found = tokens.map String.toList := by
      constructor
      · rintro rfl
        simp
      · rintro rfl
        simp
    simp [hofList, eq_comm (a := n)]

/-- **The grammar of lines.** A line of text is tokenized if any white space outside of strings and
in front of the comment is spaces and tabs, and is an error with its number and text otherwise. Its
tokens are those of the grammar, and with the gaps and the comment they spell the text. -/
theorem ofText_follows_grammar (number : Nat) (text : String) :
    ((∃ line, Line.ofText number text = .ok line) ↔ Tokenizable text.toList) ∧
    (¬ Tokenizable text.toList →
      Line.ofText number text = .error (.untokenizable number text)) ∧
    (∀ line, Line.ofText number text = .ok line ↔
      line.number = number ∧ Tokenizes text.toList (line.tokens.map String.toList)) ∧
    ∀ line, Line.ofText number text = .ok line →
      ∃ gaps last comment, gaps.length = line.tokens.length ∧ (∀ gap ∈ gaps, Gap gap) ∧ Gap last ∧
        Comment comment ∧
        text.toList = (List.zipWith (· ++ ·) gaps (line.tokens.map String.toList)).flatten ++
          last ++ comment := by
  have accepted : ∀ line, Line.ofText number text = .ok line ↔
      line.number = number ∧ Tokenizes text.toList (line.tokens.map String.toList) := by
    intro line
    rw [ofText_eq_ok_iff, tokens?_eq_some_iff]
  refine ⟨?_, ?_, accepted, ?_⟩
  · rw [← isSome_tokens?_iff]
    unfold Line.ofText
    cases tokens? text.toList <;> simp
  · rw [← isSome_tokens?_iff, Option.not_isSome_iff_eq_none]
    intro htokens
    rw [Line.ofText, htokens]
  · intro line hline
    have hspelled := ((accepted line).1 hline).2.spelled
    rwa [List.length_map] at hspelled

end WordMachine.Source
