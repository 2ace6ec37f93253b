import WordMachine.Assembly.Error
import WordMachine.Text.CharClass

namespace WordMachine.Source

/-!
# Lines and tokens of assembly text

* `tokens?` — the tokens of one line. Spaces and tabs part tokens, a double-quoted string is one
  token, and a semicolon outside a string starts a comment.
* `splitLines` — the lines of a text.
* `Line.ofText` and `Line.ofSource` — numbered lines of tokens.
-/

/-- A numbered line as a list of tokens. -/
structure Line where
  number : Nat
  tokens : List String
  deriving DecidableEq, Repr

/-! ### Tokens -/

/-- The characters that part tokens. -/
def isGap (c : Char) : Bool :=
  c == ' ' || c == '\t'

/-- The characters of a token that is not a string. -/
def isBare (c : Char) : Bool :=
  !Text.isWhite c && c != ';'

/-- The run of bare characters at the front, and what follows it. -/
def bareToken? (cs : List Char) : Option (List Char × List Char) :=
  match cs.takeWhile isBare with
  | [] => none
  | c :: token => some (c :: token, cs.dropWhile isBare)

/-- The token at the front, and what follows it. A double quote opens a string if the line closes
it; otherwise it is a bare character like any other. -/
def token? : List Char → Option (List Char × List Char)
  | '"' :: cs =>
    -- The token keeps both quotes, and another token may follow at once.
    if cs.contains '"' then
      some ('"' :: cs.takeWhile (· != '"') ++ ['"'], (cs.dropWhile (· != '"')).tail)
    else bareToken? ('"' :: cs)
  | cs => bareToken? cs

theorem bareToken?_append {cs token rest : List Char} (h : bareToken? cs = some (token, rest)) :
    token ++ rest = cs ∧ token ≠ [] := by
  unfold bareToken? at h
  split at h
  · cases h
  · next c t ht =>
    obtain ⟨rfl, rfl⟩ := Prod.mk.inj (Option.some.inj h)
    exact ⟨by rw [← ht, List.takeWhile_append_dropWhile], by simp⟩

theorem takeWhile_append_cons_dropWhile {c : Char} {cs : List Char} (h : c ∈ cs) :
    cs.takeWhile (· != c) ++ c :: (cs.dropWhile (· != c)).tail = cs := by
  induction cs with
  | nil => cases h
  | cons d cs ih =>
    by_cases hd : d = c
    · subst hd
      simp
    · have : c ∈ cs := (List.mem_cons.1 h).resolve_left (Ne.symm hd)
      simp [hd, ih this]

/-- A token and what follows it are the text they are taken from. -/
theorem token?_append {cs token rest : List Char} (h : token? cs = some (token, rest)) :
    token ++ rest = cs ∧ token ≠ [] := by
  unfold token? at h
  split at h
  · next cs =>
    split at h
    · next hq =>
      obtain ⟨rfl, rfl⟩ := Prod.mk.inj (Option.some.inj h)
      refine ⟨?_, by simp⟩
      simpa using takeWhile_append_cons_dropWhile (List.contains_iff_mem.1 hq)
    · exact bareToken?_append h
  · exact bareToken?_append h

theorem length_lt_of_token? {cs token rest : List Char}
    (h : token? (cs.dropWhile isGap) = some (token, rest)) : rest.length < cs.length := by
  obtain ⟨happ, hne⟩ := token?_append h
  have hlen := congrArg List.length happ
  have hdrop := (List.dropWhile_suffix isGap (l := cs)).length_le
  have := List.length_pos_iff.2 hne
  simp only [List.length_append] at hlen
  omega

/-- The tokens behind those already found, which `done` holds last token first, and the text from
the first character that neither parts tokens nor starts one. -/
def tokensFrom (done : List (List Char)) (cs : List Char) : List (List Char) × List Char :=
  match _h : token? (cs.dropWhile isGap) with
  | none => (done.reverse, cs.dropWhile isGap)
  | some (token, rest) => tokensFrom (token :: done) rest
termination_by cs.length
decreasing_by exact length_lt_of_token? _h

/-- Where nothing starts a token, the tokens end. -/
theorem tokensFrom_of_none {cs : List Char} (h : token? (cs.dropWhile isGap) = none)
    (done : List (List Char)) : tokensFrom done cs = (done.reverse, cs.dropWhile isGap) := by
  rw [tokensFrom]
  split
  · rfl
  · next h' => rw [h] at h'; cases h'

/-- A token at the front is the next one. -/
theorem tokensFrom_of_some {cs token rest : List Char}
    (h : token? (cs.dropWhile isGap) = some (token, rest)) (done : List (List Char)) :
    tokensFrom done cs = tokensFrom (token :: done) rest := by
  rw [tokensFrom]
  split
  · next h' => rw [h] at h'; cases h'
  · next h' =>
    rw [h] at h'
    obtain ⟨rfl, rfl⟩ := Prod.mk.inj (Option.some.inj h')
    rfl

theorem tokensFrom_eq (done : List (List Char)) (cs : List Char) :
    tokensFrom done cs = (done.reverse ++ (tokensFrom [] cs).1, (tokensFrom [] cs).2) := by
  match h : token? (cs.dropWhile isGap) with
  | none => simp [tokensFrom_of_none h]
  | some (token, rest) =>
    rw [tokensFrom_of_some h, tokensFrom_of_some h, tokensFrom_eq (_ :: done), tokensFrom_eq [_]]
    simp
termination_by cs.length
decreasing_by
  all_goals exact length_lt_of_token? h

/-- The tokens of a line; none if white space other than spaces and tabs stands between them. -/
def tokens? (cs : List Char) : Option (List (List Char)) :=
  match tokensFrom [] cs with
  | (tokens, []) => some tokens
  | (tokens, ';' :: _) => some tokens
  | _ => none

/-- The tokens of one line of text. -/
def Line.ofText (number : Nat) (text : String) : Except AssemblyError Line :=
  match tokens? text.toList with
  | some tokens => .ok ⟨number, tokens.map String.ofList⟩
  | none => .error (.untokenizable number text)

/-! ### Lines -/

/-- The pieces between line feeds. -/
def splitFeeds (cs : List Char) : List (List Char) :=
  cs.foldr
    (fun c pieces =>
      if c = '\n' then [] :: pieces
      else
        match pieces with
        | [] => [[c]]
        | piece :: pieces => (c :: piece) :: pieces)
    [[]]

@[simp]
theorem splitFeeds_nil : splitFeeds [] = [[]] := rfl

@[simp]
theorem splitFeeds_feed (cs : List Char) : splitFeeds ('\n' :: cs) = [] :: splitFeeds cs := rfl

theorem splitFeeds_ne_nil (cs : List Char) : splitFeeds cs ≠ [] := by
  cases cs with
  | nil => simp
  | cons c cs =>
    rw [splitFeeds, List.foldr_cons]
    split
    · simp
    · split <;> simp

/-- Any other character belongs to the first piece. -/
theorem splitFeeds_cons {c : Char} (h : c ≠ '\n') {cs piece : List Char}
    {pieces : List (List Char)} (hs : splitFeeds cs = piece :: pieces) :
    splitFeeds (c :: cs) = (c :: piece) :: pieces := by
  rw [splitFeeds, List.foldr_cons, if_neg h]
  rw [splitFeeds] at hs
  rw [hs]

/-- A line without a carriage return at its end. -/
def chopReturn (line : List Char) : List Char :=
  if line.getLast? = some '\r' then line.dropLast else line

/-- The lines of a text. Each ends with a line feed, which a carriage return may precede; text
behind the last line feed is a line of its own unless it is empty. -/
def splitLines (cs : List Char) : List (List Char) :=
  let pieces := splitFeeds cs
  -- The last piece is not ended by a line feed.
  pieces.dropLast.map chopReturn ++ pieces.getLast?.toList.filter (· ≠ [])

/-- The numbered lines of a source text that hold tokens. -/
def Line.ofSource (text : String) : Except AssemblyError (List Line) := do
  let lines ← (splitLines text.toList).zipIdx.mapM fun (line, i) =>
    Line.ofText (i + 1) (String.ofList line)
  return lines.filter fun line => line.tokens ≠ []

end WordMachine.Source
