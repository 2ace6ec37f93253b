import Mathlib.Order.Nat
import WordMachine.Proofs.Text.Utf16
import WordMachine.Screen

namespace WordMachine.Screen

open Text.Utf16

/-!
# What a screen shows

Words are drawn in rows of equal length, and each row is read as text on its own. What a cell shows
follows from its own word and its two neighbours in the row: a surrogate pair shows its character in
its first cell and nothing in its second, and a cell in no pair shows the character of its word, or
a space.

* `getElem?_rows`, `length_rows` — which words are in a row, and how many rows there are.
* `Shows` — what a cell shows.
* `drawnAs_rowText` — a row is drawn cell by cell.
* `length_rowText` — each pair inside a row makes it one character shorter.
* `render_keeps_rows_apart` — the rows of a rendered screen, parted by the only line feeds.
-/

variable {row : List Word} {w v high low : Word} {k : Nat} {piece : List Char}

/-! ### Rows -/

/-- The number of words in a full row. -/
def columns (s : Screen) : Nat :=
  max 1 s.width.toNat

/-- The words of a row, fewer in a short last one. -/
def rowWords (s : Screen) (ws : List Word) (r : Nat) : List Word :=
  (ws.drop (r * s.columns)).take s.columns

theorem columns_pos (s : Screen) : 0 < s.columns :=
  Nat.le_max_left 1 _

theorem rows_of_ne_nil (s : Screen) {ws : List Word} (h : ws ≠ []) :
    s.rows ws = ws.take s.columns :: s.rows (ws.drop s.columns) := by
  cases ws with
  | nil => contradiction
  | cons w rest =>
    have hcolumns : s.columns = s.width.toNat - 1 + 1 := by
      rw [columns]
      omega
    rw [rows_cons, hcolumns, List.take_succ_cons, List.drop_succ_cons]

theorem getElem?_rows (s : Screen) (ws : List Word) (r : Nat) :
    (s.rows ws)[r]? = if r * s.columns < ws.length then some (s.rowWords ws r) else none := by
  induction r generalizing ws with
  | zero =>
    cases ws with
    | nil => simp
    | cons w rest => simp [rows_of_ne_nil, rowWords]
  | succ r ih =>
    by_cases h : ws = []
    · simp [h]
    · rw [rows_of_ne_nil s h, List.getElem?_cons_succ, ih, rowWords, rowWords, List.drop_drop,
        List.length_drop, Nat.add_one_mul, Nat.add_comm s.columns]
      have hlt : r * s.columns < ws.length - s.columns ↔
        r * s.columns + s.columns < ws.length := by omega
      simp only [hlt]

/-- The words fill all rows but the last. -/
theorem length_rows (s : Screen) (ws : List Word) :
    (s.rows ws).length = (ws.length + s.columns - 1) / s.columns := by
  have hpos := s.columns_pos
  refine eq_of_forall_ge_iff fun r => ?_
  rw [← List.getElem?_eq_none_iff, getElem?_rows, ite_eq_right_iff,
    Nat.div_le_iff_le_mul_add_pred hpos]
  have hnone : (r * s.columns < ws.length → some (s.rowWords ws r) = none) ↔
      ws.length ≤ r * s.columns := by simp
  rw [hnone, Nat.mul_comm s.columns]
  omega

/-! ### Cells -/

/-- Whether two words in a row, one directly behind the other, are a surrogate pair. -/
def PairAt (row : List Word) (k : Nat) (high low : Word) : Prop :=
  row[k]? = some high ∧ row[k + 1]? = some low ∧ isHigh high = true ∧ isLow low = true

/-- Whether a cell of a row is one of the two cells of a surrogate pair. -/
def InPair (row : List Word) (k : Nat) : Prop :=
  ∃ j high low, PairAt row j high low ∧ (k = j ∨ k = j + 1)

/-- The words that show no character of their own: surrogates and control characters, zero among
them. -/
def IsBlank (w : Word) : Prop :=
  0xD800 ≤ w.toNat ∧ w.toNat < 0xE000 ∨ w.toNat < 0x20 ∨ 0x7F ≤ w.toNat ∧ w.toNat < 0xA0

/-- What a cell of a row shows. -/
inductive Shows (row : List Word) (k : Nat) : List Char → Prop
  | pair {high low : Word} {c : Char} (pair : PairAt row k high low)
      (number : c.toNat = 0x10000 + (high.toNat - 0xD800) * 0x400 + (low.toNat - 0xDC00)) :
      Shows row k [c]
  | behind {j : Nat} {high low : Word} (pair : PairAt row j high low) (next : k = j + 1) :
      Shows row k []
  | blank {w : Word} (word : row[k]? = some w) (blank : IsBlank w) (alone : ¬ InPair row k) :
      Shows row k [' ']
  | own {w : Word} {c : Char} (word : row[k]? = some w) (graphic : ¬ IsBlank w)
      (number : c.toNat = w.toNat) : Shows row k [c]

/-- Whether characters are what the cells of a row show, from left to right. -/
def DrawnAs (row : List Word) (text : List Char) : Prop :=
  ∃ pieces : List (List Char), text = pieces.flatten ∧ pieces.length = row.length ∧
    ∀ k piece, pieces[k]? = some piece → Shows row k piece

theorem Shows.eq_blank (shows : Shows row k piece) (word : row[k]? = some w) (blank : IsBlank w)
    (alone : ¬ InPair row k) : piece = [' '] := by
  cases shows with
  | pair pair _ => exact absurd ⟨_, _, _, pair, .inl rfl⟩ alone
  | behind pair next => exact absurd ⟨_, _, _, pair, .inr next⟩ alone
  | blank => rfl
  | own word' graphic _ =>
    rw [word, Option.some_inj] at word'
    exact absurd blank (word' ▸ graphic)

/-- A word that starts no pair is in none with the next one. -/
theorem not_pairAt_zero {rest : List Word}
    (h : ∀ v, rest.head? = some v → (isHigh w && isLow v) = false) (high low : Word) :
    ¬ PairAt (w :: rest) 0 high low := by
  rintro ⟨word, word', high_high, low_low⟩
  cases word
  have hnone := h low (by rw [List.head?_eq_getElem?]; exact word')
  rw [high_high, low_low] at hnone
  contradiction

/-- A cell shows the same behind a further word, unless the two become a pair. -/
theorem Shows.cons (shows : Shows row k piece)
    (apart : k = 0 → ∀ high low, ¬ PairAt (w :: row) 0 high low) :
    Shows (w :: row) (k + 1) piece := by
  cases shows with
  | pair pair number =>
    have shifted : PairAt (w :: row) (k + 1) _ _ := pair
    exact .pair shifted number
  | @behind j high low pair next =>
    have shifted : PairAt (w :: row) (j + 1) high low := pair
    exact .behind shifted (by rw [next])
  | blank word blank alone =>
    refine .blank word blank ?_
    rintro ⟨j, high, low, pair, at_cell⟩
    cases j with
    | zero => exact apart (by omega) high low pair
    | succ j => exact alone ⟨j, high, low, pair, by omega⟩
  | own word graphic number => exact .own word graphic number

/-! ### The characters of a row -/

theorem isControl_iff {c : Char} :
    Text.isControl c = true ↔ c.toNat < 0x20 ∨ 0x7F ≤ c.toNat ∧ c.toNat < 0xA0 := by
  simp [Text.isControl]

theorem glyph_ne_newline (o : Option Char) : glyph o ≠ '\n' := by
  cases o with
  | none => decide
  | some c =>
    show (if Text.isControl c then ' ' else c) ≠ '\n'
    split
    · decide
    · rintro rfl
      contradiction

theorem newline_notMem_rowText (row : List Word) : '\n' ∉ rowText row := by
  rw [rowText, List.mem_map]
  rintro ⟨o, -, newline⟩
  exact glyph_ne_newline o newline

theorem rowText_cons {rest : List Word}
    (h : ∀ v, rest.head? = some v → (isHigh w && isLow v) = false) :
    rowText (w :: rest) = glyph (single w) :: rowText rest := by
  rw [rowText, decode_cons h]
  rfl

theorem rowText_pair (rest : List Word) (h : (isHigh w && isLow v) = true) :
    rowText (w :: v :: rest) = pair w v :: rowText rest := by
  rw [Bool.and_eq_true] at h
  have hnumber := toNat_pair h.1 h.2
  have hcontrol : ¬ Text.isControl (pair w v) = true := by
    rw [isControl_iff]
    omega
  have hglyph : glyph (some (pair w v)) = pair w v := by
    rw [glyph, if_neg hcontrol]
  rw [rowText, decode_pair rest (Bool.and_eq_true_iff.2 h), List.map_cons, hglyph]
  rfl

/-- A word in no pair shows its glyph. -/
theorem shows_glyph_single (word : row[k]? = some w) (alone : ¬ InPair row k) :
    Shows row k [glyph (single w)] := by
  by_cases hsurrogate : isHigh w = true ∨ isLow w = true
  · have hblank : IsBlank w := by
      rw [isHigh_iff, isLow_iff] at hsurrogate
      rw [IsBlank]
      omega
    rw [single_eq_none hsurrogate]
    exact .blank word hblank alone
  · obtain ⟨hhigh, hlow⟩ := not_or.1 hsurrogate
    obtain ⟨c, hsingle, hnumber⟩ := exists_single_eq_some hhigh hlow
    rw [isHigh_iff] at hhigh
    rw [isLow_iff] at hlow
    have hblank : IsBlank w ↔ Text.isControl c = true := by
      rw [isControl_iff, hnumber, IsBlank]
      omega
    rw [hsingle]
    show Shows row k [if Text.isControl c then ' ' else c]
    split
    case isTrue control => exact .blank word (hblank.2 control) alone
    case isFalse graphic => exact .own word (mt hblank.1 graphic) hnumber

/-- Each row is drawn cell by cell. -/
theorem drawnAs_rowText (row : List Word) : DrawnAs row (rowText row) := by
  induction row using decode_induction with
  | nil => exact ⟨[], rfl, rfl, fun k piece found => by simp at found⟩
  | pair w v rest hpair ih =>
    obtain ⟨pieces, htext, hlength, hshows⟩ := ih
    obtain ⟨hhigh, hlow⟩ := Bool.and_eq_true_iff.1 hpair
    have hfirst : PairAt (w :: v :: rest) 0 w v := ⟨rfl, rfl, hhigh, hlow⟩
    refine ⟨[pair w v] :: [] :: pieces, ?_, by simp [hlength], fun k piece found => ?_⟩
    · rw [rowText_pair rest hpair, htext]
      rfl
    · obtain _ | _ | k := k
      · cases found
        exact .pair hfirst (toNat_pair hhigh hlow)
      · cases found
        exact .behind hfirst rfl
      · -- The second half of a pair is no first half.
        have hapart := not_pairAt_zero (starts_no_pair_of_isLow hlow rest)
        exact ((hshows k piece found).cons fun _ => hapart).cons (by omega)
  | single w rest hapart ih =>
    obtain ⟨pieces, htext, hlength, hshows⟩ := ih
    have hfirst := not_pairAt_zero hapart
    refine ⟨[glyph (single w)] :: pieces, ?_, by simp [hlength], fun k piece found => ?_⟩
    · rw [rowText_cons hapart, htext]
      rfl
    · cases k with
      | zero =>
        cases found
        refine shows_glyph_single rfl ?_
        rintro ⟨j, high, low, pair, at_cell⟩
        obtain rfl : j = 0 := by omega
        exact hfirst high low pair
      | succ k => exact (hshows k piece found).cons fun _ => hfirst

/-! ### The length of a row -/

/-- The number of surrogate pairs inside a row. -/
def pairCount (row : List Word) : Nat :=
  (row.zip row.tail).countP fun words => isHigh words.1 && isLow words.2

theorem pairCount_cons_cons (w v : Word) (rest : List Word) :
    pairCount (w :: v :: rest) =
      pairCount (v :: rest) + if (isHigh w && isLow v) = true then 1 else 0 := by
  rw [pairCount, List.tail_cons, List.zip_cons_cons, List.countP_cons]
  rfl

theorem pairCount_cons {rest : List Word}
    (h : ∀ v, rest.head? = some v → (isHigh w && isLow v) = false) :
    pairCount (w :: rest) = pairCount rest := by
  cases rest with
  | nil => rfl
  | cons v rest => simp [pairCount_cons_cons, h v rfl]

/-- Each pair inside a row is one character for two words. -/
theorem length_rowText (row : List Word) :
    (rowText row).length + pairCount row = row.length := by
  induction row using decode_induction with
  | nil => rfl
  | pair w v rest hpair ih =>
    have hlow := (Bool.and_eq_true_iff.1 hpair).2
    have hbehind : pairCount (v :: rest) = pairCount rest :=
      pairCount_cons (starts_no_pair_of_isLow hlow rest)
    rw [rowText_pair rest hpair, pairCount_cons_cons, hbehind, if_pos hpair]
    simp only [List.length_cons]
    omega
  | single w rest hapart ih =>
    rw [rowText_cons hapart, pairCount_cons hapart]
    simp only [List.length_cons]
    omega

/-! ### A pair that two rows share -/

theorem isBlank_of_isHigh (h : isHigh high = true) : IsBlank high := by
  rw [isHigh_iff] at h
  rw [IsBlank]
  omega

/-- The first half of a pair shows a space at the end of a row. -/
theorem getLast?_rowText (last : row.getLast? = some high) (h : isHigh high = true) :
    (rowText row).getLast? = some ' ' := by
  obtain ⟨pieces, htext, hlength, hshows⟩ := drawnAs_rowText row
  rw [List.getLast?_eq_getElem?] at last
  obtain ⟨hpos, -⟩ := List.getElem?_eq_some_iff.1 last
  have hne : pieces ≠ [] := by
    rintro rfl
    rw [List.length_nil] at hlength
    omega
  have hlast : pieces[row.length - 1]? = some (pieces.getLast hne) := by
    rw [← hlength, ← List.getLast?_eq_getElem?, List.getLast?_eq_some_getLast hne]
  have halone : ¬ InPair row (row.length - 1) := by
    rintro ⟨j, high', low, ⟨-, word', -, low_low⟩, rfl | at_cell⟩
    · obtain ⟨hlt, -⟩ := List.getElem?_eq_some_iff.1 word'
      omega
    · rw [← at_cell, last] at word'
      cases word'
      rw [isHigh_of_isLow low_low] at h
      contradiction
  have hblank := (hshows _ _ hlast).eq_blank last (isBlank_of_isHigh h) halone
  rw [htext, ← List.dropLast_concat_getLast hne, hblank, List.flatten_concat,
    List.getLast?_concat]

/-- The second half of a pair shows a space at the start of a row. -/
theorem head?_rowText (head : row.head? = some low) (h : isLow low = true) :
    (rowText row).head? = some ' ' := by
  cases row with
  | nil => contradiction
  | cons w rest =>
    cases head
    rw [rowText_cons (starts_no_pair_of_isLow h rest), single_eq_none (.inr h)]
    rfl

/-! ### The screen -/

theorem getElem?_map_rowText_rows (s : Screen) {ws : List Word} {r : Nat}
    (h : r * s.columns < ws.length) :
    ((s.rows ws).map rowText)[r]? = some (rowText (s.rowWords ws r)) := by
  rw [List.getElem?_map, getElem?_rows, if_pos h]
  rfl

theorem getLast?_rowWords (s : Screen) {ws : List Word} {r : Nat}
    (word : ws[r * s.columns + (s.columns - 1)]? = some w) :
    (s.rowWords ws r).getLast? = some w := by
  have hpos := s.columns_pos
  obtain ⟨hlt, -⟩ := List.getElem?_eq_some_iff.1 word
  have hlength : (s.rowWords ws r).length = s.columns := by
    rw [rowWords, List.length_take, List.length_drop]
    omega
  rw [List.getLast?_eq_getElem?, hlength, rowWords, List.getElem?_take_of_lt (by omega),
    List.getElem?_drop, word]

theorem head?_rowWords (s : Screen) {ws : List Word} {r : Nat}
    (word : ws[r * s.columns]? = some w) : (s.rowWords ws r).head? = some w := by
  rw [List.head?_eq_getElem?, rowWords, List.getElem?_take_of_lt s.columns_pos,
    List.getElem?_drop]
  exact word

/-- **The rows of a rendered screen.** They are parted by line feeds, and there are no others; each
is drawn cell by cell from the words of its row alone, so that it is shorter than these by the pairs
inside it, and a pair that two rows share is a space in each. -/
theorem render_keeps_rows_apart (s : Screen) (ws : List Word) :
    ∃ texts : List (List Char), (s.render ws).toList = ['\n'].intercalate texts ∧
      texts.length = (ws.length + s.columns - 1) / s.columns ∧
      (∀ text ∈ texts, '\n' ∉ text) ∧
      (∀ r text, texts[r]? = some text → DrawnAs (s.rowWords ws r) text ∧
        text.length + pairCount (s.rowWords ws r) = (s.rowWords ws r).length) ∧
      ∀ r high low, ws[r * s.columns + (s.columns - 1)]? = some high →
        ws[(r + 1) * s.columns]? = some low → isHigh high = true → isLow low = true →
        ∃ text next, texts[r]? = some text ∧ texts[r + 1]? = some next ∧
          text.getLast? = some ' ' ∧ next.head? = some ' ' := by
  refine ⟨(s.rows ws).map rowText, ?_, ?_, ?_, ?_, ?_⟩
  · rw [render, String.toList_intercalate, List.map_map]
    simp only [Function.comp_def, String.toList_ofList]
    rfl
  · rw [List.length_map, length_rows]
  · intro text mem
    obtain ⟨row, -, rfl⟩ := List.mem_map.1 mem
    exact newline_notMem_rowText row
  · intro r text found
    have hlt : r * s.columns < ws.length := by
      by_contra hge
      rw [List.getElem?_map, getElem?_rows, if_neg hge] at found
      contradiction
    rw [getElem?_map_rowText_rows s hlt, Option.some_inj] at found
    subst found
    exact ⟨drawnAs_rowText _, length_rowText _⟩
  · intro r high low word word' high_high low_low
    obtain ⟨hlt, -⟩ := List.getElem?_eq_some_iff.1 word
    obtain ⟨hlt', -⟩ := List.getElem?_eq_some_iff.1 word'
    exact ⟨_, _, getElem?_map_rowText_rows s (by omega), getElem?_map_rowText_rows s hlt',
      getLast?_rowText (s.getLast?_rowWords word) high_high,
      head?_rowText (s.head?_rowWords word') low_low⟩

/-- A pair between two rows, in front of a line feed that is drawn as a space. -/
theorem render_keeps_rows_apart_split :
    ∃ texts : List (List Char),
      (render ⟨2, 2⟩ [0x41, 0xD83D, 0xDE00, 0x0A]).toList = ['\n'].intercalate texts ∧
      texts.length = 2 ∧ ∃ text next, texts[0]? = some text ∧ texts[1]? = some next ∧
        text.getLast? = some ' ' ∧ next.head? = some ' ' := by
  obtain ⟨texts, htexts, hlength, -, -, hsplit⟩ :=
    render_keeps_rows_apart ⟨2, 2⟩ [0x41, 0xD83D, 0xDE00, 0x0A]
  exact ⟨texts, htexts, hlength, hsplit 0 0xD83D 0xDE00 rfl rfl (by decide) (by decide)⟩

end WordMachine.Screen
