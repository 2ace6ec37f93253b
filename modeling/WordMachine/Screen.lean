import WordMachine.Layout
import WordMachine.Text.CharClass
import WordMachine.Text.Utf16

namespace WordMachine.Screen

/-!
# Drawing the screen

* `rows` — the words of each row.
* `rowText` — the characters of a row.
* `render` — all rows, parted by line feeds.

A row is read as UTF-16 text on its own, so that no character spans two rows.
-/

/-- The words of the rows, behind those in `done`, which holds the latest first. A width of zero
counts as one. -/
def rowsFrom (done : List (List Word)) (width : Nat) (ws : List Word) : List (List Word) :=
  match ws with
  | [] => done.reverse
  | w :: rest => rowsFrom ((w :: rest.take (width - 1)) :: done) width (rest.drop (width - 1))
termination_by ws.length
decreasing_by
  simp only [List.length_drop, List.length_cons]
  omega

/-- The words of each row of a screen. -/
def rows (s : Screen) (ws : List Word) : List (List Word) :=
  rowsFrom [] s.width.toNat ws

theorem rowsFrom_eq (done : List (List Word)) (width : Nat) (ws : List Word) :
    rowsFrom done width ws = done.reverse ++ rowsFrom [] width ws := by
  match ws with
  | [] => simp [rowsFrom]
  | w :: rest =>
    rw [rowsFrom, rowsFrom, rowsFrom_eq (_ :: done), rowsFrom_eq [_]]
    simp
termination_by ws.length
decreasing_by
  all_goals
    simp only [List.length_drop, List.length_cons]
    omega

@[simp]
theorem rows_nil (s : Screen) : s.rows [] = [] := by
  rw [rows, rowsFrom]
  rfl

theorem rows_cons (s : Screen) (w : Word) (rest : List Word) :
    s.rows (w :: rest) =
      (w :: rest.take (s.width.toNat - 1)) :: s.rows (rest.drop (s.width.toNat - 1)) := by
  rw [rows, rowsFrom, rowsFrom_eq]
  rfl

/-- What is drawn for a decoded character: a space for unpaired surrogates and control
characters. -/
def glyph : Option Char → Char
  | some c => if Text.isControl c then ' ' else c
  | none => ' '

/-- The characters of a row. -/
def rowText (ws : List Word) : List Char :=
  (Text.Utf16.decode ws).map glyph

/-- The text of words drawn on a screen; only the width of the screen matters. -/
def render (s : Screen) (ws : List Word) : String :=
  "\n".intercalate ((s.rows ws).map fun row => String.ofList (rowText row))

end WordMachine.Screen
