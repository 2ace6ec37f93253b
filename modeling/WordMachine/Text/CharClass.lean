namespace WordMachine.Text

/-!
# Character classes

* `isWhite` — the Unicode property `White_Space`.
* `isControl` — the Unicode general category `Cc`.
* `trimRight` — text without its final run of white space.
-/

/-- The characters with the Unicode property `White_Space`. -/
def isWhite (c : Char) : Bool :=
  let n := c.toNat
  (9 ≤ n && n ≤ 13) || n == 0x20 || n == 0x85 || n == 0xA0 || n == 0x1680 ||
    (0x2000 ≤ n && n ≤ 0x200A) || n == 0x2028 || n == 0x2029 || n == 0x202F || n == 0x205F ||
    n == 0x3000

/-- The characters of the Unicode general category `Cc`. -/
def isControl (c : Char) : Bool :=
  let n := c.toNat
  n < 0x20 || (0x7F ≤ n && n < 0xA0)

/-- Text without its final run of white space. -/
def trimRight (cs : List Char) : List Char :=
  (cs.reverse.dropWhile isWhite).reverse

end WordMachine.Text
