import WordMachine.Word

namespace WordMachine.Text.Utf16

/-!
# UTF-16 text in words

* `encode` — the code units of a text, one word each.
* `decode` — the characters that words spell, with `none` for each unpaired surrogate.

A high surrogate directly followed by a low surrogate is one character. `decode_cons` and
`decode_pair` give the reading of a word and of a pair at the front of a list.
-/

/-- Whether a word is the first half of a surrogate pair. -/
def isHigh (w : Word) : Bool :=
  0xD800 ≤ w && w < 0xDC00

/-- Whether a word is the second half of a surrogate pair. -/
def isLow (w : Word) : Bool :=
  0xDC00 ≤ w && w < 0xE000

/-- The one or two code units of a character. -/
def encodeChar (c : Char) : List Word :=
  let n := c.toNat
  if n < 0x10000 then [UInt16.ofNat n]
  else [UInt16.ofNat (0xD800 + (n - 0x10000) / 0x400), UInt16.ofNat (0xDC00 + n % 0x400)]

/-- The code units of a text. -/
def encode (s : String) : List Word :=
  s.toList.flatMap encodeChar

/-- The character of a word that stands alone, none for a surrogate. -/
def single (w : Word) : Option Char :=
  if isHigh w || isLow w then none else some (Char.ofNat w.toNat)

/-- The character of a surrogate pair. -/
def pair (high low : Word) : Char :=
  Char.ofNat (0x10000 + (high.toNat - 0xD800) * 0x400 + (low.toNat - 0xDC00))

/-- Decodes in front of what has been decoded so far, held last character first. -/
def decodeFrom (done : List (Option Char)) : List Word → List (Option Char)
  | [] => done.reverse
  | [w] => (single w :: done).reverse
  | w :: v :: rest =>
    if isHigh w && isLow v then decodeFrom (some (pair w v) :: done) rest
    else decodeFrom (single w :: done) (v :: rest)

/-- The characters that words spell, with `none` for each unpaired surrogate. -/
def decode (ws : List Word) : List (Option Char) :=
  decodeFrom [] ws

theorem decodeFrom_eq :
    ∀ (done : List (Option Char)) (ws : List Word), decodeFrom done ws = done.reverse ++ decode ws
  | done, [] => by simp [decode, decodeFrom]
  | done, [w] => by simp [decode, decodeFrom]
  | done, w :: v :: rest => by
    rw [decode, decodeFrom, decodeFrom]
    split
    · rw [decodeFrom_eq _ rest, decodeFrom_eq [_] rest]
      simp
    · rw [decodeFrom_eq _ (v :: rest), decodeFrom_eq [_] (v :: rest)]
      simp

@[simp]
theorem decode_nil : decode [] = [] := rfl

/-- A pair at the front is one character. -/
theorem decode_pair {w v : Word} (rest : List Word) (h : (isHigh w && isLow v) = true) :
    decode (w :: v :: rest) = some (pair w v) :: decode rest := by
  rw [decode, decodeFrom, if_pos h, decodeFrom_eq]
  rfl

/-- A word that starts no pair stands alone. -/
theorem decode_cons {w : Word} {rest : List Word}
    (h : ∀ v, rest.head? = some v → (isHigh w && isLow v) = false) :
    decode (w :: rest) = single w :: decode rest := by
  cases rest with
  | nil => rfl
  | cons v rest =>
    rw [decode, decodeFrom, if_neg (by simp [h v rfl]), decodeFrom_eq]
    rfl

end WordMachine.Text.Utf16
