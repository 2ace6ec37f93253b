import WordMachine.Text.Utf16

namespace WordMachine.Text.Utf16

/-!
# Reading code units back

A character has one code unit that is no surrogate, or a high surrogate and a low one. So the code
units of a text tell where each character ends, whatever follows.

* `toNat_lt_or_lt` — no character is a surrogate.
* `decode_induction` — words start with a pair, or with a word that stands alone.
* `decode_encodeChar_append` — a character is read back in front of any words.
* `decode_encode_eq_map_some` — so is a text, which has no unpaired surrogates.
* `zero_mem_encode_iff` — the zero word stands for the zero character alone.
-/

variable {c : Char}

/-! ### The code units of a character -/

theorem toNat_lt_or_lt (c : Char) :
    c.toNat < 0xD800 ∨ 0xDFFF < c.toNat ∧ c.toNat < 0x110000 :=
  c.valid

theorem encodeChar_of_lt (h : c.toNat < 0x10000) : encodeChar c = [UInt16.ofNat c.toNat] :=
  if_pos h

theorem encodeChar_of_not_lt (h : ¬ c.toNat < 0x10000) :
    encodeChar c = [UInt16.ofNat (0xD800 + (c.toNat - 0x10000) / 0x400),
      UInt16.ofNat (0xDC00 + c.toNat % 0x400)] :=
  if_neg h

theorem isHigh_iff {w : Word} : isHigh w = true ↔ 0xD800 ≤ w.toNat ∧ w.toNat < 0xDC00 := by
  simp [isHigh, UInt16.le_iff_toNat_le, UInt16.lt_iff_toNat_lt]

theorem isLow_iff {w : Word} : isLow w = true ↔ 0xDC00 ≤ w.toNat ∧ w.toNat < 0xE000 := by
  simp [isLow, UInt16.le_iff_toNat_le, UInt16.lt_iff_toNat_lt]

theorem isHigh_of_isLow {w : Word} (h : isLow w = true) : isHigh w = false := by
  rw [isLow_iff] at h
  rw [Bool.eq_false_iff, ne_eq, isHigh_iff]
  omega

/-- The second half of a pair starts no pair. -/
theorem starts_no_pair_of_isLow {w : Word} (h : isLow w = true) (rest : List Word) :
    ∀ v, rest.head? = some v → (isHigh w && isLow v) = false := by
  intro v _
  rw [isHigh_of_isLow h, Bool.false_and]

/-! ### Reading -/

/-- Words start with a surrogate pair or with a word that stands alone. -/
@[elab_as_elim]
theorem decode_induction {motive : List Word → Prop} (nil : motive [])
    (pair : ∀ w v rest, (isHigh w && isLow v) = true → motive rest → motive (w :: v :: rest))
    (single : ∀ w rest, (∀ v, rest.head? = some v → (isHigh w && isLow v) = false) →
      motive rest → motive (w :: rest)) (ws : List Word) : motive ws := by
  match ws with
  | [] => exact nil
  | [w] => exact single w [] (fun v head => by cases head) nil
  | w :: v :: rest =>
    by_cases hpair : (isHigh w && isLow v) = true
    · exact pair w v rest hpair (decode_induction nil pair single rest)
    · refine single w (v :: rest) ?_ (decode_induction nil pair single (v :: rest))
      intro u head
      cases head
      exact Bool.eq_false_iff.2 hpair
termination_by ws.length

theorem toNat_charOfNat {n : Nat} (h : n.isValidChar) : (Char.ofNat n).toNat = n := by
  rw [Char.ofNat, dif_pos h]
  rfl

theorem toNat_pair {high low : Word} (hhigh : isHigh high = true) (hlow : isLow low = true) :
    (pair high low).toNat = 0x10000 + (high.toNat - 0xD800) * 0x400 + (low.toNat - 0xDC00) := by
  rw [isHigh_iff] at hhigh
  rw [isLow_iff] at hlow
  have hvalid : Nat.isValidChar
      (0x10000 + (high.toNat - 0xD800) * 0x400 + (low.toNat - 0xDC00)) := .inr (by omega)
  exact toNat_charOfNat hvalid

theorem single_eq_none {w : Word} (h : isHigh w = true ∨ isLow w = true) : single w = none :=
  if_pos (Bool.or_eq_true_iff.2 h)

/-- A word that is no surrogate stands for the character of its number. -/
theorem exists_single_eq_some {w : Word} (hhigh : ¬ isHigh w = true) (hlow : ¬ isLow w = true) :
    ∃ c, single w = some c ∧ c.toNat = w.toNat := by
  have hword := w.toNat_lt
  refine ⟨Char.ofNat w.toNat, if_neg ?_, ?_⟩
  · rw [Bool.or_eq_true]
    exact not_or.2 ⟨hhigh, hlow⟩
  · rw [isHigh_iff] at hhigh
    rw [isLow_iff] at hlow
    have hvalid : w.toNat.isValidChar := by
      show _ ∨ _
      omega
    exact toNat_charOfNat hvalid

/-- A character that has one code unit is read from it. -/
theorem decode_unit_cons (h : c.toNat < 0x10000) (rest : List Word) :
    decode (UInt16.ofNat c.toNat :: rest) = some c :: decode rest := by
  have hword : (UInt16.ofNat c.toNat).toNat = c.toNat := by
    rw [UInt16.toNat_ofNat']
    omega
  have hvalid := toNat_lt_or_lt c
  have hhigh : isHigh (UInt16.ofNat c.toNat) = false := by
    rw [Bool.eq_false_iff, ne_eq, isHigh_iff, hword]
    omega
  have hlow : isLow (UInt16.ofNat c.toNat) = false := by
    rw [Bool.eq_false_iff, ne_eq, isLow_iff, hword]
    omega
  have hsingle : single (UInt16.ofNat c.toNat) = some c := by
    rw [single, hhigh, hlow, hword, Char.ofNat_toNat]
    rfl
  rw [decode_cons fun v _ => by rw [hhigh, Bool.false_and], hsingle]

/-- Any other character is read from its pair of surrogates. -/
theorem decode_surrogates_cons (h : ¬ c.toNat < 0x10000) (rest : List Word) :
    decode (UInt16.ofNat (0xD800 + (c.toNat - 0x10000) / 0x400) ::
      UInt16.ofNat (0xDC00 + c.toNat % 0x400) :: rest) = some c :: decode rest := by
  have hvalid := toNat_lt_or_lt c
  have hword : (UInt16.ofNat (0xD800 + (c.toNat - 0x10000) / 0x400)).toNat =
      0xD800 + (c.toNat - 0x10000) / 0x400 := by
    rw [UInt16.toNat_ofNat']
    omega
  have hword' : (UInt16.ofNat (0xDC00 + c.toNat % 0x400)).toNat = 0xDC00 + c.toNat % 0x400 := by
    rw [UInt16.toNat_ofNat']
    omega
  have hpair : (isHigh (UInt16.ofNat (0xD800 + (c.toNat - 0x10000) / 0x400)) &&
      isLow (UInt16.ofNat (0xDC00 + c.toNat % 0x400))) = true := by
    rw [Bool.and_eq_true, isHigh_iff, isLow_iff, hword, hword']
    omega
  -- The offset from the first of these characters, put together again.
  have hnumber : 0x10000 + (0xD800 + (c.toNat - 0x10000) / 0x400 - 0xD800) * 0x400 +
      (0xDC00 + c.toNat % 0x400 - 0xDC00) = c.toNat := by omega
  rw [decode_pair rest hpair, pair, hword, hword', hnumber, Char.ofNat_toNat]

theorem decode_encodeChar_append (c : Char) (rest : List Word) :
    decode (encodeChar c ++ rest) = some c :: decode rest := by
  by_cases h : c.toNat < 0x10000
  · rw [encodeChar_of_lt h]
    exact decode_unit_cons h rest
  · rw [encodeChar_of_not_lt h]
    exact decode_surrogates_cons h rest

/-- The code units of a text are read back as the text. -/
theorem decode_encode_eq_map_some (s : String) : decode (encode s) = s.toList.map some := by
  rw [encode]
  induction s.toList with
  | nil => rfl
  | cons c cs ih => rw [List.flatMap_cons, decode_encodeChar_append, ih, List.map_cons]

/-! ### The zero word -/

theorem zero_mem_encodeChar_iff : 0 ∈ encodeChar c ↔ c = '\x00' := by
  have hvalid := toNat_lt_or_lt c
  have hzero : c = '\x00' ↔ c.toNat = 0 := Char.toNat_inj.symm
  by_cases h : c.toNat < 0x10000
  · rw [encodeChar_of_lt h, List.mem_singleton, hzero, ← UInt16.toNat_inj, UInt16.toNat_ofNat']
    show 0 = _ ↔ _
    omega
  · rw [encodeChar_of_not_lt h, List.mem_cons, List.mem_singleton, hzero, ← UInt16.toNat_inj,
      ← UInt16.toNat_inj, UInt16.toNat_ofNat', UInt16.toNat_ofNat']
    show 0 = _ ∨ 0 = _ ↔ _
    omega

theorem zero_mem_encode_iff {s : String} : 0 ∈ encode s ↔ '\x00' ∈ s.toList := by
  simp only [encode, List.mem_flatMap, zero_mem_encodeChar_iff, exists_eq_right]

end WordMachine.Text.Utf16
