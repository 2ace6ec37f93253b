import WordMachine.SymbolTable

namespace WordMachine.SymbolTable

/-!
# Accepted declarations

When a declaration is accepted, and what it changes. Each of them adds one name to one namespace,
and to one scope of it, and leaves the others alone. A declaration that is not accepted finds its
name taken, or for a constant its address, and leaves the whole table alone.
-/

variable {t u : SymbolTable} {name : String} {address : Word} {scope : Nat}

theorem insertConstant?_eq_some_iff :
    t.insertConstant? name address = some u ↔
      (∀ b ∈ t.constants, b.1 ≠ name ∧ b.2 ≠ address) ∧
        u = { t with constants := (name, address) :: t.constants } := by
  rw [insertConstant?_eq]
  split
  · next taken =>
    simp only [List.any_eq_true, Bool.or_eq_true, beq_iff_eq] at taken
    obtain ⟨b, hb, same⟩ := taken
    constructor
    · intro h
      cases h
    · rintro ⟨free, -⟩
      exact absurd same (not_or.2 (free b hb))
  · next free =>
    rw [Bool.not_eq_true] at free
    simp only [List.any_eq_false, Bool.or_eq_true, beq_iff_eq, not_or] at free
    rw [Option.some.injEq]
    exact ⟨fun h => ⟨free, h.symm⟩, fun h => h.2.symm⟩

theorem insertConstant?_eq_none_iff :
    t.insertConstant? name address = none ↔ ∃ b ∈ t.constants, b.1 = name ∨ b.2 = address := by
  rw [insertConstant?_eq]
  split
  · next h => simpa using h
  · next h => simpa using h

theorem insertSubroutine?_eq_some_iff :
    t.insertSubroutine? name address = some (scope, u) ↔
      t.subroutine? name = none ∧ scope = t.scopes.size ∧
        u = { t with
          subroutines := (name, address) :: t.subroutines
          scopes := t.scopes.push [] } := by
  rw [insertSubroutine?_eq]
  split
  · next h => simp only [h, reduceCtorEq, false_and]
  · next h => simp only [h, true_and, Option.some.injEq, Prod.mk.injEq, eq_comm]

theorem insertSubroutine?_eq_none_iff :
    t.insertSubroutine? name address = none ↔ t.subroutine? name ≠ none := by
  rw [insertSubroutine?_eq]
  cases t.subroutine? name with
  | none => simp
  | some a => simp

theorem insertLabel?_eq_some_iff :
    t.insertLabel? scope name address = some u ↔
      ∃ labels, t.scopes[scope]? = some labels ∧ labels.lookup name = none ∧
        u = { t with scopes := t.scopes.setIfInBounds scope ((name, address) :: labels) } := by
  rw [insertLabel?_eq]
  split
  · next h =>
    simp only [h, reduceCtorEq, false_and, exists_false]
  · next labels h =>
    have same : ∀ other, t.scopes[scope]? = some other ↔ other = labels := fun other => by
      rw [h, Option.some.injEq, eq_comm]
    simp only [same, exists_eq_left]
    split
    · next hn => simp only [hn, reduceCtorEq, false_and]
    · next hn => simp only [hn, true_and, Option.some.injEq, eq_comm]

/-- In a scope of the table, only a label that it has is refused. -/
theorem insertLabel?_eq_none_iff (h : scope < t.scopes.size) :
    t.insertLabel? scope name address = none ↔ t.label? scope name ≠ none := by
  rw [insertLabel?_eq, label?]
  rw [Array.getElem?_eq_getElem h, Option.bind_some]
  dsimp only
  split
  · next hn => simp [hn]
  · next hn => simp [hn]

/-! ### What is left behind

An operation in place leaves the new table behind if it is accepted, and the old one if not.
-/

theorem enterConstant_eq :
    t.enterConstant name address =
      ((t.insertConstant? name address).isSome, (t.insertConstant? name address).getD t) := by
  unfold insertConstant? enterConstant
  generalize t.constants.any _ = taken
  cases taken <;> rfl

theorem enterSubroutine_eq :
    t.enterSubroutine name address =
      ((t.insertSubroutine? name address).map Prod.fst,
        ((t.insertSubroutine? name address).map Prod.snd).getD t) := by
  unfold insertSubroutine? enterSubroutine
  cases t.subroutine? name <;> rfl

theorem enterLabel_eq :
    t.enterLabel scope name address =
      ((t.insertLabel? scope name address).isSome,
        (t.insertLabel? scope name address).getD t) := by
  unfold insertLabel? enterLabel
  cases t.scopes[scope]? with
  | none => rfl
  | some labels =>
    dsimp only
    cases labels.lookup name <;> rfl

end WordMachine.SymbolTable
