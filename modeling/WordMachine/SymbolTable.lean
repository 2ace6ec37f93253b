import WordMachine.Word

namespace WordMachine

/-!
# Symbol tables

A symbol table maps names to addresses in three namespaces, in each of which a name is written
once.

* constants — an address is written once as well;
* subroutines — two of them may share an address;
* labels — with a scope of their own for every subroutine, numbered from zero.

`enterConstant`, `enterSubroutine` and `enterLabel` change a table in place: they answer whether a
name has been entered, and leave a table behind in any case. `insertConstant?`, `insertSubroutine?`
and `insertLabel?` are the tables behind names that are entered.
-/

/-- The names of one namespace with their addresses, the latest first. -/
abbrev Bindings := List (String × Word)

theorem lookup_binding (b : Bindings) (name n : String) (address : Word) :
    List.lookup n ((name, address) :: b) = if n = name then some address else b.lookup n := by
  rw [List.lookup_cons]
  by_cases h : n = name
  · simp [h]
  · rw [beq_eq_false_iff_ne.2 h, if_neg h]

/-- The names that an assembly has declared. -/
structure SymbolTable where
  constants : Bindings
  subroutines : Bindings
  /-- The labels of each scope. -/
  scopes : Array Bindings
  deriving DecidableEq, Repr

namespace SymbolTable

/-- The table without names. -/
def empty : SymbolTable := ⟨[], [], #[]⟩

/-! ### Look-up -/

/-- The address of a constant. -/
def constant? (t : SymbolTable) (name : String) : Option Word :=
  t.constants.lookup name

/-- The address of a subroutine. -/
def subroutine? (t : SymbolTable) (name : String) : Option Word :=
  t.subroutines.lookup name

/-- The address of a label in a scope. -/
def label? (t : SymbolTable) (scope : Nat) (name : String) : Option Word :=
  t.scopes[scope]?.bind fun labels => labels.lookup name

/-! ### Declaration -/

/-- Enters a constant, unless its name or its address is taken. -/
def enterConstant (t : SymbolTable) (name : String) (address : Word) : Bool × SymbolTable :=
  if t.constants.any fun (n, a) => n == name || a == address then (false, t)
  else (true, { t with constants := (name, address) :: t.constants })

/-- Enters a subroutine and opens a scope for its labels, unless its name is taken. The answer is
the number of the scope. -/
def enterSubroutine (t : SymbolTable) (name : String) (address : Word) :
    Option Nat × SymbolTable :=
  match t.subroutine? name with
  | some _ => (none, t)
  | none =>
    let t := { t with subroutines := (name, address) :: t.subroutines }
    let t := { t with scopes := t.scopes.push [] }
    (some (t.scopes.size - 1), t)

/-- Enters a label into a scope, unless there is no such scope or it has the name already. -/
def enterLabel (t : SymbolTable) (scope : Nat) (name : String) (address : Word) :
    Bool × SymbolTable :=
  match t.scopes[scope]? with
  | none => (false, t)
  | some labels =>
    match labels.lookup name with
    | some _ => (false, t)
    | none =>
      (true, { t with scopes := t.scopes.setIfInBounds scope ((name, address) :: labels) })

/-- The table behind a constant, unless that is refused. -/
def insertConstant? (t : SymbolTable) (name : String) (address : Word) : Option SymbolTable :=
  match t.enterConstant name address with
  | (true, t) => some t
  | (false, _) => none

/-- The table behind a subroutine, unless that is refused. The first component is the number of the
scope. -/
def insertSubroutine? (t : SymbolTable) (name : String) (address : Word) :
    Option (Nat × SymbolTable) :=
  match t.enterSubroutine name address with
  | (some scope, t) => some (scope, t)
  | (none, _) => none

/-- The table behind a label, unless that is refused. -/
def insertLabel? (t : SymbolTable) (scope : Nat) (name : String) (address : Word) :
    Option SymbolTable :=
  match t.enterLabel scope name address with
  | (true, t) => some t
  | (false, _) => none

section Entered

variable (t : SymbolTable) (scope : Nat) (name : String) (address : Word)

theorem insertConstant?_eq :
    t.insertConstant? name address =
      if t.constants.any fun (n, a) => n == name || a == address then none
      else some { t with constants := (name, address) :: t.constants } := by
  unfold insertConstant? enterConstant
  cases t.constants.any fun (n, a) => n == name || a == address <;> rfl

theorem insertSubroutine?_eq :
    t.insertSubroutine? name address =
      match t.subroutine? name with
      | some _ => none
      | none =>
        some (t.scopes.size,
          { t with
            subroutines := (name, address) :: t.subroutines
            scopes := t.scopes.push [] }) := by
  unfold insertSubroutine? enterSubroutine
  cases t.subroutine? name with
  | some _ => rfl
  | none => simp

theorem insertLabel?_eq :
    t.insertLabel? scope name address =
      match t.scopes[scope]? with
      | none => none
      | some labels =>
        match labels.lookup name with
        | some _ => none
        | none =>
          some { t with scopes := t.scopes.setIfInBounds scope ((name, address) :: labels) } := by
  unfold insertLabel? enterLabel
  cases t.scopes[scope]? with
  | none => rfl
  | some labels =>
    dsimp only
    cases labels.lookup name <;> rfl

end Entered

/-! ### Look-up after a declaration -/

theorem constant?_insertConstant? {t u : SymbolTable} {name : String} {address : Word}
    (h : t.insertConstant? name address = some u) (n : String) :
    u.constant? n = if n = name then some address else t.constant? n := by
  rw [insertConstant?_eq] at h
  split at h
  · cases h
  · obtain rfl := Option.some.inj h
    exact lookup_binding ..

theorem subroutine?_insertSubroutine? {t u : SymbolTable} {name : String} {address : Word}
    {scope : Nat} (h : t.insertSubroutine? name address = some (scope, u)) (n : String) :
    u.subroutine? n = if n = name then some address else t.subroutine? n := by
  rw [insertSubroutine?_eq] at h
  split at h
  · cases h
  · obtain ⟨_, rfl⟩ := Prod.mk.inj (Option.some.inj h)
    exact lookup_binding ..

/-- A new scope is numbered by the scopes before it. -/
theorem scope_insertSubroutine? {t u : SymbolTable} {name : String} {address : Word} {scope : Nat}
    (h : t.insertSubroutine? name address = some (scope, u)) :
    scope = t.scopes.size ∧ u.scopes = t.scopes.push [] := by
  rw [insertSubroutine?_eq] at h
  split at h
  · cases h
  · obtain ⟨rfl, rfl⟩ := Prod.mk.inj (Option.some.inj h)
    exact ⟨rfl, rfl⟩

theorem label?_insertLabel? {t u : SymbolTable} {scope : Nat} {name : String} {address : Word}
    (h : t.insertLabel? scope name address = some u) (s : Nat) (n : String) :
    u.label? s n = if s = scope ∧ n = name then some address else t.label? s n := by
  rw [insertLabel?_eq] at h
  split at h
  · cases h
  · next labels hl =>
    split at h
    · cases h
    · obtain rfl := Option.some.inj h
      obtain ⟨hlt, hl⟩ := Array.getElem?_eq_some_iff.1 hl
      simp only [label?, Array.getElem?_setIfInBounds]
      by_cases hs : scope = s
      · subst hs
        simp [hlt, hl, lookup_binding]
      · simp [hs, Ne.symm hs]

end SymbolTable

end WordMachine
