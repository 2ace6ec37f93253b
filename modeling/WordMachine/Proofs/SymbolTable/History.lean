import Mathlib.Data.List.Induction
import Mathlib.Data.List.Nodup
import WordMachine.Proofs.Sequence
import WordMachine.Proofs.SymbolTable

namespace WordMachine.SymbolTable

open Sequence

/-!
# Tables by their history

A table can be told without its contents, from the declarations that it has accepted so far. Each
space of names is written once: the first accepted declaration of a name stands, and whatever is
refused, looked up or declared elsewhere might as well not have been asked.

* `Space` — the constants, the subroutines, and the labels of each scope.
* `Request`, `Answer` and `serve` — what is asked of a table.
* `history` and `accepted` — requests with their answers, and the declarations accepted in a space.
* `Refuses` — when a space with some names refuses a declaration; `serve_declare` — a table does so,
  or adds one name to one space.
* `Records` — a table as the record of a history; `records_history` — every table is one.
* `serve_eq_expected` — what a table answers is what its history calls for.
* `Concerns` and `history_filter` — which requests matter to a space.
* `spaces_are_written_once` — all of this for the requests made of a new table.
-/

/-! ### Requests -/

/-- The parts of a table, each with names of its own. -/
inductive Space where
  | constants
  | subroutines
  | labels (scope : Nat)
  deriving DecidableEq, Repr

/-- What is asked of a table. -/
inductive Request where
  | declare (space : Space) (name : String) (address : Word)
  | find (space : Space) (name : String)
  deriving DecidableEq, Repr

/-- The part of a table that a request goes to. -/
def Request.space : Request → Space
  | declare space _ _ => space
  | find space _ => space

/-- What a table answers. -/
inductive Answer where
  | found (address? : Option Word)
  | accepted
  /-- A subroutine is accepted, with the number of the scope that it opens. -/
  | opened (scope : Nat)
  | refused
  deriving DecidableEq, Repr

/-- The address of a name. -/
def find? (t : SymbolTable) : Space → String → Option Word
  | .constants => t.constant?
  | .subroutines => t.subroutine?
  | .labels scope => t.label? scope

/-- The answer to a request with the table that it leaves behind. -/
def serve (t : SymbolTable) : Request → Answer × SymbolTable
  | .find space name => (.found (t.find? space name), t)
  | .declare .constants name address =>
    match t.enterConstant name address with
    | (true, t) => (.accepted, t)
    | (false, t) => (.refused, t)
  | .declare .subroutines name address =>
    match t.enterSubroutine name address with
    | (some scope, t) => (.opened scope, t)
    | (none, t) => (.refused, t)
  | .declare (.labels scope) name address =>
    match t.enterLabel scope name address with
    | (true, t) => (.accepted, t)
    | (false, t) => (.refused, t)

/-- The table behind several requests. -/
def served (t : SymbolTable) (rs : List Request) : SymbolTable :=
  rs.foldl (fun t r => (t.serve r).2) t

/-- Requests with their answers. -/
def history (t : SymbolTable) : List Request → List (Request × Answer)
  | [] => []
  | r :: rs => (r, (t.serve r).1) :: history (t.serve r).2 rs

theorem history_append (t : SymbolTable) (rs others : List Request) :
    t.history (rs ++ others) = t.history rs ++ (t.served rs).history others := by
  induction rs generalizing t with
  | nil => rfl
  | cons r rs ih => rw [List.cons_append, history, ih, history, List.cons_append]; rfl

theorem served_concat (t : SymbolTable) (rs : List Request) (r : Request) :
    t.served (rs ++ [r]) = ((t.served rs).serve r).2 := by
  rw [served, List.foldl_append]
  rfl

/-! ### One request -/

/-- The names of a space with their addresses, the latest first. -/
def bindings (t : SymbolTable) : Space → Bindings
  | .constants => t.constants
  | .subroutines => t.subroutines
  | .labels scope => t.scopes[scope]?.getD []

theorem find?_eq_lookup (t : SymbolTable) (space : Space) (name : String) :
    t.find? space name = (t.bindings space).lookup name := by
  cases space with
  | constants => rfl
  | subroutines => rfl
  | labels scope =>
    rw [find?, label?, bindings]
    cases t.scopes[scope]? <;> rfl

/-- Whether a space that has some names refuses a declaration, when there are so many scopes. A
constant needs an address of its own as well, and a label a scope. -/
def Refuses (scopes : Nat) (names : Bindings) : Space → String → Word → Prop
  | .constants, name, address => ∃ b ∈ names, b.1 = name ∨ b.2 = address
  | .subroutines, name, _ => ∃ b ∈ names, b.1 = name
  | .labels scope, name, _ => scopes ≤ scope ∨ ∃ b ∈ names, b.1 = name

/-- The answer to a declaration that is accepted. -/
def acceptance (scopes : Nat) : Space → Answer
  | .subroutines => .opened scopes
  | _ => .accepted

/-- The names of two declarations in one space differ, in every space. -/
theorem name_ne_of_not_refuses {scopes : Nat} {names : Bindings} {space : Space} {name : String}
    {address : Word} (h : ¬ Refuses scopes names space name address) :
    name ∉ names.map Prod.fst := by
  rintro hmem
  obtain ⟨b, hb, hname⟩ := List.mem_map.1 hmem
  apply h
  cases space with
  | constants => exact ⟨b, hb, .inl hname⟩
  | subroutines => exact ⟨b, hb, hname⟩
  | labels scope => exact .inr ⟨b, hb, hname⟩

theorem lookup_ne_none_iff {names : Bindings} {name : String} :
    names.lookup name ≠ none ↔ ∃ b ∈ names, b.1 = name := by
  rw [ne_eq, List.lookup_eq_none_iff]
  constructor
  · intro h
    by_contra hnone
    exact h fun b hb => bne_iff_ne.2 fun hname => hnone ⟨b, hb, hname.symm⟩
  · rintro ⟨b, hb, rfl⟩ h
    exact bne_iff_ne.1 (h b hb) rfl

/-- A table with one more name in one space. A subroutine has opened a scope as well, which is as
empty as it was before. -/
structure Adds (t : SymbolTable) (space : Space) (name : String) (address : Word)
    (u : SymbolTable) : Prop where
  bindings_eq : ∀ other, u.bindings other =
    if space = other then (name, address) :: t.bindings other else t.bindings other
  size_eq : u.scopes.size = t.scopes.size + if space = .subroutines then 1 else 0

section Declaration

variable {t u : SymbolTable} {name : String} {address : Word} {scope : Nat}

theorem adds_of_insertConstant? (h : t.insertConstant? name address = some u) :
    t.Adds .constants name address u := by
  obtain ⟨-, rfl⟩ := insertConstant?_eq_some_iff.1 h
  refine ⟨?_, rfl⟩
  rintro (_ | _ | other) <;> simp [bindings]

theorem adds_of_insertSubroutine? (h : t.insertSubroutine? name address = some (scope, u)) :
    t.Adds .subroutines name address u := by
  obtain ⟨-, -, rfl⟩ := insertSubroutine?_eq_some_iff.1 h
  refine ⟨?_, Array.size_push ..⟩
  rintro (_ | _ | other)
  · simp [bindings]
  · simp [bindings]
  · simp only [bindings, Array.getElem?_push]
    by_cases hother : other = t.scopes.size <;> simp [hother]

theorem adds_of_insertLabel? (h : t.insertLabel? scope name address = some u) :
    t.Adds (.labels scope) name address u := by
  obtain ⟨labels, hlabels, -, rfl⟩ := insertLabel?_eq_some_iff.1 h
  obtain ⟨hlt, rfl⟩ := Array.getElem?_eq_some_iff.1 hlabels
  refine ⟨?_, by simp⟩
  rintro (_ | _ | other)
  · simp [bindings]
  · simp [bindings]
  · simp only [bindings, Array.getElem?_setIfInBounds, Space.labels.injEq]
    by_cases hother : scope = other
    · subst hother
      simp [hlt]
    · simp [hother]

theorem insertSubroutine?_eq_none_iff_refuses :
    t.insertSubroutine? name address = none ↔
      Refuses t.scopes.size (t.bindings .subroutines) .subroutines name address := by
  rw [insertSubroutine?_eq_none_iff, subroutine?, lookup_ne_none_iff]
  rfl

theorem insertLabel?_eq_none_iff_refuses :
    t.insertLabel? scope name address = none ↔
      Refuses t.scopes.size (t.bindings (.labels scope)) (.labels scope) name address := by
  rw [Refuses, ← lookup_ne_none_iff, ← find?_eq_lookup, find?]
  by_cases hlt : scope < t.scopes.size
  · rw [insertLabel?_eq_none_iff hlt, or_iff_right (Nat.not_le.2 hlt)]
  · rw [insertLabel?_eq, Array.getElem?_eq_none (Nat.not_lt.1 hlt)]
    simp [Nat.not_lt.1 hlt]

end Declaration

/-- A declaration is refused and changes nothing, or it adds its name to its space. -/
theorem serve_declare (t : SymbolTable) (space : Space) (name : String) (address : Word) :
    (Refuses t.scopes.size (t.bindings space) space name address ∧
        t.serve (.declare space name address) = (.refused, t)) ∨
      (¬ Refuses t.scopes.size (t.bindings space) space name address ∧
        ∃ u, t.serve (.declare space name address) = (acceptance t.scopes.size space, u) ∧
          t.Adds space name address u) := by
  cases space with
  | constants =>
    rw [serve, enterConstant_eq]
    cases hu : t.insertConstant? name address with
    | none => exact .inl ⟨insertConstant?_eq_none_iff.1 hu, rfl⟩
    | some u =>
      refine .inr ⟨fun h => ?_, u, rfl, adds_of_insertConstant? hu⟩
      cases hu.symm.trans (insertConstant?_eq_none_iff.2 h)
  | subroutines =>
    rw [serve, enterSubroutine_eq]
    cases hu : t.insertSubroutine? name address with
    | none => exact .inl ⟨insertSubroutine?_eq_none_iff_refuses.1 hu, rfl⟩
    | some v =>
      obtain ⟨scope, u⟩ := v
      obtain ⟨rfl, -⟩ := scope_insertSubroutine? hu
      refine .inr ⟨fun h => ?_, u, rfl, adds_of_insertSubroutine? hu⟩
      cases hu.symm.trans (insertSubroutine?_eq_none_iff_refuses.2 h)
  | labels scope =>
    rw [serve, enterLabel_eq]
    cases hu : t.insertLabel? scope name address with
    | none => exact .inl ⟨insertLabel?_eq_none_iff_refuses.1 hu, rfl⟩
    | some u =>
      refine .inr ⟨fun h => ?_, u, rfl, adds_of_insertLabel? hu⟩
      cases hu.symm.trans (insertLabel?_eq_none_iff_refuses.2 h)

/-! ### Histories -/

/-- The name and the address that an answered request has brought to a space. -/
def binding? (space : Space) : Request × Answer → Option (String × Word)
  | (.declare declared name address, answer) =>
    if declared = space ∧ answer ≠ .refused then some (name, address) else none
  | (.find _ _, _) => none

/-- The names and addresses that a space has accepted, the first of them first. -/
def accepted (space : Space) (h : List (Request × Answer)) : Bindings :=
  h.filterMap (binding? space)

/-- A table as the record of what was accepted. -/
structure Records (h : List (Request × Answer)) (t : SymbolTable) : Prop where
  bindings_eq : ∀ space, t.bindings space = (accepted space h).reverse
  size_eq : t.scopes.size = (accepted .subroutines h).length
  names : ∀ space, ((accepted space h).map Prod.fst).Nodup
  addresses : ((accepted .constants h).map Prod.snd).Nodup

theorem records_empty : Records [] empty where
  bindings_eq := by rintro (_ | _ | scope) <;> rfl
  size_eq := rfl
  names _ := List.nodup_nil
  addresses := List.nodup_nil

theorem accepted_concat (space : Space) (h : List (Request × Answer)) (e : Request × Answer) :
    accepted space (h ++ [e]) = accepted space h ++ (binding? space e).toList :=
  filterMap_concat (binding? space) h e

/-- What is not accepted is not recorded. -/
theorem Records.skip {h : List (Request × Answer)} {t : SymbolTable} (records : Records h t)
    {e : Request × Answer} (none : ∀ space, binding? space e = none) : Records (h ++ [e]) t := by
  have same (space : Space) : accepted space (h ++ [e]) = accepted space h := by
    rw [accepted_concat, none, Option.toList_none, List.append_nil]
  constructor <;> simp only [same]
  · exact records.bindings_eq
  · exact records.size_eq
  · exact records.names
  · exact records.addresses

/-- What is accepted is recorded in its space, where the name is new. -/
theorem Records.add {h : List (Request × Answer)} {t u : SymbolTable} (records : Records h t)
    {space : Space} {name : String} {address : Word} {answer : Answer} (ok : answer ≠ .refused)
    (fresh : ¬ Refuses t.scopes.size (t.bindings space) space name address)
    (adds : t.Adds space name address u) :
    Records (h ++ [(.declare space name address, answer)]) u := by
  have hbinding (other : Space) : binding? other (.declare space name address, answer) =
      if space = other then some (name, address) else none := by
    simp only [binding?, ok, ne_eq, not_false_eq_true, and_true]
  have hsame : accepted space (h ++ [(.declare space name address, answer)]) =
      accepted space h ++ [(name, address)] := by
    rw [accepted_concat, hbinding, if_pos rfl, Option.toList_some]
  have hother {other : Space} (hne : space ≠ other) :
      accepted other (h ++ [(.declare space name address, answer)]) = accepted other h := by
    rw [accepted_concat, hbinding, if_neg hne, Option.toList_none, List.append_nil]
  have hnames := name_ne_of_not_refuses fresh
  rw [records.bindings_eq, List.map_reverse, List.mem_reverse] at hnames
  constructor
  · intro other
    rw [adds.bindings_eq]
    by_cases hspace : space = other
    · subst hspace
      rw [if_pos rfl, hsame, List.reverse_concat, records.bindings_eq]
    · rw [if_neg hspace, hother hspace, records.bindings_eq]
  · rw [adds.size_eq, records.size_eq]
    by_cases hspace : space = .subroutines
    · subst hspace
      rw [if_pos rfl, hsame, List.length_append, List.length_singleton]
    · rw [if_neg hspace, hother hspace, Nat.add_zero]
  · intro other
    by_cases hspace : space = other
    · subst hspace
      rw [hsame, List.map_append, List.map_singleton, ← List.concat_eq_append]
      exact (records.names space).concat hnames
    · rw [hother hspace]
      exact records.names other
  · by_cases hspace : space = .constants
    · subst hspace
      rw [hsame, List.map_append, List.map_singleton, ← List.concat_eq_append]
      refine records.addresses.concat ?_
      -- An address that is taken is a reason to refuse as well.
      intro hmem
      obtain ⟨b, hb, haddress⟩ := List.mem_map.1 hmem
      refine fresh ⟨b, ?_, .inr haddress⟩
      rwa [records.bindings_eq, List.mem_reverse]
    · rw [hother hspace]
      exact records.addresses

theorem acceptance_ne_refused (scopes : Nat) (space : Space) :
    acceptance scopes space ≠ .refused := by
  cases space <;> exact Answer.noConfusion

theorem Records.serve {h : List (Request × Answer)} {t : SymbolTable} (records : Records h t)
    (r : Request) : Records (h ++ [(r, (t.serve r).1)]) (t.serve r).2 := by
  cases r with
  | find space name => exact records.skip fun _ => rfl
  | declare space name address =>
    rcases t.serve_declare space name address with ⟨-, hserve⟩ | ⟨fresh, u, hserve, adds⟩
    · rw [hserve]
      refine records.skip fun other => ?_
      simp [binding?]
    · rw [hserve]
      exact records.add (acceptance_ne_refused _ _) fresh adds

/-- Every table is the record of its history. -/
theorem records_history (rs : List Request) : Records (empty.history rs) (empty.served rs) := by
  induction rs using List.reverseRecOn with
  | nil => exact records_empty
  | append_singleton rs r ih =>
    rw [history_append, served_concat]
    exact ih.serve r

/-! ### Answers -/

instance (scopes : Nat) (names : Bindings) (space : Space) (name : String) (address : Word) :
    Decidable (Refuses scopes names space name address) :=
  match space with
  | .constants => inferInstanceAs (Decidable (∃ b ∈ names, b.1 = name ∨ b.2 = address))
  | .subroutines => inferInstanceAs (Decidable (∃ b ∈ names, b.1 = name))
  | .labels scope => inferInstanceAs (Decidable (scopes ≤ scope ∨ ∃ b ∈ names, b.1 = name))

/-- The answer that a history calls for. -/
def expected (h : List (Request × Answer)) : Request → Answer
  | .find space name => .found ((accepted space h).lookup name)
  | .declare space name address =>
    if Refuses (accepted .subroutines h).length (accepted space h) space name address then .refused
    else acceptance (accepted .subroutines h).length space

/-- Where every name stands once, it does not matter from which end it is looked up. -/
theorem lookup_reverse {names : Bindings} (distinct : (names.map Prod.fst).Nodup) (name : String) :
    names.reverse.lookup name = names.lookup name := by
  induction names with
  | nil => rfl
  | cons b names ih =>
    rw [List.map_cons, List.nodup_cons] at distinct
    rw [List.reverse_cons, List.lookup_append, ih distinct.2]
    obtain ⟨first, address⟩ := b
    rw [lookup_binding, lookup_binding]
    by_cases hname : name = first
    · have hnone : names.lookup name = none := by
        by_contra hsome
        obtain ⟨b, hb, hfirst⟩ := lookup_ne_none_iff.1 hsome
        exact distinct.1 (List.mem_map.2 ⟨b, hb, hfirst.trans hname⟩)
      rw [if_pos hname, if_pos hname, hnone, Option.none_or]
    · rw [if_neg hname, if_neg hname, List.lookup_nil, Option.or_none]

/-- The order of names does not matter to a declaration. -/
theorem refuses_reverse {scopes : Nat} {names : Bindings} {space : Space} {name : String}
    {address : Word} :
    Refuses scopes names.reverse space name address ↔ Refuses scopes names space name address := by
  cases space <;> simp only [Refuses, List.mem_reverse]

/-- A table answers what its history calls for. -/
theorem serve_eq_expected {h : List (Request × Answer)} {t : SymbolTable} (records : Records h t)
    (r : Request) : (t.serve r).1 = expected h r := by
  cases r with
  | find space name =>
    show Answer.found (t.find? space name) = _
    rw [find?_eq_lookup, records.bindings_eq, lookup_reverse (records.names space), expected]
  | declare space name address =>
    have hserve := t.serve_declare space name address
    rw [records.size_eq, records.bindings_eq, refuses_reverse] at hserve
    rw [expected]
    rcases hserve with ⟨taken, hserve⟩ | ⟨fresh, u, hserve, -⟩
    · rw [hserve, if_pos taken]
    · rw [hserve, if_neg fresh]

theorem history_concat (rs : List Request) (r : Request) :
    empty.history (rs ++ [r]) = empty.history rs ++ [(r, expected (empty.history rs) r)] := by
  rw [history_append, ← serve_eq_expected (records_history rs) r]
  rfl

/-! ### Requests that do not matter -/

/-- A request that is refused leaves the table as it was. -/
theorem serve_of_refused {t : SymbolTable} {r : Request} (h : (t.serve r).1 = .refused) :
    (t.serve r).2 = t := by
  cases r with
  | find space name => rfl
  | declare space name address =>
    rcases t.serve_declare space name address with ⟨-, hserve⟩ | ⟨-, u, hserve, -⟩
    · rw [hserve]
    · rw [hserve] at h
      exact absurd h (acceptance_ne_refused _ _)

/-- The spaces that matter to a space. A label needs the scope that a subroutine has opened. -/
def Concerns (space : Space) : Space → Bool
  | .subroutines => space ≠ .constants
  | other => other = space

theorem concerns_self (space : Space) : Concerns space space = true := by
  cases space <;> simp [Concerns]

theorem concerns_trans {space other third : Space} (h : Concerns space other = true)
    (h' : Concerns other third = true) : Concerns space third = true := by
  cases other <;> cases third <;> cases space <;> simp_all [Concerns]

theorem accepted_filter {space other : Space} (concerns : Concerns space other = true)
    (h : List (Request × Answer)) :
    accepted other (h.filter fun e => Concerns space e.1.space) = accepted other h := by
  rw [accepted, List.filterMap_filter]
  refine List.filterMap_congr fun e _ => ?_
  split
  · rfl
  · next hout =>
    -- A request to another space brings nothing to this one.
    obtain ⟨r, answer⟩ := e
    cases r with
    | find asked name => rfl
    | declare declared name address =>
      have hne : declared ≠ other := by
        rintro rfl
        exact hout concerns
      simp [binding?, hne]

theorem expected_congr {h h' : List (Request × Answer)} {r : Request}
    (same : ∀ other, Concerns r.space other = true → accepted other h = accepted other h') :
    expected h r = expected h' r := by
  cases r with
  | find space name => rw [expected, expected, same space (concerns_self space)]
  | declare space name address =>
    have hspace := same space (concerns_self space)
    cases space with
    | constants => rw [expected, expected, hspace]; rfl
    | subroutines => rw [expected, expected, hspace]
    | labels scope => rw [expected, expected, hspace, same .subroutines rfl]

/-- Without the requests that do not concern a space, those that do are answered alike. -/
theorem history_filter (rs : List Request) (space : Space) :
    empty.history (rs.filter fun r => Concerns space r.space) =
      (empty.history rs).filter fun e => Concerns space e.1.space := by
  induction rs using List.reverseRecOn with
  | nil => rfl
  | append_singleton rs r ih =>
    rw [List.filter_append, history_concat, List.filter_append]
    cases hconcerns : Concerns space r.space with
    | false => simp [hconcerns, ih]
    | true =>
      have hexpected : expected ((empty.history rs).filter fun e => Concerns space e.1.space) r =
          expected (empty.history rs) r :=
        expected_congr fun other hother => accepted_filter (concerns_trans hconcerns hother) _
      simp [hconcerns, history_concat, hexpected, ih]

/-- **Write-once names.** Whatever has been asked of a new table, it answers by the declarations
that it has accepted. A look-up finds the first of them with its name in its space, and nothing if
there is none. A constant is refused exactly if its name or its address is taken, and constants stay
one to one; a subroutine is refused exactly if its name is taken, and others are given the scopes
`0`, `1`, `2` and so on; a label is refused exactly if its scope is not there or has its name. A
refused request changes no later answer, and without the requests to other spaces those to one space
are answered alike. For labels this leaves subroutines in, which open the scopes. -/
theorem spaces_are_written_once (rs : List Request) :
    (∀ space name, ((empty.served rs).serve (.find space name)).1 =
      .found ((accepted space (empty.history rs)).lookup name)) ∧
    (∀ name address, ((empty.served rs).serve (.declare .constants name address)).1 =
      if ∃ b ∈ accepted .constants (empty.history rs), b.1 = name ∨ b.2 = address then .refused
      else .accepted) ∧
    ((accepted .constants (empty.history rs)).map Prod.fst).Nodup ∧
    ((accepted .constants (empty.history rs)).map Prod.snd).Nodup ∧
    (∀ name address, ((empty.served rs).serve (.declare .subroutines name address)).1 =
      if ∃ b ∈ accepted .subroutines (empty.history rs), b.1 = name then .refused
      else .opened (accepted .subroutines (empty.history rs)).length) ∧
    (∀ scope name address, ((empty.served rs).serve (.declare (.labels scope) name address)).1 =
      if (accepted .subroutines (empty.history rs)).length ≤ scope ∨
        ∃ b ∈ accepted (.labels scope) (empty.history rs), b.1 = name then .refused
      else .accepted) ∧
    (∀ r, ((empty.served rs).serve r).1 = .refused →
      ∀ later, (empty.served (rs ++ [r])).history later = (empty.served rs).history later) ∧
    ∀ space, empty.history (rs.filter fun r => Concerns space r.space) =
      (empty.history rs).filter fun e => Concerns space e.1.space := by
  have records := records_history rs
  refine ⟨fun space name => serve_eq_expected records _,
    fun name address => serve_eq_expected records _, records.names _, records.addresses,
    fun name address => serve_eq_expected records _,
    fun scope name address => serve_eq_expected records _, ?_, history_filter rs⟩
  intro r hrefused later
  rw [served_concat, serve_of_refused hrefused]

/-- A clash of names, one of addresses, a label without a scope, and names that are used twice. -/
example : (empty.history [.declare .constants "x" 1, .declare .constants "x" 2,
      .declare .constants "y" 1, .declare .constants "y" 2, .find .constants "y",
      .declare (.labels 0) "x" 1, .declare .subroutines "x" 1, .declare (.labels 0) "x" 7,
      .find (.labels 0) "x", .find (.labels 1) "x"]).map Prod.snd =
    [.accepted, .refused, .refused, .accepted, .found (some 2), .refused, .opened 0, .accepted,
      .found (some 7), .found none] := by
  decide +kernel

end WordMachine.SymbolTable
