import Mathlib.Data.List.Forall2

namespace WordMachine.Sequence

/-!
# Sequences of computations that may fail

A computation in `Except` succeeds exactly if each of its parts does.

* `bind_eq_ok_iff` — one computation behind another; `map_eq_ok_iff` — a function behind one.
* `mapM_eq_ok_iff` — one computation for every element of a list.
* `bind_eq_error_iff` and `map_eq_error_iff` — one of the two has failed.
* `error?_mapM`, `error?_foldlM` and `foldlM_eq_error_iff` — the first of the parts that has failed.
* `foldlM_induction` — what every step keeps, a whole run keeps.
* `forall_mem_of_forall₂`, `map_eq_of_forall₂`, `filterMap_eq_of_forall₂` and
  `findSome?_eq_of_forall₂` — what related elements share, related lists do; `forall₂_iff_map_eq` —
  what they share may be all that relates them.
* `exists_forall₂_iff` — when a list has a related one; `forall₂_iff_of_forall₂` — related lists are
  related to the same lists.
* `exists_getElem?_of_forall₂` and `forall₂_mapIdx` — related elements by their positions.
* `filterMap_concat` — an element at the end of a list.
* `findSome?_flatMap` and `findSome?_filter` — the first result of a list made from another one.
* `lookup_map_of_injOn` — an entry of a list whose keys have changed.
* `relabel` — a computation with another error and another result; `bind_relabel`, `mapM_relabel`
  and `foldlM_relabel` — sequences of them.
-/

variable {ε α β σ : Type}

theorem bind_eq_ok_iff {x : Except ε α} {f : α → Except ε β} {b : β} :
    x >>= f = .ok b ↔ ∃ a, x = .ok a ∧ f a = .ok b := by
  cases x with
  | error e => simp [bind, Except.bind]
  | ok a => simp [bind, Except.bind]

theorem map_eq_ok_iff {x : Except ε α} {f : α → β} {b : β} :
    x.map f = .ok b ↔ ∃ a, x = .ok a ∧ f a = b := by
  cases x with
  | error e => simp [Except.map]
  | ok a => simp [Except.map]

theorem bind_eq_error_iff {x : Except ε α} {f : α → Except ε β} {e : ε} :
    x >>= f = .error e ↔ x = .error e ∨ ∃ a, x = .ok a ∧ f a = .error e := by
  cases x with
  | error e => simp [bind, Except.bind]
  | ok a => simp [bind, Except.bind]

theorem map_eq_error_iff {x : Except ε α} {f : α → β} {e : ε} :
    x.map f = .error e ↔ x = .error e := by
  cases x with
  | error e => simp [Except.map]
  | ok a => simp [Except.map]

/-- The results of a list of computations belong to its elements one by one. -/
theorem mapM_eq_ok_iff {f : α → Except ε β} {as : List α} {bs : List β} :
    as.mapM f = .ok bs ↔ List.Forall₂ (fun a b => f a = .ok b) as bs := by
  induction as generalizing bs with
  | nil => cases bs <;> simp [pure, Except.pure]
  | cons a as ih =>
    simp only [List.mapM_cons, bind_eq_ok_iff, ih, pure, Except.pure, Except.ok.injEq]
    constructor
    · rintro ⟨b, hb, bs', hbs, rfl⟩
      exact .cons hb hbs
    · rintro (_ | ⟨hb, hbs⟩)
      exact ⟨_, hb, _, hbs, rfl⟩

/-- A property that every step keeps holds at the end of a run. -/
theorem foldlM_induction {step : σ → α → Except ε σ} {P : σ → Prop}
    (hstep : ∀ {s a s'}, step s a = .ok s' → P s → P s') {as : List α} {s s' : σ}
    (h : as.foldlM step s = .ok s') (hs : P s) : P s' := by
  induction as generalizing s with
  | nil =>
    obtain rfl : s = s' := Except.ok.inj h
    exact hs
  | cons a as ih =>
    rw [List.foldlM_cons] at h
    obtain ⟨next, hnext, hrest⟩ := bind_eq_ok_iff.1 h
    exact ih hrest (hstep hnext hs)

/-! ### The part that fails -/

/-- The error of a computation that fails. -/
def error? : Except ε α → Option ε
  | .error e => some e
  | .ok _ => none

theorem error?_eq_some_iff {x : Except ε α} {e : ε} : error? x = some e ↔ x = .error e := by
  cases x <;> simp [error?]

theorem error?_eq_none_iff {x : Except ε α} : error? x = none ↔ ∃ a, x = .ok a := by
  cases x <;> simp [error?]

/-- A list of computations fails by the first of them that does. -/
theorem error?_mapM (f : α → Except ε β) (as : List α) :
    error? (as.mapM f) = as.findSome? fun a => error? (f a) := by
  induction as with
  | nil => rfl
  | cons a as ih =>
    rw [List.mapM_cons, List.findSome?_cons, ← ih]
    cases f a with
    | error e => rfl
    | ok b => cases as.mapM f <;> rfl

/-- So does a run whose steps fail in whatever state they are taken. -/
theorem error?_foldlM {step : σ → α → Except ε σ} {fault? : α → Option ε}
    (same : ∀ s a, error? (step s a) = fault? a) (as : List α) (s : σ) :
    error? (as.foldlM step s) = as.findSome? fault? := by
  induction as generalizing s with
  | nil => rfl
  | cons a as ih =>
    rw [List.foldlM_cons, List.findSome?_cons, ← same s a]
    cases step s a with
    | error e => rfl
    | ok next => exact ih next

/-- A run fails by the first step that does, in the state that the steps before it lead to. -/
theorem foldlM_eq_error_iff {step : σ → α → Except ε σ} {as : List α} {s : σ} {e : ε} :
    as.foldlM step s = .error e ↔
      ∃ before a after t, as = before ++ a :: after ∧ before.foldlM step s = .ok t ∧
        step t a = .error e := by
  constructor
  · intro h
    induction as generalizing s with
    | nil => cases h
    | cons a as ih =>
      rw [List.foldlM_cons, bind_eq_error_iff] at h
      rcases h with ha | ⟨next, hnext, hrest⟩
      · exact ⟨[], a, as, s, rfl, rfl, ha⟩
      · obtain ⟨before, a', after, t, rfl, hbefore, ha'⟩ := ih hrest
        refine ⟨a :: before, a', after, t, rfl, ?_, ha'⟩
        rw [List.foldlM_cons, bind_eq_ok_iff]
        exact ⟨next, hnext, hbefore⟩
  · rintro ⟨before, a, after, t, rfl, hbefore, ha⟩
    rw [List.foldlM_append, bind_eq_error_iff]
    refine .inr ⟨t, hbefore, ?_⟩
    rw [List.foldlM_cons, bind_eq_error_iff]
    exact .inl ha

/-- A list of computations fails by one of them. -/
theorem exists_of_mapM_eq_error {f : α → Except ε β} {as : List α} {e : ε}
    (h : as.mapM f = .error e) : ∃ a ∈ as, f a = .error e := by
  rw [← error?_eq_some_iff, error?_mapM] at h
  obtain ⟨a, ha, hfails⟩ := List.exists_of_findSome?_eq_some h
  exact ⟨a, ha, error?_eq_some_iff.1 hfails⟩

/-- A run fails by one of its steps. -/
theorem exists_of_foldlM_eq_error {step : σ → α → Except ε σ} {as : List α} {s : σ} {e : ε}
    (h : as.foldlM step s = .error e) : ∃ t, ∃ a ∈ as, step t a = .error e := by
  obtain ⟨before, a, after, t, rfl, -, ha⟩ := foldlM_eq_error_iff.1 h
  exact ⟨t, a, by simp, ha⟩

/-! ### Related lists -/

variable {γ : Type} {R : α → β → Prop}

/-- What holds of every element holds of every related one if the relation carries it over. -/
theorem forall_mem_of_forall₂ {P : α → Prop} {Q : β → Prop} (carry : ∀ a b, R a b → P a → Q b)
    {as : List α} {bs : List β} (h : List.Forall₂ R as bs) (ha : ∀ a ∈ as, P a) :
    ∀ b ∈ bs, Q b := by
  induction h with
  | nil => simp
  | cons hab _ ih =>
    rw [List.forall_mem_cons] at ha ⊢
    exact ⟨carry _ _ hab ha.1, ih ha.2⟩

/-- A number that related elements share is the same along both lists. -/
theorem map_eq_of_forall₂ {f : α → γ} {g : β → γ} (same : ∀ a b, R a b → g b = f a)
    {as : List α} {bs : List β} (h : List.Forall₂ R as bs) : bs.map g = as.map f := by
  induction h with
  | nil => rfl
  | cons hab _ ih => rw [List.map_cons, List.map_cons, same _ _ hab, ih]

theorem filterMap_eq_of_forall₂ {f : α → Option γ} {g : β → Option γ}
    (same : ∀ a b, R a b → g b = f a) {as : List α} {bs : List β} (h : List.Forall₂ R as bs) :
    bs.filterMap g = as.filterMap f := by
  induction h with
  | nil => rfl
  | cons hab _ ih => rw [List.filterMap_cons, List.filterMap_cons, same _ _ hab, ih]

theorem findSome?_eq_of_forall₂ {f : α → Option γ} {g : β → Option γ}
    (same : ∀ a b, R a b → g b = f a) {as : List α} {bs : List β} (h : List.Forall₂ R as bs) :
    bs.findSome? g = as.findSome? f := by
  induction h with
  | nil => rfl
  | cons hab _ ih => rw [List.findSome?_cons, List.findSome?_cons, same _ _ hab, ih]

theorem forall₂_iff_map_eq {f : α → γ} {g : β → γ} {as : List α} {bs : List β} :
    List.Forall₂ (fun a b => f a = g b) as bs ↔ as.map f = bs.map g := by
  rw [← List.forall₂_eq_eq_eq, List.forall₂_map_left_iff, List.forall₂_map_right_iff]

/-- A list is related to another one if each of its elements is related to something. -/
theorem exists_forall₂_iff {as : List α} :
    (∃ bs, List.Forall₂ R as bs) ↔ ∀ a ∈ as, ∃ b, R a b := by
  induction as with
  | nil => simp
  | cons a as ih =>
    rw [List.forall_mem_cons, ← ih]
    constructor
    · rintro ⟨_, hab | ⟨hab, hrest⟩⟩
      exact ⟨⟨_, hab⟩, _, hrest⟩
    · rintro ⟨⟨b, hab⟩, bs, hrest⟩
      exact ⟨b :: bs, .cons hab hrest⟩

theorem forall₂_iff_of_forall₂ {S : β → γ → Prop} {T : α → γ → Prop}
    (same : ∀ a b c, R a b → (S b c ↔ T a c)) {as : List α} {bs : List β}
    (h : List.Forall₂ R as bs) {cs : List γ} : List.Forall₂ S bs cs ↔ List.Forall₂ T as cs := by
  induction h generalizing cs with
  | nil => simp
  | cons hab _ ih =>
    cases cs with
    | nil => simp
    | cons c cs => rw [List.forall₂_cons, List.forall₂_cons, same _ _ c hab, ih]

/-- What belongs to an element has an element that it belongs to. -/
theorem exists_getElem?_of_forall₂ {as : List α} {bs : List β} (h : List.Forall₂ R as bs) {k : Nat}
    {b : β} (hb : bs[k]? = some b) : ∃ a, as[k]? = some a ∧ R a b := by
  induction h generalizing k with
  | nil => cases hb
  | @cons a _ _ _ hab _ ih =>
    cases k with
    | zero =>
      obtain rfl := Option.some.inj hb
      exact ⟨a, rfl, hab⟩
    | succ k => exact ih hb

/-- Elements may be changed by their positions. -/
theorem forall₂_mapIdx {S : α → γ → Prop} {f : Nat → β → γ} {as : List α} {bs : List β}
    (change : ∀ k a b, as[k]? = some a → R a b → S a (f k b)) (h : List.Forall₂ R as bs) :
    List.Forall₂ S as (bs.mapIdx f) := by
  induction h generalizing f with
  | nil => exact .nil
  | cons hab _ ih =>
    rw [List.mapIdx_cons]
    exact .cons (change 0 _ _ rfl hab) (ih fun k a b ha => change (k + 1) a b ha)

/-! ### An element at the end -/

theorem filterMap_concat (f : α → Option β) (as : List α) (a : α) :
    (as ++ [a]).filterMap f = as.filterMap f ++ (f a).toList := by
  rw [List.filterMap_append, List.filterMap_cons]
  cases f a <;> rfl

/-! ### The first result -/

theorem findSome?_flatMap (f : β → Option γ) (g : α → List β) (as : List α) :
    (as.flatMap g).findSome? f = as.findSome? fun a => (g a).findSome? f := by
  induction as with
  | nil => rfl
  | cons a as ih =>
    rw [List.flatMap_cons, List.findSome?_append, ih, List.findSome?_cons]
    cases (g a).findSome? f <;> rfl

/-- Elements without a result may be left out. -/
theorem findSome?_filter {f : α → Option β} {keep : α → Bool} {as : List α}
    (none : ∀ a ∈ as, keep a = false → f a = none) :
    (as.filter keep).findSome? f = as.findSome? f := by
  induction as with
  | nil => rfl
  | cons a as ih =>
    rw [List.forall_mem_cons] at none
    rw [List.findSome?_cons, ← ih none.2]
    cases hkeep : keep a with
    | true => rw [List.filter_cons_of_pos hkeep, List.findSome?_cons]
    | false => rw [List.filter_cons_of_neg (by simp [hkeep]), none.1 hkeep]

/-! ### Other keys -/

/-- A key is found under another name if no other key has got that name. -/
theorem lookup_map_of_injOn [DecidableEq α] [DecidableEq β] {f : α → β} {a : α}
    {entries : List (α × γ)} (inj : ∀ b ∈ entries.map Prod.fst, f b = f a → b = a) :
    (entries.map fun entry => (f entry.1, entry.2)).lookup (f a) = entries.lookup a := by
  induction entries with
  | nil => rfl
  | cons entry entries ih =>
    rw [List.map_cons, List.forall_mem_cons] at inj
    rw [List.map_cons, List.lookup_cons, List.lookup_cons, ih inj.2]
    have hkey : (f a == f entry.1) = (a == entry.1) := by
      rw [beq_eq_beq]
      exact ⟨fun h => (inj.1 h.symm).symm, fun h => congrArg f h⟩
    rw [hkey]

/-! ### Other errors and results -/

section Relabel

variable {ε' α' β' σ' : Type} {f : ε → ε'} {g : α → α'} {g' : β → β'} {t : σ → σ'}

/-- A computation whose error and result are changed. -/
def relabel (f : ε → ε') (g : α → α') : Except ε α → Except ε' α'
  | .error e => .error (f e)
  | .ok a => .ok (g a)

theorem relabel_id (f : ε → ε') (x : Except ε α) : relabel f id x = x.mapError f := by
  cases x <;> rfl

theorem bind_relabel {x : Except ε α} {k : α → Except ε β} {k' : α' → Except ε' β'}
    (changes : ∀ a, k' (g a) = relabel f g' (k a)) :
    relabel f g x >>= k' = relabel f g' (x >>= k) := by
  cases x with
  | error e => rfl
  | ok a => exact changes a

theorem map_relabel {x : Except ε α} {h : α → β} {h' : α' → β'}
    (changes : ∀ a, h' (g a) = g' (h a)) :
    (relabel f g x).map h' = relabel f g' (x.map h) := by
  cases x with
  | error e => rfl
  | ok a => exact congrArg Except.ok (changes a)

theorem mapM_relabel {k : α → Except ε β} {k' : α' → Except ε' β'}
    (changes : ∀ a, k' (g a) = relabel f g' (k a)) (as : List α) :
    (as.map g).mapM k' = relabel f (List.map g') (as.mapM k) := by
  induction as with
  | nil => rfl
  | cons a as ih =>
    rw [List.map_cons, List.mapM_cons, List.mapM_cons, changes, ih]
    exact bind_relabel fun b => bind_relabel fun bs => rfl

theorem foldlM_relabel {step : σ → α → Except ε σ} {step' : σ' → α' → Except ε' σ'}
    (changes : ∀ s a, step' (t s) (g a) = relabel f t (step s a)) (as : List α) (s : σ) :
    (as.map g).foldlM step' (t s) = relabel f t (as.foldlM step s) := by
  induction as generalizing s with
  | nil => rfl
  | cons a as ih =>
    rw [List.map_cons, List.foldlM_cons, List.foldlM_cons, changes]
    exact bind_relabel ih

end Relabel

end WordMachine.Sequence
