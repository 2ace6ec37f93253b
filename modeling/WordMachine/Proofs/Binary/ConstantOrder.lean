import WordMachine.Binary.Format

namespace WordMachine.Binary

/-!
# The order of constants

A binary holds the constants of a program in ascending order of addresses. Nothing keeps two of
them from sharing an address, and then the later one is the one that memory keeps, so their order
must survive.

* `StablySorted cs ds` — `ds` is `cs` in ascending order, with the order at each address kept.
* `StablySorted.unique` — there is one such order.
* `stablySorted_sortConstants` — that is what `sortConstants` yields.
* `sortConstants_map` and `sortConstants_eq_self` — sorting leaves names out of account, and leaves
  constants that are in order alone.
-/

/-- Constants in ascending order of addresses, of which those at any one address stand in the order
of another list. -/
structure StablySorted (cs ds : List Constant) : Prop where
  ascending : ds.Pairwise fun c d => c.address ≤ d.address
  kept : ∀ a, ds.filter (fun c => c.address = a) = cs.filter (fun c => c.address = a)

/-- In ascending order, constants are told by those at each address. -/
private theorem eq_of_filter_address_eq {ds es : List Constant}
    (ascending : ds.Pairwise fun c d => c.address ≤ d.address)
    (ascending' : es.Pairwise fun c d => c.address ≤ d.address)
    (same : ∀ a, ds.filter (fun c => c.address = a) = es.filter fun c => c.address = a) :
    ds = es := by
  induction ds generalizing es with
  | nil =>
    cases es with
    | nil => rfl
    | cons e es => simpa using same e.address
  | cons d ds ih =>
    cases es with
    | nil => simpa using same d.address
    | cons e es =>
      rw [List.pairwise_cons] at ascending ascending'
      -- Each of the first constants is in the other list, where no address is below the first.
      have hd : d ∈ (e :: es).filter fun c => c.address = d.address := by
        rw [← same]
        simp
      have he : e ∈ (d :: ds).filter fun c => c.address = e.address := by
        rw [same]
        simp
      have hle : e.address ≤ d.address := by
        rcases List.mem_cons.1 (List.mem_filter.1 hd).1 with rfl | hmem
        · exact UInt16.le_refl _
        · exact ascending'.1 d hmem
      have hge : d.address ≤ e.address := by
        rcases List.mem_cons.1 (List.mem_filter.1 he).1 with rfl | hmem
        · exact UInt16.le_refl _
        · exact ascending.1 e hmem
      have haddress : d.address = e.address := UInt16.le_antisymm hge hle
      have hfirst := same d.address
      rw [List.filter_cons_of_pos (by simp), List.filter_cons_of_pos (by simp [haddress])] at hfirst
      obtain rfl : d = e := (List.cons.inj hfirst).1
      refine congrArg (d :: ·) (ih ascending.2 ascending'.2 ?_)
      intro a
      have hrest := same a
      rw [List.filter_cons, List.filter_cons] at hrest
      split at hrest
      · exact (List.cons.inj hrest).2
      · exact hrest

theorem StablySorted.unique {cs ds es : List Constant} (h : StablySorted cs ds)
    (h' : StablySorted cs es) : ds = es :=
  eq_of_filter_address_eq h.ascending h'.ascending fun a => (h.kept a).trans (h'.kept a).symm

private theorem address_le_trans (b c d : Constant) (h : decide (b.address ≤ c.address))
    (h' : decide (c.address ≤ d.address)) : decide (b.address ≤ d.address) := by
  rw [decide_eq_true_eq] at *
  exact UInt16.le_trans h h'

private theorem address_le_total (c d : Constant) :
    decide (c.address ≤ d.address) || decide (d.address ≤ c.address) := by
  rw [Bool.or_eq_true, decide_eq_true_eq, decide_eq_true_eq]
  exact UInt16.le_total ..

theorem sortConstants_perm (cs : List Constant) : (sortConstants cs).Perm cs :=
  List.mergeSort_perm ..

theorem pairwise_sortConstants (cs : List Constant) :
    (sortConstants cs).Pairwise fun c d => c.address ≤ d.address := by
  have h := List.pairwise_mergeSort address_le_trans address_le_total cs
  exact h.imp of_decide_eq_true

/-- Those at one address are in order already, so sorting keeps them in a row; and it loses none. -/
theorem filter_sortConstants (cs : List Constant) (a : Word) :
    (sortConstants cs).filter (fun c => c.address = a) =
      cs.filter (fun c => c.address = a) := by
  have inOrder : (cs.filter (fun c => c.address = a)).Pairwise
      fun c d => decide (c.address ≤ d.address) := by
    apply List.pairwise_of_forall_mem_list
    intro c hc d hd
    have hc : c.address = a := by simpa using (List.mem_filter.1 hc).2
    have hd : d.address = a := by simpa using (List.mem_filter.1 hd).2
    rw [decide_eq_true_eq, hc, hd]
    exact UInt16.le_refl a
  -- What is in order already stays as it is in the sorted list, and there is no more of it there.
  have kept := List.sublist_mergeSort address_le_trans address_le_total inOrder
    List.filter_sublist
  have sub := kept.filter fun c => decide (c.address = a)
  simp only [List.filter_filter, Bool.and_self] at sub
  have len : ((sortConstants cs).filter fun c => decide (c.address = a)).length =
      (cs.filter fun c => decide (c.address = a)).length :=
    ((sortConstants_perm cs).filter _).length_eq
  exact (sub.eq_of_length len.symm).symm

theorem stablySorted_sortConstants (cs : List Constant) : StablySorted cs (sortConstants cs) :=
  ⟨pairwise_sortConstants cs, filter_sortConstants cs⟩

/-- Changing constants but for their addresses commutes with sorting them. -/
theorem sortConstants_map {f : Constant → Constant} (hf : ∀ c, (f c).address = c.address)
    (cs : List Constant) : (sortConstants cs).map f = sortConstants (cs.map f) := by
  apply List.map_mergeSort
  intro c _ d _
  rw [hf, hf]

theorem sortConstants_eq_self {cs : List Constant}
    (h : cs.Pairwise fun c d => c.address ≤ d.address) : sortConstants cs = cs :=
  List.mergeSort_of_pairwise (h.imp decide_eq_true)

end WordMachine.Binary
