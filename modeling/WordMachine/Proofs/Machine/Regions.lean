import WordMachine.Proofs.Assembly.Layout
import WordMachine.Proofs.Machine.Access
import WordMachine.Proofs.Machine.Arguments

namespace WordMachine

/-!
# The regions of a machine in use

The boundaries of the regions are computed with words, and the start of the heap moves with every
program that is loaded. On a machine that was built for a screen none of this wraps around, whatever
is done to it afterwards, so the regions stay in their order and leave no address out.

* `Layout.Ordered` — the screen fits, and the heap does not start below the program region.
* `Layout.Partitioned` — what that means for the boundaries as numbers and for every address.
* `Machine.Request` and `Machine.serve` — what is done to a machine from outside.
* `Machine.ordered_serve` — a request keeps the order; `Machine.ordered_served` — so do several.
* `Machine.regions_partition` — the regions after any requests, and after a program is loaded.
-/

/-! ### Regions in order -/

namespace Layout

/-- The screen leaves room for the other regions, and they follow each other. -/
structure Ordered (l : Layout) : Prop where
  fits : l.screen.Fits
  programStart_le : l.programStart ≤ l.heapStart

/-- The boundaries are the numbers that the dimensions of the screen give, without wrap-around, and
the regions are consecutive intervals that make up the address space. -/
structure Partitioned (l : Layout) : Prop where
  stackMin_eq : l.stackMin.toNat = l.screen.width.toNat * l.screen.height.toNat + 1
  stackMax_eq : l.stackMax.toNat = l.stackMin.toNat + 302
  programStart_eq : l.programStart.toNat = l.stackMax.toNat + 1
  stackTop_eq : l.stackTop = l.programStart
  programStart_lt : l.programStart.toNat < haltAddress.toNat
  programStart_le : l.programStart.toNat ≤ l.heapStart.toNat
  heapStart_le : l.heapStart.toNat ≤ haltAddress.toNat
  text_iff : ∀ a, l.region a = .text ↔ a < l.stackMin
  stack_iff : ∀ a, l.region a = .stack ↔ l.stackMin ≤ a ∧ a ≤ l.stackMax
  program_iff : ∀ a, l.region a = .program ↔ l.programStart ≤ a ∧ a < l.heapStart
  heap_iff : ∀ a, l.region a = .heap ↔ l.heapStart ≤ a

theorem ordered_empty {s : Screen} (h : s.Fits) : (empty s).Ordered :=
  ⟨h, UInt16.le_refl _⟩

theorem Ordered.partitioned {l : Layout} (h : l.Ordered) : l.Partitioned := by
  have hsize : l.screen.size ≤ 65230 := h.fits
  have hmin := toNat_stackMin h.fits
  have hmax := toNat_stackMax h.fits
  have hstart := toNat_programStart h.fits
  have hle := UInt16.le_iff_toNat_le.1 h.programStart_le
  have hlt := l.heapStart.toNat_lt
  have hhalt : haltAddress.toNat = 65535 := rfl
  refine ⟨hmin, by omega, by omega, l.stackTop_eq_programStart, by omega, hle, by omega, ?_, ?_, ?_,
    ?_⟩
  -- Each region is found by comparing the address with the boundaries one after the other.
  all_goals
    intro a
    simp only [region, UInt16.le_iff_toNat_le, UInt16.lt_iff_toNat_lt]
    split_ifs <;> simp <;> omega

end Layout

namespace Machine

/-! ### Requests -/

/-- What is done to a machine from outside. -/
inductive Request where
  | load (p : Program)
  | loadArguments (arguments : List String)
  | step
  | setRegister (r : Register) (w : Word)
  | poke (a w : Word)
  | touch (a : Word)

/-- The machine that a request leaves behind, whether it is refused or not. -/
def serve (m : Machine) : Request → Machine
  | .load p => (copyProgram p).after m
  | .loadArguments arguments => (copyArguments arguments).after m
  | .step => m.step.machine
  | .setRegister r w => m.set r w
  | .poke a w => m.poke a w
  | .touch a => m.touch a

/-- The machine behind several requests. -/
def served (m : Machine) (requests : List Request) : Machine :=
  requests.foldl serve m

/-- A machine is changed by a program that is accepted. -/
theorem serve_load {m : Machine} {p : Program}
    (h : m.layout.programStart.toNat + p.size ≤ haltAddress.toNat) :
    m.serve (.load p) = m.loaded p :=
  InPlace.after_of_ok (InPlace.accepted_eq_ok_iff.1 (load_eq_ok h))

theorem serve_load_of_not {m : Machine} {p : Program}
    (h : ¬ m.layout.programStart.toNat + p.size ≤ haltAddress.toNat) :
    m.serve (.load p) = m :=
  (atomic_copyProgram p).after_eq (load_eq_error_iff.2 ⟨Nat.not_le.1 h, rfl⟩)

/-- The start of the heap is moved by no request but one to load a program. -/
theorem layout_serve_of_not_load {m : Machine} {r : Request} (h : ∀ p, r ≠ .load p) :
    (m.serve r).layout = m.layout := by
  cases r with
  | load p => exact absurd rfl (h p)
  | loadArguments arguments =>
    cases hload : m.loadArguments arguments with
    | error e => exact congrArg layout ((atomic_copyArguments arguments).after_eq hload)
    | ok n =>
      have hserve : m.serve (.loadArguments arguments) = n :=
        InPlace.after_of_ok (InPlace.accepted_eq_ok_iff.1 hload)
      obtain ⟨-, rfl⟩ := loadArguments_eq_ok_iff.1 hload
      rw [hserve]
      rfl
  | step => exact m.layout_step
  | setRegister r w => rfl
  | poke a w => rfl
  | touch a => rfl

theorem screen_serve (m : Machine) (r : Request) :
    (m.serve r).layout.screen = m.layout.screen := by
  by_cases hload : ∃ p, r = .load p
  · obtain ⟨p, rfl⟩ := hload
    by_cases h : m.layout.programStart.toNat + p.size ≤ haltAddress.toNat
    · rw [serve_load h, screen_loaded]
    · rw [serve_load_of_not h]
  · rw [layout_serve_of_not_load fun p hp => hload ⟨p, hp⟩]

/-- A request keeps the order of the regions. -/
theorem ordered_serve {m : Machine} (h : m.layout.Ordered) (r : Request) :
    (m.serve r).layout.Ordered := by
  by_cases hload : ∃ p, r = .load p
  · obtain ⟨p, rfl⟩ := hload
    by_cases hfits : m.layout.programStart.toNat + p.size ≤ haltAddress.toNat
    · rw [serve_load hfits]
      refine ⟨h.fits, UInt16.le_iff_toNat_le.2 ?_⟩
      rw [toNat_heapStart_loaded hfits]
      exact Nat.le_add_right _ _
    · rw [serve_load_of_not hfits]
      exact h
  · rw [layout_serve_of_not_load fun p hp => hload ⟨p, hp⟩]
    exact h

theorem ordered_served {m : Machine} (h : m.layout.Ordered) (requests : List Request) :
    (m.served requests).layout.Ordered := by
  induction requests generalizing m with
  | nil => exact h
  | cons r requests ih => exact ih (ordered_serve h r)

theorem screen_served (m : Machine) (requests : List Request) :
    (m.served requests).layout.screen = m.layout.screen := by
  induction requests generalizing m with
  | nil => rfl
  | cons r requests ih => exact (ih (m.serve r)).trans (m.screen_serve r)

theorem layout_of_ofScreen {s : Screen} {m : Machine} (h : ofScreen s = .ok m) :
    s.Fits ∧ m.layout = .empty s := by
  unfold ofScreen at h
  split at h
  · next fits =>
    cases h
    exact ⟨fits, rfl⟩
  · cases h

/-! ### The regions in use -/

/-- **Regions.** Whatever is done to a machine that was built for a screen, the boundaries of its
regions are those that the screen gives, none of them computed with a wrap-around, and the regions
make up the address space. A program that is refused leaves the machine as it was, and so do
arguments. Once a program is accepted the heap starts as many words behind the start of the program
region as it has, again without wrap-around. One that was assembled for the machine is accepted, and
then the program region is made up of the addresses that it occupies. -/
theorem regions_partition {screen : Screen} {new : Machine} (built : ofScreen screen = .ok new)
    (requests : List Request) :
    (new.served requests).layout.screen = screen ∧
      (new.served requests).layout.Partitioned ∧
      (∀ p e, (new.served requests).load p = .error e →
        (new.served requests).serve (.load p) = new.served requests) ∧
      (∀ arguments e, (new.served requests).loadArguments arguments = .error e →
        (new.served requests).serve (.loadArguments arguments) = new.served requests) ∧
      (∀ p n, (new.served requests).load p = .ok n →
        n.layout.heapStart.toNat =
          (new.served requests).layout.programStart.toNat + p.size) ∧
      ∀ lines p, assemble lines (new.served requests).layout.programStart = .ok p →
        ∃ n, (new.served requests).load p = .ok n ∧
          ∀ a, n.layout.region a = .program ↔ ∃ w, (a, w) ∈ p.image := by
  obtain ⟨fits, hempty⟩ := layout_of_ofScreen built
  have hscreen : (new.served requests).layout.screen = screen := by
    rw [screen_served, hempty]
    rfl
  have hordered : (new.served requests).layout.Ordered :=
    ordered_served (hempty ▸ Layout.ordered_empty fits) requests
  refine ⟨hscreen, hordered.partitioned, fun p e => (atomic_copyProgram p).after_eq,
    fun arguments e => (atomic_copyArguments arguments).after_eq, ?_, ?_⟩
  · intro p n hload
    obtain ⟨hend, rfl⟩ := load_eq_ok_iff.1 hload
    exact toNat_heapStart_loaded hend
  · intro lines p hp
    have hlaid := laidOut_of_assemble hp
    have hload := ordered_serve hordered (.load p)
    rw [serve_load hlaid.fits] at hload
    refine ⟨_, load_eq_ok hlaid.fits, ?_⟩
    intro a
    rw [hload.partitioned.program_iff, exists_mem_image_iff hlaid]
    rfl

/-- Behind the largest screen there is room for a program of one word, loaded here a second time on
a machine where it has run already. One of two words is refused there and changes nothing. -/
theorem regions_partition_largest :
    ∃ new p n, ofScreen ⟨110, 593⟩ = .ok new ∧
      assemble [⟨1, ["main:"]⟩, ⟨2, ["ret"]⟩] 0xFFFE = .ok p ∧
      (new.served [.load p, .step, .poke 0xFFFF 0]).layout.Partitioned ∧
      (new.served [.load p, .step, .poke 0xFFFF 0]).serve
          (.load ⟨[], [⟨none, 0xFFFE, [⟨.nop, []⟩, ⟨.ret, []⟩]⟩], 0xFFFE⟩) =
        new.served [.load p, .step, .poke 0xFFFF 0] ∧
      (new.served [.load p, .step, .poke 0xFFFF 0]).load p = .ok n ∧
      ∀ a, n.layout.region a = .program ↔ a = 0xFFFE := by
  have h : assemble [⟨1, ["main:"]⟩, ⟨2, ["ret"]⟩] 0xFFFE = .ok
      ⟨[], [⟨some "main", 0xFFFE, [⟨.ret, []⟩]⟩], 0xFFFE⟩ := by decide +kernel
  have built : ofScreen ⟨110, 593⟩ = .ok _ := if_pos (by decide)
  obtain ⟨hscreen, hpartitioned, hrefused, -, -, hload⟩ := regions_partition built
    [.load ⟨[], [⟨some "main", 0xFFFE, [⟨.ret, []⟩]⟩], 0xFFFE⟩, .step, .poke 0xFFFF 0]
  rw [Layout.programStart, hscreen] at hload
  obtain ⟨n, hn, hregion⟩ := hload _ _ h
  have himage : Program.image ⟨[], [⟨some "main", 0xFFFE, [⟨.ret, []⟩]⟩], 0xFFFE⟩ =
      [(0xFFFE, Opcode.ret.code)] := by decide +kernel
  refine ⟨_, _, n, built, h, hpartitioned, hrefused _ _ (load_eq_error_iff.2 ⟨?_, rfl⟩), hn, ?_⟩
  · rw [Layout.programStart, hscreen]
    decide
  · intro a
    rw [hregion, himage]
    simp

end Machine

end WordMachine
