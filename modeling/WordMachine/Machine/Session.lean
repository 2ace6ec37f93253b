import WordMachine.Machine.Step

namespace WordMachine

/-!
# Sessions

A session counts the instructions that it has a machine execute and notes when the machine halts.

* `Session.step` — one instruction, unless the session or the machine has halted.
* `Session.steps` — at most so many instructions, with an observer of what happens.
* `Session.run` — instructions until the machine halts, an instruction fails, or a limit is
  reached.
* `Machine.run` — the same without a limit, in a session of its own.
-/

/-- The count of instructions executed, and whether the machine was seen to halt. -/
structure Session where
  cycles : Nat
  halted : Bool
  deriving DecidableEq, Repr

/-- What the steps of a session leave, and what has been seen of them. -/
structure Outcome (σ : Type) where
  machine : Machine
  session : Session
  result : Except Fault Status
  seen : σ

namespace Session

/-- A session before its first step. -/
def fresh : Session := ⟨0, false⟩

/-- Has a machine execute one instruction, unless it has halted. A fault is not counted. -/
def step (s : Session) (m : Machine) : Outcome (List Event) :=
  if s.halted || m.halted then ⟨m, { s with halted := true }, .ok .halted, []⟩
  else
    match m.step with
    | ⟨m, .error fault, events⟩ => ⟨m, s, .error fault, events⟩
    | ⟨m, .ok .running, events⟩ => ⟨m, { s with cycles := s.cycles + 1 }, .ok .running, events⟩
    | ⟨m, .ok .halted, events⟩ =>
      -- Only the step that halts the machine is reported, and it counts.
      ⟨m, ⟨s.cycles + 1, true⟩, .ok .halted, events ++ [.halted (s.cycles + 1)]⟩

variable {σ : Type}

/-- At most so many steps. An observer is shown every event and carries along what it has seen. -/
def steps (watch : σ → Event → σ) (seen : σ) (s : Session) (m : Machine) : Nat → Outcome σ
  | 0 => ⟨m, s, .ok (if s.halted then .halted else .running), seen⟩
  | n + 1 =>
    match s.step m with
    | ⟨m, s, .ok .running, events⟩ => steps watch (events.foldl watch seen) s m n
    | ⟨m, s, result, events⟩ => ⟨m, s, result, events.foldl watch seen⟩

/-- The number of instructions that an unlimited run may execute: as many as 64 bits count. -/
def unlimited : Nat := 0x10000000000000000

/-- Steps until the machine halts, an instruction fails, or `limit` more instructions have been
executed. -/
def run (s : Session) (m : Machine) (limit : Option Nat) (watch : σ → Event → σ) (seen : σ) :
    Outcome σ :=
  s.steps watch seen m (limit.getD unlimited)

theorem steps_zero (watch : σ → Event → σ) (seen : σ) (s : Session) (m : Machine) :
    s.steps watch seen m 0 = ⟨m, s, .ok (if s.halted then .halted else .running), seen⟩ := rfl

/-- A step after which the machine goes on is the first of several. -/
theorem steps_succ_of_running {s : Session} {m : Machine} (h : (s.step m).result = .ok .running)
    (watch : σ → Event → σ) (seen : σ) (n : Nat) :
    s.steps watch seen m (n + 1) =
      (s.step m).session.steps watch ((s.step m).seen.foldl watch seen) (s.step m).machine n := by
  rw [steps]
  revert h
  cases s.step m with
  | mk m s result events =>
    rintro rfl
    rfl

/-- A step that halts or fails is the last. -/
theorem steps_succ_of_stopped {s : Session} {m : Machine} (h : (s.step m).result ≠ .ok .running)
    (watch : σ → Event → σ) (seen : σ) (n : Nat) :
    s.steps watch seen m (n + 1) =
      ⟨(s.step m).machine, (s.step m).session, (s.step m).result,
        (s.step m).seen.foldl watch seen⟩ := by
  rw [steps]
  revert h
  cases s.step m with
  | mk m s result events =>
    intro h
    match result with
    | .ok .running => exact absurd rfl h
    | .ok .halted => rfl
    | .error _ => rfl

end Session

/-- Runs a machine until it halts or an instruction fails, in a session of its own. -/
def Machine.run {σ : Type} (m : Machine) (watch : σ → Event → σ) (seen : σ) : Outcome σ :=
  Session.fresh.run m none watch seen

end WordMachine
