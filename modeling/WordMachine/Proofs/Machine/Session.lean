import WordMachine.Machine.Session
import WordMachine.Proofs.Machine.Run
import WordMachine.Proofs.Machine.Step

namespace WordMachine

/-!
# Runs of a session

A session does no more than count the steps of a machine. It stops with the first step that halts or
fails. A limit that is reached before ends nothing: the next run goes on from there.

* `Machine.GoesOn` — several steps neither halt nor fail; `Machine.history` — what they show.
* `Outcome.resume` — one run behind another.
* `Session.steps_add_of_ok` and `Session.steps_add_of_error` — what two runs make of it.
* `Session.steps_of_goesOn`, `Session.steps_of_halts` and `Session.steps_of_fails` — what a run
  leaves, by the first step that halts or fails.
* `Session.runs_compose_and_count` — both together.
-/

/-! ### Steps of the machine -/

namespace Machine

variable {m : Machine} {n : Nat}

/-- The first `n` steps neither halt nor fail. -/
def GoesOn (m : Machine) (n : Nat) : Prop :=
  ∀ j < n, (m.after j).step.result = .ok .running

/-- What the first `n` steps show. -/
def history (m : Machine) : Nat → List Event
  | 0 => []
  | n + 1 => m.step.events ++ m.step.machine.history n

theorem history_succ (m : Machine) (n : Nat) :
    m.history (n + 1) = m.history n ++ (m.after n).step.events := by
  induction n generalizing m with
  | zero => simp [history]
  | succ n ih => rw [history, ih, history, List.append_assoc, after_succ]

theorem goesOn_succ_iff :
    m.GoesOn (n + 1) ↔ m.step.result = .ok .running ∧ m.step.machine.GoesOn n := by
  constructor
  · intro h
    exact ⟨h 0 (Nat.succ_pos n), fun j hj => h (j + 1) (Nat.succ_lt_succ hj)⟩
  · rintro ⟨hfirst, hrest⟩ j hj
    cases j with
    | zero => exact hfirst
    | succ j => exact hrest j (Nat.lt_of_succ_lt_succ hj)

/-- A machine that has halted answers so. -/
theorem halted_eq_false_of_step (h : m.step.result ≠ .ok .halted) : m.halted = false := by
  cases halted : m.halted with
  | false => rfl
  | true =>
    rw [step_of_steps (.halted halted)] at h
    exact absurd rfl h

/-- A step that goes on leaves a machine that has not halted. -/
theorem halted_step_eq_false (h : m.step.result = .ok .running) :
    m.step.machine.halted = false := by
  generalize hstep : m.step = t at h ⊢
  cases steps_iff.2 hstep with
  | halted halted => cases h
  | unknown running fetches => cases h
  | refuses running fetches fails => cases h
  | @performs i op running fetches decodes =>
    have hstatus : ((m.advanced i).perform op).status = .running := Except.ok.inj h
    show ((m.advanced i).perform op).halted = false
    cases halted : ((m.advanced i).perform op).halted with
    | false => rfl
    | true =>
      rw [status, halted] at hstatus
      cases hstatus

theorem halted_after_eq_false (running : m.halted = false) (h : m.GoesOn n) :
    (m.after n).halted = false := by
  induction n generalizing m with
  | zero => exact running
  | succ n ih =>
    obtain ⟨hfirst, hrest⟩ := goesOn_succ_iff.1 h
    exact ih (halted_step_eq_false hfirst) hrest

end Machine

/-- The run that goes on where another one has stopped. -/
def Outcome.resume {σ : Type} (o : Outcome σ) (limit : Option Nat) (watch : σ → Event → σ) :
    Outcome σ :=
  o.session.run o.machine limit watch o.seen

namespace Session

variable {σ : Type} {s : Session} {m : Machine} {watch : σ → Event → σ} {seen : σ} {k n : Nat}
  {fault : Fault}

/-! ### One step -/

theorem step_of_running (fresh : s.halted = false) (h : m.step.result = .ok .running) :
    s.step m = ⟨m.step.machine, ⟨s.cycles + 1, false⟩, .ok .running, m.step.events⟩ := by
  have running : m.halted = false := Machine.halted_eq_false_of_step (by simp [h])
  rw [step, fresh, running]
  revert h
  cases m.step with
  | mk m result events =>
    rintro rfl
    rfl

theorem step_of_halts (fresh : s.halted = false) (running : m.halted = false)
    (h : m.step.result = .ok .halted) :
    s.step m = ⟨m.step.machine, ⟨s.cycles + 1, true⟩, .ok .halted,
      m.step.events ++ [.halted (s.cycles + 1)]⟩ := by
  rw [step, fresh, running]
  revert h
  cases m.step with
  | mk m result events =>
    rintro rfl
    rfl

theorem step_of_fails (fresh : s.halted = false) (h : m.step.result = .error fault) :
    s.step m = ⟨m.step.machine, s, .error fault, m.step.events⟩ := by
  have running : m.halted = false := Machine.halted_eq_false_of_step (by simp [h])
  rw [step, fresh, running]
  revert h
  cases m.step with
  | mk m result events =>
    rintro rfl
    rfl

/-- A session notes that it answers `halted`. -/
theorem halted_of_step (h : (s.step m).result = .ok .halted) :
    (s.step m).session.halted = true := by
  revert h
  unfold step
  split
  · exact fun _ => rfl
  · split
    · intro h
      cases h
    · intro h
      cases h
    · exact fun _ => rfl

/-! ### One run behind another -/

/-- A session that has halted does nothing more. -/
theorem steps_of_halted (halted : s.halted = true) (n : Nat) :
    s.steps watch seen m n = ⟨m, s, .ok .halted, seen⟩ := by
  cases n with
  | zero => rw [steps_zero, if_pos halted]
  | succ n =>
    have hstep : s.step m = ⟨m, s, .ok .halted, []⟩ := by
      rw [step, halted, Bool.true_or, if_pos rfl]
      exact congrArg (fun t => Outcome.mk m t (.ok .halted) []) (by rw [← halted])
    rw [steps_succ_of_stopped (by simp [hstep]), hstep]
    rfl

/-- A run that has not failed is the first part of a longer one. -/
theorem steps_add_of_ok {status : Status} {a : Nat}
    (h : (s.steps watch seen m a).result = .ok status) (b : Nat) :
    (s.steps watch seen m a).resume (some b) watch = s.steps watch seen m (a + b) := by
  induction a generalizing s m seen with
  | zero =>
    rw [Nat.zero_add]
    rfl
  | succ a ih =>
    rw [Nat.succ_add]
    by_cases hgoes : (s.step m).result = .ok .running
    · rw [steps_succ_of_running hgoes] at h ⊢
      rw [steps_succ_of_running hgoes]
      exact ih h
    · -- The first run has halted, and so has its session.
      rw [steps_succ_of_stopped hgoes] at h ⊢
      rw [steps_succ_of_stopped hgoes]
      have h : (s.step m).result = .ok status := h
      cases status with
      | running => exact absurd h hgoes
      | halted =>
        rw [h]
        exact steps_of_halted (halted_of_step h) b

/-- A run that fails fails under any higher limit. -/
theorem steps_add_of_error {a : Nat} (h : (s.steps watch seen m a).result = .error fault)
    (b : Nat) : s.steps watch seen m (a + b) = s.steps watch seen m a := by
  induction a generalizing s m seen with
  | zero => cases h
  | succ a ih =>
    rw [Nat.succ_add]
    by_cases hgoes : (s.step m).result = .ok .running
    · rw [steps_succ_of_running hgoes] at h ⊢
      rw [steps_succ_of_running hgoes]
      exact ih h
    · rw [steps_succ_of_stopped hgoes, steps_succ_of_stopped hgoes]

/-! ### The first step that halts or fails -/

theorem steps_of_goesOn (fresh : s.halted = false) (h : m.GoesOn n) :
    s.steps watch seen m n =
      ⟨m.after n, ⟨s.cycles + n, false⟩, .ok .running, (m.history n).foldl watch seen⟩ := by
  induction n generalizing s m seen with
  | zero =>
    obtain ⟨cycles, halted⟩ := s
    cases fresh
    rfl
  | succ n ih =>
    obtain ⟨hfirst, hrest⟩ := Machine.goesOn_succ_iff.1 h
    have hstep := step_of_running (s := s) fresh hfirst
    rw [steps_succ_of_running (by rw [hstep]), hstep, ih rfl hrest, Machine.history,
      List.foldl_append, Machine.after_succ, Nat.add_right_comm, Nat.add_assoc]

/-- Behind the steps that go on, the next one decides, whatever the limit is. -/
theorem steps_of_stops (fresh : s.halted = false) (h : m.GoesOn k)
    (stops : (step ⟨s.cycles + k, false⟩ (m.after k)).result ≠ .ok .running) (within : k < n) :
    s.steps watch seen m n =
      ⟨(step ⟨s.cycles + k, false⟩ (m.after k)).machine,
        (step ⟨s.cycles + k, false⟩ (m.after k)).session,
        (step ⟨s.cycles + k, false⟩ (m.after k)).result,
        (step ⟨s.cycles + k, false⟩ (m.after k)).seen.foldl watch
          ((m.history k).foldl watch seen)⟩ := by
  obtain ⟨r, rfl⟩ := Nat.exists_eq_add_of_lt within
  have hfirst : s.steps watch seen m k = _ := steps_of_goesOn fresh h
  rw [Nat.add_assoc, ← steps_add_of_ok (by rw [hfirst]), hfirst]
  exact steps_succ_of_stopped stops watch _ r

theorem steps_of_halts (fresh : s.halted = false) (running : m.halted = false) (h : m.GoesOn k)
    (halts : (m.after k).step.result = .ok .halted) (within : k < n) :
    s.steps watch seen m n =
      ⟨m.after (k + 1), ⟨s.cycles + (k + 1), true⟩, .ok .halted,
        (m.history (k + 1) ++ [Event.halted (s.cycles + (k + 1))]).foldl watch seen⟩ := by
  have hstep := step_of_halts (s := ⟨s.cycles + k, false⟩) rfl
    (Machine.halted_after_eq_false running h) halts
  rw [steps_of_stops fresh h (by simp [hstep]) within, hstep, Machine.after_succ',
    Machine.history_succ]
  simp only [List.foldl_append, Nat.add_assoc]

theorem steps_of_fails (fresh : s.halted = false) (h : m.GoesOn k)
    (fails : (m.after k).step.result = .error fault) (within : k < n) :
    s.steps watch seen m n =
      ⟨m.after (k + 1), ⟨s.cycles + k, false⟩, .error fault,
        (m.history (k + 1)).foldl watch seen⟩ := by
  have hstep := step_of_fails (s := ⟨s.cycles + k, false⟩) rfl fails
  rw [steps_of_stops fresh h (by simp [hstep]) within, hstep, Machine.after_succ',
    Machine.history_succ, List.foldl_append]

/-- A limit behind the first step that halts or fails makes no difference. -/
theorem steps_eq_of_stops (fresh : s.halted = false) (running : m.halted = false) (h : m.GoesOn k)
    (stops : (m.after k).step.result ≠ .ok .running) {n' : Nat} (within : k < n)
    (within' : k < n') : s.steps watch seen m n = s.steps watch seen m n' := by
  match answer : (m.after k).step.result with
  | .ok .running => exact absurd answer stops
  | .ok .halted =>
    rw [steps_of_halts fresh running h answer within, steps_of_halts fresh running h answer within']
  | .error fault =>
    rw [steps_of_fails fresh h answer within, steps_of_fails fresh h answer within']

/-- **Bounded runs are steps, and compose.** If a run of at most `a` steps does not fail, another
one of at most `b` behind it leaves what a run of at most `a + b` steps does; if it fails, a higher
limit changes nothing.

Let neither the session nor the machine have halted. While the steps go on, a run under a limit
makes just as many steps, counts them and answers `running`. If the step behind the first `k` halts
the machine, any run with a higher limit counts it, notes the halt and answers `halted`; if it
fails, the run answers the fault, and the step is not counted. Then a run without a limit is the
same as well, up to the number of steps that can be counted, and so is that of the machine on its
own. -/
theorem runs_compose_and_count (s : Session) (m : Machine) (watch : σ → Event → σ) (seen : σ) :
    (∀ a b,
      (∀ status, (s.run m (some a) watch seen).result = .ok status →
        (s.run m (some a) watch seen).resume (some b) watch =
          s.run m (some (a + b)) watch seen) ∧
      ∀ fault, (s.run m (some a) watch seen).result = .error fault →
        s.run m (some (a + b)) watch seen = s.run m (some a) watch seen) ∧
    (s.halted = false → m.halted = false →
      (∀ n, m.GoesOn n → s.run m (some n) watch seen =
        ⟨m.after n, ⟨s.cycles + n, false⟩, .ok .running, (m.history n).foldl watch seen⟩) ∧
      ∀ k, m.GoesOn k → ∀ n, k < n →
        ((m.after k).step.result = .ok .halted → s.run m (some n) watch seen =
          ⟨m.after (k + 1), ⟨s.cycles + (k + 1), true⟩, .ok .halted,
            (m.history (k + 1) ++ [Event.halted (s.cycles + (k + 1))]).foldl watch seen⟩) ∧
        (∀ fault, (m.after k).step.result = .error fault → s.run m (some n) watch seen =
          ⟨m.after (k + 1), ⟨s.cycles + k, false⟩, .error fault,
            (m.history (k + 1)).foldl watch seen⟩) ∧
        ((m.after k).step.result ≠ .ok .running → n < unlimited →
          s.run m none watch seen = s.run m (some n) watch seen ∧
            m.run watch seen = fresh.run m (some n) watch seen)) := by
  refine ⟨?_, ?_⟩
  · intro a b
    exact ⟨fun status h => steps_add_of_ok h b, fun fault h => steps_add_of_error h b⟩
  · intro hs running
    refine ⟨fun n h => steps_of_goesOn hs h, ?_⟩
    intro k h n within
    refine ⟨?_, ?_, ?_⟩
    · intro halts
      exact steps_of_halts hs running h halts within
    · intro fault fails
      exact steps_of_fails hs h fails within
    · intro stops hn
      have hk : k < unlimited := Nat.lt_trans within hn
      exact ⟨steps_eq_of_stops hs running h stops hk within,
        steps_eq_of_stops rfl running h stops hk within⟩

/-- A machine in front of the last word below `haltAddress`, which is a `nop`. -/
def lastNop : Machine where
  registers := RegisterFile.zero.set .pc 0xFFFE
  memory := Memory.blank
  layout := ⟨⟨0, 0⟩, 0x0130⟩

theorem runs_compose_and_count_lastNop :
    fresh.run lastNop (some 5) (fun count _ => count + 1) 0 =
      ⟨lastNop.after 1, ⟨1, true⟩, .ok .halted, 2⟩ := by
  have fetches : lastNop.instructionAt (lastNop.get .pc) = .ok ⟨.nop, []⟩ := by
    apply Machine.instructionAt_of_placed (show Instruction.WellFormed _ by decide)
    rintro ⟨a, w⟩ hcell
    obtain rfl : w = 0 := (Prod.mk.inj (List.mem_singleton.1 hcell)).2
    exact Memory.peek_blank a
  have hstep := Machine.step_of_steps (.performs rfl fetches rfl)
  have halts : (lastNop.after 0).step.result = .ok .halted := by
    rw [Machine.after_zero, hstep]
    rfl
  have counted := ((runs_compose_and_count fresh lastNop (fun count _ => count + 1) 0).2 rfl rfl).2
    0 (fun j hj => absurd hj (Nat.not_lt_zero j)) 5 (by decide)
  rw [counted.1 halts, Machine.history, hstep]
  rfl

end Session

end WordMachine
