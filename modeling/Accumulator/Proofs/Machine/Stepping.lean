import Accumulator.Machine.Run

/-!
# Steps and runs

A step either carries out a plan or keeps the machine, and a plan is a fetched instruction whose
following address and effect exist. A run consists of steps that execute instructions other than
halts, up to its budget or to the first step that halts or faults.
-/

namespace Accumulator.Machine

/-! ## One step -/

theorem plan_ok_iff {m : Machine} {i : Instruction} {effect : Effect} :
    m.plan = .ok (i, effect) ↔
      ∃ next registers, m.fetch = .ok (i, next) ∧ m.advance i next = .ok registers ∧
        m.effectOf registers i = .ok effect := by
  constructor
  · intro h
    rw [plan] at h
    cases hfetch : m.fetch with
    | error kind => simp [hfetch] at h
    | ok fetched =>
        obtain ⟨j, next⟩ := fetched
        simp only [hfetch] at h
        cases hadvance : m.advance j next with
        | error kind => simp [hadvance] at h
        | ok registers =>
            simp only [hadvance] at h
            cases heffect : m.effectOf registers j with
            | error kind => simp [heffect] at h
            | ok other =>
                simp only [heffect, Except.ok.injEq, Prod.mk.injEq] at h
                obtain ⟨rfl, rfl⟩ := h
                exact ⟨next, registers, rfl, hadvance, heffect⟩
  · rintro ⟨next, registers, hfetch, hadvance, heffect⟩
    simp only [plan, hfetch, hadvance, heffect]

theorem step_ok_iff {m m' : Machine} {i : Instruction} :
    m.step = (m', .ok i) ↔ ∃ effect, m.plan = .ok (i, effect) ∧ m' = m.commit i effect := by
  rw [step]
  cases hplan : m.plan with
  | error kind => simp
  | ok planned =>
      obtain ⟨j, effect⟩ := planned
      simp only [Prod.mk.injEq, Except.ok.injEq]
      constructor
      · rintro ⟨rfl, rfl⟩
        exact ⟨effect, ⟨rfl, rfl⟩, rfl⟩
      · rintro ⟨_, ⟨rfl, rfl⟩, rfl⟩
        exact ⟨rfl, rfl⟩

theorem step_error_iff {m m' : Machine} {fault : Fault} :
    m.step = (m', .error fault) ↔
      m' = m ∧ ∃ kind, m.plan = .error kind ∧ fault = ⟨kind, m.registers.pc⟩ := by
  rw [step]
  cases hplan : m.plan with
  | error kind =>
      simp only [Prod.mk.injEq, Except.error.injEq]
      constructor
      · rintro ⟨rfl, rfl⟩
        exact ⟨rfl, kind, rfl, rfl⟩
      · rintro ⟨rfl, _, rfl, rfl⟩
        exact ⟨rfl, rfl⟩
  | ok planned => simp

theorem advance_ok_iff {m : Machine} {i : Instruction} {next : Nat} {moved : Registers} :
    m.advance i next = .ok moved ↔
      (next < 0x10000 ∧ moved = m.registers.jump (UInt16.ofNat next)) ∨
        (0x10000 ≤ next ∧ fallsThrough m.registers.flags i = false ∧ moved = m.registers) := by
  rw [advance]
  by_cases hnext : next < 0x10000
  · have hle : ¬ 0x10000 ≤ next := Nat.not_le.mpr hnext
    rw [if_pos hnext, Except.ok.injEq]
    simp only [hnext, hle, true_and, false_and, or_false]
    exact eq_comm
  · have hle : 0x10000 ≤ next := Nat.le_of_not_lt hnext
    rw [if_neg hnext]
    cases fallsThrough m.registers.flags i with
    | false =>
        simp only [hnext, hle, Bool.false_eq_true, if_false, Except.ok.injEq, false_and, false_or,
          true_and]
        exact eq_comm
    | true => simp [hnext]

theorem step_counter {m m' : Machine} {i : Instruction} (h : m.step = (m', .ok i)) :
    m'.counter = m.counter + 1 := by
  obtain ⟨effect, _, rfl⟩ := step_ok_iff.mp h
  rfl

theorem step_lastInstruction {m m' : Machine} {i : Instruction} (h : m.step = (m', .ok i)) :
    m'.lastInstruction = some i := by
  obtain ⟨effect, _, rfl⟩ := step_ok_iff.mp h
  rfl

/-! ## The cycle count -/

/-- The cycle count has grown by a number of instructions on the way to another machine. -/
structure Counts (m : Machine) (n : Nat) (m' : Machine) : Prop where
  /-- The counter has gone on by the number, from its largest value to zero where it got there. -/
  counter : m'.counter = m.counter + .ofNat n
  /-- As long as the counter has room, the count is exact. -/
  cycles : m.cycles + n < 0x10000000000000000 → m'.cycles = m.cycles + n

theorem counts_of_counter {m m' : Machine} {n : Nat} (h : m'.counter = m.counter + .ofNat n) :
    m.Counts n m' where
  counter := h
  cycles hroom := by
    have hn : (UInt64.ofNat n).toNat = n :=
      UInt64.toNat_ofNat_of_lt (Nat.lt_of_le_of_lt (Nat.le_add_left n _) hroom)
    rw [cycles, h, UInt64.toNat_add, hn]
    exact Nat.mod_eq_of_lt hroom

theorem Counts.zero (m : Machine) : m.Counts 0 m := counts_of_counter (UInt64.add_zero _).symm

theorem Counts.trans {m next m' : Machine} {k n : Nat} (h : m.Counts k next)
    (h' : next.Counts n m') : m.Counts (k + n) m' := by
  apply counts_of_counter
  rw [h'.counter, h.counter, UInt64.ofNat_add, UInt64.add_assoc]

theorem counts_step {m m' : Machine} {i : Instruction} (h : m.step = (m', .ok i)) :
    m.Counts 1 m' :=
  counts_of_counter (step_counter h)

/-- The difference of the counters is the number, unless that takes more than 64 bits. -/
theorem Counts.toNat_sub {m m' : Machine} {n : Nat} (h : m.Counts n m')
    (hn : n < 0x10000000000000000) :
    (m'.counter - m.counter).toNat = n := by
  rw [h.counter, UInt64.add_comm, UInt64.add_sub_cancel]
  exact UInt64.toNat_ofNat_of_lt hn

/-! ## Several steps -/

/-- The machine after a number of steps. -/
def after (m : Machine) : Nat → Machine
  | 0 => m
  | n + 1 => m.step.1.after n

/-- The next step executes an instruction. -/
def Executes (m : Machine) : Prop := ∃ i, m.step.2 = .ok i

/-- The next step executes an instruction other than a halt. -/
def Proceeds (m : Machine) : Prop := ∃ i, m.step.2 = .ok i ∧ i ≠ .halt

/-- A number of steps all execute instructions other than halts. -/
def RunsFor (m : Machine) (n : Nat) : Prop := ∀ k < n, (m.after k).Proceeds

@[simp] theorem after_zero (m : Machine) : m.after 0 = m := rfl

theorem after_add (m : Machine) (k n : Nat) : m.after (k + n) = (m.after k).after n := by
  induction k generalizing m with
  | zero => rw [Nat.zero_add, after_zero]
  | succ k ih => rw [Nat.add_right_comm, after, after, ih]

theorem after_succ (m : Machine) (n : Nat) : m.after (n + 1) = (m.after n).step.1 :=
  after_add m n 1

theorem Proceeds.executes {m : Machine} : m.Proceeds → m.Executes
  | ⟨i, hi, _⟩ => ⟨i, hi⟩

theorem after_of_not_executes {m : Machine} (h : ¬ m.Executes) : m.after 1 = m := by
  cases hstep : m.step with
  | mk next result =>
      cases result with
      | ok i => exact absurd ⟨i, by rw [hstep]⟩ h
      | error fault =>
          rw [after, after, hstep]
          exact (step_error_iff.mp hstep).1

theorem counts_after {m : Machine} {n : Nat} (h : ∀ k < n, (m.after k).Executes) :
    m.Counts n (m.after n) := by
  induction n with
  | zero => exact .zero m
  | succ n ih =>
      obtain ⟨i, hi⟩ := h n (Nat.lt_succ_self n)
      have hstep : (m.after n).step = (m.after (n + 1), .ok i) :=
        Prod.ext (m.after_succ n).symm hi
      have hcount : m.Counts n (m.after n) := by
        apply ih
        intro k hk
        exact h k (Nat.lt_succ_of_lt hk)
      exact hcount.trans (counts_step hstep)

theorem runsFor_zero (m : Machine) : m.RunsFor 0 := by
  intro k hk
  exact absurd hk (Nat.not_lt_zero k)

theorem RunsFor.mono {m : Machine} {n n' : Nat} (h : m.RunsFor n) (hle : n' ≤ n) :
    m.RunsFor n' := by
  intro k hk
  exact h k (Nat.lt_of_lt_of_le hk hle)

theorem runsFor_add {m : Machine} {k n : Nat} :
    m.RunsFor (k + n) ↔ m.RunsFor k ∧ (m.after k).RunsFor n := by
  constructor
  · intro h
    constructor
    · exact h.mono (Nat.le_add_right k n)
    · intro j hj
      rw [← after_add]
      exact h (k + j) (Nat.add_lt_add_left hj k)
  · rintro ⟨hk, hn⟩ j hj
    by_cases hlt : j < k
    · exact hk j hlt
    · obtain ⟨i, rfl⟩ := Nat.exists_eq_add_of_le (Nat.le_of_not_lt hlt)
      rw [after_add]
      exact hn i (Nat.lt_of_add_lt_add_left hj)

theorem runsFor_one {m : Machine} : m.RunsFor 1 ↔ m.Proceeds := by
  constructor
  · intro h
    exact h 0 Nat.zero_lt_one
  · intro h k hk
    rw [Nat.lt_one_iff.mp hk]
    exact h

theorem runsFor_succ {m : Machine} {n : Nat} :
    m.RunsFor (n + 1) ↔ m.Proceeds ∧ m.step.1.RunsFor n := by
  rw [Nat.add_comm, runsFor_add, runsFor_one]
  rfl

theorem RunsFor.counts {m : Machine} {n : Nat} (h : m.RunsFor n) : m.Counts n (m.after n) := by
  apply counts_after
  intro k hk
  exact (h k hk).executes

/-- A run that faults has executed instructions up to the one that faults, and none of that one. -/
theorem runFrom_error {m m' : Machine} {done budget : Nat} {fault : Fault}
    (h : runFrom done budget m = (m', .error fault)) :
    ∃ k, k < budget ∧ m.RunsFor k ∧ m.after k = m' ∧ m'.step = (m', .error fault) := by
  induction budget generalizing m done with
  | zero => simp [runFrom] at h
  | succ budget ih =>
      rw [runFrom] at h
      split at h
      case h_1 next fault' hstep =>
        obtain ⟨rfl, rfl⟩ : next = m' ∧ fault' = fault := by simpa using h
        obtain rfl := (step_error_iff.mp hstep).1
        exact ⟨0, Nat.succ_pos budget, runsFor_zero _, rfl, hstep⟩
      case h_2 next hstep => simp at h
      case h_3 next i hnot hstep =>
        obtain ⟨k, hk, hruns, hafter, hfault⟩ := ih h
        have hproceeds : m.Proceeds := by
          refine ⟨i, by rw [hstep], ?_⟩
          rintro rfl
          exact hnot rfl
        have hnext : m.step.1 = next := by rw [hstep]
        refine ⟨k + 1, Nat.succ_lt_succ hk, runsFor_succ.mpr ⟨hproceeds, ?_⟩, ?_, hfault⟩
        · rwa [hnext]
        · rwa [after, hnext]

end Accumulator.Machine
