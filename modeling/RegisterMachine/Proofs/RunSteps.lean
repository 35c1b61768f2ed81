import RegisterMachine.Proofs.Unchanged

namespace RegisterMachine.Machine

variable {σ : Type} {m s t : Machine σ} {n : Nat}

/-- A number of steps without a fault, before each of which the running flag is set. -/
structure RunsFor (m : Machine σ) (n : Nat) (s : Machine σ) : Prop where
  steps : steps n m = .ok () s
  running : ∀ k < n, ∃ u, Machine.steps k m = .ok () u ∧ u.running = true

/-- All steps before the last leave the flag set, and the last one clears it. -/
structure HaltsAfter (m : Machine σ) (n : Nat) (s : Machine σ) : Prop extends RunsFor m n s where
  halted : s.running = false

/-- As many steps go well and leave the flag set, and the next one faults. -/
def FaultsAfter (m : Machine σ) (n : Nat) (fault : Fault) (s : Machine σ) : Prop :=
  ∃ u, RunsFor m n u ∧ u.running = true ∧ step u = .error fault s

/-- The way a run goes if it is given enough steps. -/
def RunsTo (m : Machine σ) (progress : Progress σ) : Prop :=
  ∃ enough, ∀ limit, enough ≤ limit → run limit m = progress

theorem runsFor_zero_iff : RunsFor m 0 s ↔ s = m := by
  constructor
  · rintro ⟨hsteps, _⟩
    cases hsteps
    rfl
  · rintro rfl
    exact ⟨rfl, fun k hk => absurd hk (Nat.not_lt_zero k)⟩

theorem runsFor_succ_iff :
    RunsFor m (n + 1) s ↔ m.running = true ∧ ∃ u, step m = .ok () u ∧ RunsFor u n s := by
  constructor
  · rintro ⟨hsteps, hrunning⟩
    obtain ⟨_, u, hstep, hrest⟩ := exists_ok_of_bind hsteps
    obtain ⟨first, hfirst, hset⟩ := hrunning 0 (Nat.succ_pos n)
    cases hfirst
    refine ⟨hset, u, hstep, hrest, fun k hk => ?_⟩
    have hlater := hrunning (k + 1) (Nat.succ_lt_succ hk)
    rwa [steps_succ_of_step hstep] at hlater
  · rintro ⟨hset, u, hstep, hsteps, hrunning⟩
    refine ⟨(steps_succ_of_step hstep n).trans hsteps, fun k hk => ?_⟩
    cases k with
    | zero => exact ⟨m, rfl, hset⟩
    | succ k =>
      rw [steps_succ_of_step hstep]
      exact hrunning k (Nat.lt_of_succ_lt_succ hk)

theorem runsFor_succ_iff_last :
    RunsFor m (n + 1) s ↔ ∃ u, RunsFor m n u ∧ u.running = true ∧ step u = .ok () s := by
  induction n generalizing m with
  | zero =>
    simp only [runsFor_succ_iff, runsFor_zero_iff]
    constructor
    · rintro ⟨hset, u, hstep, rfl⟩
      exact ⟨m, rfl, hset, hstep⟩
    · rintro ⟨u, rfl, hset, hstep⟩
      exact ⟨hset, s, hstep, rfl⟩
  | succ n ih =>
    rw [runsFor_succ_iff]
    simp only [ih]
    constructor
    · rintro ⟨hset, u, hstep, v, hrest, hv, hlast⟩
      exact ⟨v, runsFor_succ_iff.mpr ⟨hset, u, hstep, hrest⟩, hv, hlast⟩
    · rintro ⟨v, hrest, hv, hlast⟩
      obtain ⟨hset, u, hstep, hrest⟩ := runsFor_succ_iff.mp hrest
      exact ⟨hset, u, hstep, v, hrest, hv, hlast⟩

theorem RunsFor.program_eq (h : RunsFor m n s) : s.program = m.program :=
  program_steps h.steps

theorem resume_of_halted (h : m.running = false) (limit : Nat) :
    resume step limit m = .halted m := by
  cases limit <;> simp [resume, h]

theorem resume_succ_of_ok (hset : m.running = true) (hstep : step m = .ok () s) (limit : Nat) :
    resume step (limit + 1) m = resume step limit s := by
  simp [resume, hset, hstep]

theorem resume_succ_of_error {fault : Fault} (hset : m.running = true)
    (hstep : step m = .error fault s) (limit : Nat) :
    resume step (limit + 1) m = .faulted fault s := by
  simp [resume, hset, hstep]

/-- Steps taken while the flag is set are steps of the run. -/
theorem resume_of_runsFor (h : RunsFor m n s) (limit : Nat) :
    resume step (n + limit) m = resume step limit s := by
  induction n generalizing m with
  | zero => rw [runsFor_zero_iff.mp h, Nat.zero_add]
  | succ n ih =>
    obtain ⟨hset, u, hstep, hrest⟩ := runsFor_succ_iff.mp h
    rw [Nat.add_right_comm, resume_succ_of_ok hset hstep, ih hrest]

theorem resume_of_haltsAfter (h : HaltsAfter m n s) {limit : Nat} (hle : n ≤ limit) :
    resume step limit m = .halted s := by
  obtain ⟨rest, rfl⟩ := Nat.exists_eq_add_of_le hle
  rw [resume_of_runsFor h.toRunsFor, resume_of_halted h.halted]

theorem resume_of_faultsAfter {fault : Fault} (h : FaultsAfter m n fault s) {limit : Nat}
    (hlt : n < limit) : resume step limit m = .faulted fault s := by
  obtain ⟨u, hruns, hset, hstep⟩ := h
  obtain ⟨rest, rfl⟩ := Nat.exists_eq_add_of_lt hlt
  rw [Nat.add_assoc, resume_of_runsFor hruns, resume_succ_of_error hset hstep]

/-- A run halts or faults within its limit, or all steps up to the limit leave the flag set. -/
theorem resume_cases (limit : Nat) (m : Machine σ) :
    (∃ n ≤ limit, ∃ s, HaltsAfter m n s ∧ resume step limit m = .halted s) ∨
    (∃ n < limit, ∃ fault s, FaultsAfter m n fault s ∧ resume step limit m = .faulted fault s) ∨
    ∃ s, RunsFor m limit s ∧ s.running = true ∧ resume step limit m = .unfinished s := by
  have hzero : ∀ m : Machine σ, RunsFor m 0 m := fun _ => runsFor_zero_iff.mpr rfl
  induction limit generalizing m with
  | zero =>
    cases hset : m.running with
    | false => exact .inl ⟨0, Nat.le_refl 0, m, ⟨hzero m, hset⟩, resume_of_halted hset 0⟩
    | true => exact .inr (.inr ⟨m, hzero m, hset, by simp [resume, hset]⟩)
  | succ limit ih =>
    cases hset : m.running with
    | false => exact .inl ⟨0, Nat.zero_le _, m, ⟨hzero m, hset⟩, resume_of_halted hset _⟩
    | true =>
      cases hstep : step m with
      | error fault s =>
        exact .inr (.inl ⟨0, Nat.succ_pos limit, fault, s, ⟨m, hzero m, hset, hstep⟩,
          resume_succ_of_error hset hstep limit⟩)
      | ok _ u =>
        have hlater : ∀ {n s}, RunsFor u n s → RunsFor m (n + 1) s := fun hruns =>
          runsFor_succ_iff.mpr ⟨hset, u, hstep, hruns⟩
        rw [resume_succ_of_ok hset hstep]
        rcases ih u with ⟨n, hn, s, hhalts, hresume⟩ | ⟨n, hn, fault, s, hfaults, hresume⟩ |
          ⟨s, hruns, hlast, hresume⟩
        · exact .inl ⟨n + 1, Nat.succ_le_succ hn, s, ⟨hlater hhalts.toRunsFor, hhalts.halted⟩,
            hresume⟩
        · obtain ⟨v, hruns, hv, hfault⟩ := hfaults
          exact .inr (.inl ⟨n + 1, Nat.succ_lt_succ hn, fault, s, ⟨v, hlater hruns, hv, hfault⟩,
            hresume⟩)
        · exact .inr (.inr ⟨s, hlater hruns, hlast, hresume⟩)

theorem haltsAfter_of_resume {limit : Nat} (h : resume step limit m = .halted s) :
    ∃ n ≤ limit, HaltsAfter m n s := by
  rcases resume_cases limit m with ⟨n, hn, t, hhalts, hresume⟩ | ⟨_, _, _, _, _, hresume⟩ |
    ⟨_, _, _, hresume⟩
  · cases h.symm.trans hresume
    exact ⟨n, hn, hhalts⟩
  · cases h.symm.trans hresume
  · cases h.symm.trans hresume

theorem faultsAfter_of_resume {limit : Nat} {fault : Fault}
    (h : resume step limit m = .faulted fault s) : ∃ n < limit, FaultsAfter m n fault s := by
  rcases resume_cases limit m with ⟨_, _, _, _, hresume⟩ | ⟨n, hn, _, _, hfaults, hresume⟩ |
    ⟨_, _, _, hresume⟩
  · cases h.symm.trans hresume
  · cases h.symm.trans hresume
    exact ⟨n, hn, hfaults⟩
  · cases h.symm.trans hresume

theorem HaltsAfter.le {k : Nat} (hs : HaltsAfter m n s) (ht : HaltsAfter m k t) : n ≤ k := by
  refine Nat.le_of_not_lt fun hlt => ?_
  obtain ⟨u, hsteps, hset⟩ := hs.running k hlt
  cases ht.steps.symm.trans hsteps
  exact absurd (ht.halted.symm.trans hset) Bool.false_ne_true

theorem HaltsAfter.unique {k : Nat} (hs : HaltsAfter m n s) (ht : HaltsAfter m k t) :
    n = k ∧ s = t := by
  obtain rfl : n = k := Nat.le_antisymm (hs.le ht) (ht.le hs)
  cases hs.steps.symm.trans ht.steps
  exact ⟨rfl, rfl⟩

theorem HaltsAfter.positive (h : HaltsAfter m n s) (hset : m.running = true) : 1 ≤ n := by
  cases n with
  | zero =>
    cases runsFor_zero_iff.mp h.toRunsFor
    exact absurd (h.halted.symm.trans hset) Bool.false_ne_true
  | succ n => exact Nat.le_add_left 1 n

/-- The last step of a run that halts executes a halt, which stands just before the counter. -/
theorem HaltsAfter.last (h : HaltsAfter m (n + 1) s) :
    ∃ u i, RunsFor m n u ∧ step u = .ok () s ∧ u.program.get u.counter = .ok i ∧
      i.opcode? = some .halt ∧ s.program.get (s.counter - 1) = .ok i := by
  obtain ⟨u, hruns, hset, hstep⟩ := runsFor_succ_iff_last.mp h.toRunsFor
  obtain ⟨i, hget, hi, rfl⟩ := halt_of_step hstep hset h.halted
  refine ⟨u, i, hruns, hstep, hget, hi, ?_⟩
  rw [BitVec.add_sub_cancel]
  exact hget

theorem runsTo_halted_iff : RunsTo m (.halted s) ↔ ∃ n, 1 ≤ n ∧ HaltsAfter m.start n s := by
  constructor
  · rintro ⟨enough, hrun⟩
    obtain ⟨n, _, hhalts⟩ := haltsAfter_of_resume (hrun enough (Nat.le_refl enough))
    exact ⟨n, hhalts.positive rfl, hhalts⟩
  · rintro ⟨n, _, hhalts⟩
    exact ⟨n, fun limit hle => resume_of_haltsAfter hhalts hle⟩

theorem runsTo_faulted_iff {fault : Fault} :
    RunsTo m (.faulted fault s) ↔ ∃ n, FaultsAfter m.start n fault s := by
  constructor
  · rintro ⟨enough, hrun⟩
    obtain ⟨n, _, hfaults⟩ := faultsAfter_of_resume (hrun enough (Nat.le_refl enough))
    exact ⟨n, hfaults⟩
  · rintro ⟨n, hfaults⟩
    exact ⟨n + 1, fun limit hlt => resume_of_faultsAfter hfaults hlt⟩

/-- A run from any machine halts exactly if steps from its start do, after one number of steps
only, the last of which executes the halt just before the final counter; and it faults exactly if
one of these steps does. -/
theorem run_iterates_step (m : Machine σ) :
    (∀ final, RunsTo m (.halted final) ↔ ∃ n, 1 ≤ n ∧ HaltsAfter m.start n final) ∧
    (∀ n k final other, HaltsAfter m.start n final → HaltsAfter m.start k other →
      n = k ∧ final = other) ∧
    (∀ n final, HaltsAfter m.start (n + 1) final →
      (∃ last i, steps n m.start = .ok () last ∧ step last = .ok () final ∧
        last.program.get last.counter = .ok i ∧ i.opcode? = some .halt) ∧
      final.program = m.program ∧
      ∃ i, m.program.get (final.counter - 1) = .ok i ∧ i.opcode? = some .halt) ∧
    ∀ fault final, RunsTo m (.faulted fault final) ↔ ∃ n, FaultsAfter m.start n fault final := by
  refine ⟨fun final => runsTo_halted_iff, fun n k final other => HaltsAfter.unique,
    fun n final h => ?_, fun fault final => runsTo_faulted_iff⟩
  obtain ⟨last, i, hruns, hstep, hget, hi, hbefore⟩ := h.last
  have hprogram : final.program = m.program := h.program_eq
  rw [hprogram] at hbefore
  exact ⟨⟨last, i, hruns.steps, hstep, hget, hi⟩, hprogram, i, hbefore, hi⟩

/-- A run that jumps over an instruction without a meaning to its halt. -/
def jumpRun (count : Nat) : Machine Unit :=
  (run count (load (.ofList [.long .jmp 2 0, ⟨0xFFFFFFFFFFFFFFFF⟩, .bare .halt]) .empty 0)).machine

theorem run_iterates_step_jump :
    HaltsAfter (jumpRun 2).start 2 (jumpRun 2) ∧ RunsTo (jumpRun 2) (.halted (jumpRun 2)) ∧
      ∃ i, (jumpRun 2).program.get ((jumpRun 2).counter - 1) = .ok i ∧ i.opcode? = some .halt := by
  have hhalts : HaltsAfter (jumpRun 2).start 2 (jumpRun 2) := by
    refine ⟨⟨rfl, fun k hk => ?_⟩, rfl⟩
    obtain rfl | rfl : k = 0 ∨ k = 1 := by omega
    · exact ⟨jumpRun 0, rfl, rfl⟩
    · exact ⟨jumpRun 1, rfl, rfl⟩
  obtain ⟨hhalted, _, hlast, _⟩ := run_iterates_step (jumpRun 2)
  exact ⟨hhalts, (hhalted _).mpr ⟨2, by decide, hhalts⟩, (hlast 1 _ hhalts).2.2⟩

end RegisterMachine.Machine
