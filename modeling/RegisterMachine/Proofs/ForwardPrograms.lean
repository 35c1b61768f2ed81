import RegisterMachine.Proofs.Footprint

namespace RegisterMachine

/-- A program without returns whose jumps, branches and calls all lead to a higher index. -/
structure Program.ForwardOnly (p : Program) : Prop where
  small : p.size ≤ 0xFFFFFFFF
  noReturn : ∀ i ∈ p.toList, i.opcode? ≠ some .ret
  targets : ∀ index (h : index < p.toList.length), ∀ op ∈ p.toList[index].opcode?,
    op = .jmp ∨ op = .cond ∨ op = .call → index < p.toList[index].longArg.toNat

namespace Machine

variable {σ : Type} {m s t : Machine σ} {i : Instruction}

theorem counter_of_leaves {α : Type} {x : Action σ α} {a : α} (h : Leaves counter x)
    (hx : x m = .ok a s) : s.counter = m.counter := by
  have hm := h m
  rw [hx] at hm
  exact hm

/-- An instruction that goes well and is no return leaves the counter alone or sets it to its
target. -/
theorem counter_of_execute {op : Opcode} (hop : i.opcode? = some op) (hret : op ≠ .ret)
    (hexecute : execute i m = .ok () s) :
    s.counter = m.counter ∨ (op = .jmp ∨ op = .cond ∨ op = .call) ∧ s.counter = i.longArg := by
  rw [execute_of_opcode hop, perform_eq] at hexecute
  have hwrite : ∀ a w, Leaves counter (writeRegister a w : Action σ Unit) :=
    writeRegister_leaves fun _ _ => rfl
  generalize he : op.effect = e at hexecute
  have hopcode : ∀ {other}, e.opcode? = some other → op = other := fun hother =>
    Opcode.eq_of_effect (he ▸ hother)
  cases Primitives.performed_of_perform readRegister_ok hexecute with
  | nothing | passed => exact .inl rfl
  | halt hhalt =>
    cases hhalt
    exact .inl rfl
  | jump hjump =>
    cases hjump
    exact .inr ⟨.inl (hopcode rfl), rfl⟩
  | taken hjump =>
    cases hjump
    exact .inr ⟨.inr (.inl (hopcode rfl)), rfl⟩
  | written _ h => exact .inl (counter_of_leaves (hwrite _ _) h)
  | push h =>
    exact .inl (counter_of_leaves (push_leaves (fun _ _ => rfl) (fun _ _ => rfl) _) h)
  | pop hpop h =>
    have hlowered := counter_of_leaves (pop_leaves fun _ _ => rfl) hpop
    exact .inl ((counter_of_leaves (hwrite _ _) h).trans hlowered)
  | call _ _ hjump =>
    cases hjump
    exact .inr ⟨.inr (.inr (hopcode rfl)), rfl⟩
  | ret => exact absurd (hopcode rfl) hret
  | sys h => exact .inl (counter_of_leaves (invoke_leaves (fun _ _ _ _ _ => rfl) _) h)

/-- A step of a forward program starts inside the program and moves the counter up. -/
theorem step_moves_up (h : m.program.ForwardOnly) (hstep : step m = .ok () s) :
    m.counter.toNat < m.program.size ∧ m.counter.toNat < s.counter.toNat := by
  cases hget : m.program.get m.counter with
  | error fault =>
    rw [step_of_get_error hget] at hstep
    cases hstep
  | ok i =>
    rw [step_of_get hget] at hstep
    obtain ⟨op, hop⟩ := exists_opcode_of_execute hstep
    have hi := Program.get_eq_ok_iff.mp hget
    obtain ⟨hlt, hindex⟩ := List.getElem?_eq_some_iff.mp hi
    have hsize : m.counter.toNat < m.program.size := hlt
    have hret : op ≠ .ret := fun heq => h.noReturn i (List.mem_of_getElem? hi) (heq ▸ hop)
    refine ⟨hsize, ?_⟩
    rcases counter_of_execute hop hret hstep with hnext | ⟨hjump, htarget⟩
    · have hsmall := h.small
      rw [hnext, toNat_add_one (by omega)]
      exact Nat.lt_succ_self _
    · rw [htarget, ← hindex]
      exact h.targets _ hlt op (by rw [hindex, hop]; rfl) hjump

theorem forwardOnly_of_step (h : m.program.ForwardOnly) (hstep : step m = .ok () s) :
    s.program.ForwardOnly ∧ s.program.size = m.program.size := by
  have hprogram := program_step m
  rw [hstep] at hprogram
  have hsame : s.program = m.program := hprogram
  rw [hsame]
  exact ⟨h, rfl⟩

/-- By induction on the number of steps, each of which moves the counter up by at least one. -/
theorem steps_move_up (h : m.program.ForwardOnly) {n : Nat} (hsteps : steps n m = .ok () s) :
    m.counter.toNat + n ≤ s.counter.toNat := by
  induction n generalizing m with
  | zero =>
    cases hsteps
    exact Nat.le_refl _
  | succ n ih =>
    obtain ⟨_, u, hstep, hrest⟩ := exists_ok_of_bind hsteps
    obtain ⟨_, hup⟩ := step_moves_up h hstep
    have hlater := ih (forwardOnly_of_step h hstep).1 hrest
    omega

/-- Steps that go well all start inside the program, so there are no more of them than
instructions from the counter on. -/
theorem steps_stay_below (h : m.program.ForwardOnly) {n : Nat}
    (hsteps : steps (n + 1) m = .ok () s) : m.counter.toNat + n < m.program.size := by
  induction n generalizing m with
  | zero =>
    obtain ⟨_, u, hstep, _⟩ := exists_ok_of_bind hsteps
    exact (step_moves_up h hstep).1
  | succ n ih =>
    obtain ⟨_, u, hstep, hrest⟩ := exists_ok_of_bind hsteps
    obtain ⟨_, hup⟩ := step_moves_up h hstep
    obtain ⟨hforward, hsize⟩ := forwardOnly_of_step h hstep
    have hlater := ih hforward hrest
    omega

theorem le_size_of_steps (h : m.program.ForwardOnly) {n : Nat}
    (hsteps : steps n m = .ok () s) : n ≤ m.program.size := by
  cases n with
  | zero => exact Nat.zero_le _
  | succ n =>
    have hlast := steps_stay_below h hsteps
    omega

theorem steps_add_of_steps {j : Nat} (hsteps : steps j m = .ok () s) (k : Nat) :
    steps (j + k) m = steps k s := by
  induction j generalizing m with
  | zero =>
    cases hsteps
    rw [Nat.zero_add]
  | succ j ih =>
    obtain ⟨_, u, hstep, hrest⟩ := exists_ok_of_bind hsteps
    rw [Nat.add_right_comm, steps_succ_of_step hstep, ih hrest]

/-- Whatever comes before it, a later step fetches its instruction from a higher index. -/
theorem counter_lt_of_steps (h : m.program.ForwardOnly) {j k : Nat} (hlt : j < k)
    (hs : steps j m = .ok () s) (ht : steps k m = .ok () t) :
    s.counter.toNat < t.counter.toNat := by
  obtain ⟨d, rfl⟩ := Nat.exists_eq_add_of_lt hlt
  rw [Nat.add_assoc, steps_add_of_steps hs] at ht
  have hforward : s.program.ForwardOnly := by
    rw [program_steps hs]
    exact h
  have hup := steps_move_up hforward ht
  omega

/-- A run of a forward program ends, with a halt or a fault, after at most as many steps as the
program has instructions; and no two of its steps execute the instruction of the same index. -/
theorem forward_only_stops (h : m.program.ForwardOnly) :
    (∃ n ≤ m.program.size,
      (∃ s, HaltsAfter m.start n s ∧ ∀ limit, n ≤ limit → run limit m = .halted s) ∨
      ∃ fault s, FaultsAfter m.start n fault s ∧
        ∀ limit, n < limit → run limit m = .faulted fault s) ∧
    ∀ j k u v, j < k → steps j m.start = .ok () u → steps k m.start = .ok () v →
      u.counter.toNat < v.counter.toNat := by
  have hstart : m.start.program.ForwardOnly := h
  refine ⟨?_, fun j k u v hlt hu hv => counter_lt_of_steps hstart hlt hu hv⟩
  rcases resume_cases (m.program.size + 1) m.start with ⟨n, _, s, hhalts, _⟩ |
    ⟨n, _, fault, s, hfaults, _⟩ | ⟨s, hruns, _, _⟩
  · refine ⟨n, le_size_of_steps hstart hhalts.steps, .inl ⟨s, hhalts, fun limit hle => ?_⟩⟩
    exact resume_of_haltsAfter hhalts hle
  · have hbound : n ≤ m.program.size := by
      obtain ⟨u, hruns, _, _⟩ := hfaults
      exact le_size_of_steps hstart hruns.steps
    exact ⟨n, hbound, .inr ⟨fault, s, hfaults, fun limit hlt => resume_of_faultsAfter hfaults hlt⟩⟩
  · have hbound : m.program.size + 1 ≤ m.program.size := le_size_of_steps hstart hruns.steps
    omega

/-- Calls the host, goes past a branch and calls beyond the end of the program. -/
def beyondEnd : Machine Word :=
  load (.ofList [.long .sys 0 0, .long .cond 3 0, .long .call 9 0, .bare .halt])
    (CallTable.empty.insert 0 ⟨.zero, pure ()⟩) 1

theorem forward_only_stops_beyond :
    beyondEnd.program.ForwardOnly ∧
      ∃ n ≤ 4, ∃ s, FaultsAfter beyondEnd.start n (.instructionOutside 9 4) s ∧
        ∀ limit, n < limit → run limit beyondEnd = .faulted (.instructionOutside 9 4) s := by
  have hforward : beyondEnd.program.ForwardOnly :=
    ⟨by decide, by decide +kernel, by decide +kernel⟩
  have hrun : run 9 beyondEnd = .faulted (.instructionOutside 9 4) _ := rfl
  refine ⟨hforward, ?_⟩
  obtain ⟨n, hn, ⟨s, _, hhalted⟩ | ⟨fault, s, hfaults, hfaulted⟩⟩ :=
    (forward_only_stops hforward).1
  · have hbound : n ≤ 4 := hn
    cases (hhalted 9 (by omega)).symm.trans hrun
  · have hbound : n ≤ 4 := hn
    cases (hfaulted 9 (by omega)).symm.trans hrun
    exact ⟨n, hbound, _, hfaults, hfaulted⟩

end Machine

end RegisterMachine
