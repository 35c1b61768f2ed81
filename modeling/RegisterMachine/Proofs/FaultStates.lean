import RegisterMachine.Proofs.ListStack
import RegisterMachine.Proofs.RunSteps

namespace RegisterMachine

variable {S α β : Type}

theorem exists_error_of_bind {x : EStateM Fault S α} {f : α → EStateM Fault S β} {s t : S}
    {fault : Fault} (h : (x >>= f) s = .error fault t) :
    x s = .error fault t ∨ ∃ a u, x s = .ok a u ∧ f a u = .error fault t := by
  have hbind : EStateM.bind x f s = .error fault t := h
  unfold EStateM.bind at hbind
  split at hbind
  next a u hx => exact .inr ⟨a, u, hx, hbind⟩
  next other u hx =>
    cases hbind
    exact .inl hx

/-- After a fault of the action the state is the one from before it. -/
def Restores (x : EStateM Fault S α) : Prop :=
  ∀ s fault t, x s = .error fault t → t = s

namespace Restores

/-- An action that never changes the state does not change it by a fault either. -/
theorem of_leaves {x : EStateM Fault S α} (h : Leaves id x) : Restores x := by
  intro s fault t hx
  have hs := h s
  rw [hx] at hs
  exact hs

theorem of_ok {x : EStateM Fault S α} (h : ∀ s, ∃ a t, x s = .ok a t) : Restores x := by
  intro s fault t hx
  obtain ⟨a, u, hok⟩ := h s
  cases hx.symm.trans hok

/-- What comes before the action that faults has only looked at the state. -/
theorem bind_of_leaves {x : EStateM Fault S α} {f : α → EStateM Fault S β} (hx : Leaves id x)
    (hf : ∀ a, Restores (f a)) : Restores (x >>= f) := by
  intro s fault t h
  rcases exists_error_of_bind h with h | ⟨a, u, hread, h⟩
  · exact of_leaves hx s fault t h
  · have hs := hx s
    rw [hread] at hs
    exact (hf a u fault t h).trans hs

/-- What comes after the action that faults cannot fault itself. -/
theorem bind_of_ok {x : EStateM Fault S α} {f : α → EStateM Fault S β} (hx : Restores x)
    (hf : ∀ a s, ∃ b t, f a s = .ok b t) : Restores (x >>= f) := by
  intro s fault t h
  rcases exists_error_of_bind h with h | ⟨a, u, _, h⟩
  · exact hx s fault t h
  · obtain ⟨b, v, hok⟩ := hf a u
    cases h.symm.trans hok

end Restores

namespace Machine

variable {σ : Type}

theorem jump_ok (target : BitVec 32) (m : Machine σ) : ∃ a s, jump target m = .ok a s :=
  ⟨(), _, rfl⟩

theorem writeRegister_restores (address : BitVec 16) (w : Word) :
    Restores (writeRegister address w : Action σ Unit) := by
  intro m fault s h
  unfold writeRegister at h
  split at h
  next => cases h
  next =>
    cases h
    rfl

/-- A push writes the stack before it moves the pointer, and what it can read it can write. -/
theorem push_restores (w : Word) : Restores (push w : Action σ Unit) := by
  intro m fault s h
  cases hsp : m.registers.get? Register.sp.index with
  | none =>
    have hread : readRegister Register.sp.index m =
        .error (m.registers.outside Register.sp.index) m := by
      rw [readRegister, hsp]
    rcases exists_error_of_bind h with h | ⟨a, u, hok, _⟩
    · cases h.symm.trans hread
      rfl
    · cases hok.symm.trans hread
  | some sp =>
    rw [push_eq hsp (Array.getElem?_eq_some_iff.mp hsp).1] at h
    split at h
    next => cases h
    next =>
      cases h
      rfl

/-- All effects but those that take a word from the stack or call the host. -/
theorem perform_restores {e : Effect} (hpop : e ≠ .pop) (hret : e ≠ .ret) (hsys : e ≠ .sys)
    (i : Instruction) : Restores (primitives.perform i e : Action σ Unit) := by
  have hread : ∀ a, Leaves id (primitives.readRegister a : Action σ Word) :=
    readRegister_leaves id
  cases e with
  | nothing | halt | jump => exact .of_ok fun _ => ⟨_, _, rfl⟩
  | branch =>
    refine .bind_of_leaves (hread i.arg2) fun test => ?_
    split
    · exact .of_ok (jump_ok i.longArg)
    · exact .of_ok fun _ => ⟨_, _, rfl⟩
  | load => exact writeRegister_restores i.arg2 _
  | unary f => exact .bind_of_leaves (hread i.arg0) fun a => writeRegister_restores i.arg2 _
  | binary f =>
    refine .bind_of_leaves (hread i.arg0) fun a => .bind_of_leaves (hread i.arg1) fun b => ?_
    cases f a b with
    | ok w => exact writeRegister_restores i.arg2 w
    | error fault => exact .of_leaves (.throw fault)
  | connective decisive =>
    refine .bind_of_leaves (hread i.arg0) fun a => ?_
    split
    · exact writeRegister_restores i.arg2 _
    · exact .bind_of_leaves (hread i.arg1) fun b => writeRegister_restores i.arg2 _
  | push => exact .bind_of_leaves (hread i.arg0) push_restores
  | call =>
    refine .bind_of_leaves (fun _ => rfl) fun counter => ?_
    exact .bind_of_ok (push_restores ⟨counter⟩) fun _ => jump_ok i.longArg
  | pop => exact absurd rfl hpop
  | ret => exact absurd rfl hret
  | sys => exact absurd rfl hsys

theorem invoke_of_unmapped {m : Machine σ} {number : BitVec 32}
    (h : m.calls.contains number = false) :
    invoke number m = .error (.unmappedCall number) m := by
  have hnone : m.calls.get? number = none := by
    simpa [CallTable.contains] using h
  simp [invoke, CallTable.invoke, hnone]

/-- The machine with its stack pointer moved down by one. -/
def lowered (m : Machine σ) (h : m.registers.size = Register.count) : Machine σ :=
  { m with
    registers := m.registers.set Register.sp.index m.pointer.previous
      (h ▸ Register.index_lt_count .sp) }

theorem endState_pop {m : Machine σ} (h : m.registers.size = Register.count) :
    endState (pop m) = m.lowered h := by
  rw [pop_eq (get?_pointer h) (h ▸ Register.index_lt_count .sp)]
  exact readStack_leaves id _ _

/-- Whether a pop faults or what follows it does, the pointer stays moved down. -/
theorem pop_bind_error {m s : Machine σ} (h : m.registers.size = Register.count)
    {f : Word → Action σ Unit} (hf : ∀ w, Restores (f w)) {fault : Fault}
    (herror : (pop >>= f) m = .error fault s) : s = m.lowered h := by
  have hend := endState_pop h
  rcases exists_error_of_bind herror with herror | ⟨w, u, hpop, herror⟩
  · rw [herror] at hend
    exact hend
  · rw [hpop] at hend
    exact (hf w u fault s herror).trans hend

/-- What a fault of an instruction leaves behind. -/
def afterFault (m : Machine σ) (h : m.registers.size = Register.count) (i : Instruction) :
    Machine σ :=
  if i.opcode? = some .pop ∨ i.opcode? = some .ret then m.lowered h else m

/-- The instruction hands over to a system call that is there. -/
def CallsHost (m : Machine σ) (i : Instruction) : Prop :=
  i.opcode? = some .sys ∧ m.calls.contains i.longArg = true

theorem execute_error {m s : Machine σ} (h : m.registers.size = Register.count) {i : Instruction}
    {fault : Fault} (herror : execute i m = .error fault s) (hhost : ¬m.CallsHost i) :
    s = m.afterFault h i := by
  unfold afterFault
  cases hop : i.opcode? with
  | none =>
    rw [execute_of_unknown hop] at herror
    cases herror
    rw [if_neg (by simp)]
  | some op =>
    rw [execute_of_opcode hop] at herror
    by_cases hpop : op = .pop
    · subst hpop
      rw [if_pos (.inl rfl)]
      exact pop_bind_error h (writeRegister_restores i.arg0) herror
    by_cases hret : op = .ret
    · subst hret
      rw [if_pos (.inr rfl)]
      exact pop_bind_error h (fun w => .of_ok (jump_ok w.bits)) herror
    rw [if_neg (by simp [hpop, hret])]
    by_cases hsys : op = .sys
    · subst hsys
      have hunmapped : m.calls.contains i.longArg = false :=
        Bool.eq_false_iff.mpr fun hcall => hhost ⟨hop, hcall⟩
      cases herror.symm.trans (invoke_of_unmapped hunmapped)
      rfl
    · rw [perform_eq] at herror
      refine perform_restores (fun he => hpop ?_) (fun he => hret ?_) (fun he => hsys ?_)
        i m fault s herror
      all_goals exact Opcode.eq_of_effect (by rw [he]; rfl)

theorem afterFault_counter (m : Machine σ) (h : m.registers.size = Register.count)
    (i : Instruction) (counter : BitVec 32) :
    afterFault { m with counter := counter } h i =
      { m.afterFault h i with counter := counter } := by
  unfold afterFault
  split <;> rfl

theorem fetch_error {m s : Machine σ} {fault : Fault} (h : fetch m = .error fault s) :
    s = m ∧ step m = .error fault m := by
  unfold fetch at h
  split at h
  next => cases h
  next hget =>
    cases h
    exact ⟨rfl, step_of_get_error hget⟩

theorem fetch_ok {m fetched : Machine σ} {i : Instruction} (h : fetch m = .ok i fetched) :
    fetched = { m with counter := m.counter + 1 } ∧ step m = execute i fetched := by
  unfold fetch at h
  split at h
  next hget =>
    cases h
    exact ⟨rfl, step_of_get hget⟩
  next => cases h

theorem running_of_run_faulted {m s : Machine σ} {limit : Nat} {fault : Fault}
    (h : run limit m = .faulted fault s) : s.running = true := by
  obtain ⟨n, _, u, _, hset, hstep⟩ := faultsAfter_of_resume h
  exact (running_of_step_error hstep).trans hset

/-- An instruction that faults leaves the machine as it was but for the pointer that a pop or a
return has moved down; a step that faults has also moved the counter, unless the instruction is
missing; and a run that faults leaves the flag set. -/
theorem fault_leaves_machine {m : Machine σ} (h : m.registers.size = Register.count) :
    (∀ i fault s, execute i m = .error fault s → ¬m.CallsHost i → s = m.afterFault h i) ∧
    (∀ fault s, fetch m = .error fault s → s = m ∧ step m = .error fault m) ∧
    (∀ i fetched fault s, fetch m = .ok i fetched → execute i fetched = .error fault s →
      ¬m.CallsHost i →
      s = { m.afterFault h i with counter := m.counter + 1 } ∧ step m = .error fault s) ∧
    ∀ limit fault s, run limit m = .faulted fault s → s.running = true := by
  refine ⟨fun i fault s => execute_error h, fun fault s => fetch_error,
    fun i fetched fault s hfetch herror hhost => ?_, fun limit fault s => running_of_run_faulted⟩
  obtain ⟨rfl, hstep⟩ := fetch_ok hfetch
  have hs := execute_error (m := { m with counter := m.counter + 1 }) h herror hhost
  rw [afterFault_counter] at hs
  exact ⟨hs, hstep.trans herror⟩

/-- A machine about to pop a word from its empty stack. -/
def emptyPop : Machine Unit :=
  load (.ofList [.short .pop 2 0 0]) .empty 4

theorem fault_leaves_machine_pop :
    step emptyPop = .error (.addressOutside 0xFFFF 4)
      { emptyPop.lowered rfl with counter := 1 } ∧
    (emptyPop.lowered rfl).pointer = ⟨0xFFFFFFFF⟩ := by
  have hregisters : emptyPop.registers.size = Register.count := rfl
  have hpop : execute (.short .pop 2 0 0) { emptyPop with counter := 1 } =
      .error (.addressOutside 0xFFFF 4) { emptyPop.lowered rfl with counter := 1 } := rfl
  have hfaults := (fault_leaves_machine hregisters).2.2.1 _ _ _ _ rfl hpop
    (by unfold CallsHost; decide)
  exact ⟨hfaults.2, rfl⟩

end Machine

end RegisterMachine
