import RegisterMachine.Proofs.ListStack

namespace RegisterMachine

namespace ListMachine

/-- What an effect can do once the instruction is fetched and the counter is past it. -/
inductive Performs (i : Instruction) : Effect → ListMachine → ListMachine → Prop where
  | nothing (a : ListMachine) : Performs i .nothing a a
  | halt (a : ListMachine) : Performs i .halt a { a with running := false }
  | jump (a : ListMachine) : Performs i .jump a { a with counter := i.longArg }
  | taken (a : ListMachine) : Performs i .branch a { a with counter := i.longArg }
  | passed (a : ListMachine) : Performs i .branch a a
  | written {e : Effect} (a : ListMachine) (registers : Space)
      (he : e.destination? i = some i.arg2) : Performs i e a { a with registers := registers }
  | push (a : ListMachine) (w : Word) : Performs i .push a { a with stack := a.stack ++ [w] }
  | pop {a : ListMachine} {rest : List Word} {w : Word} {registers : Space}
      (htop : a.stack = rest ++ [w]) (hw : registers.get? i.arg0 = some w) :
      Performs i .pop a { a with stack := rest, registers := registers }
  | call (a : ListMachine) :
      Performs i .call a { a with stack := a.stack ++ [⟨a.counter⟩], counter := i.longArg }
  | ret {a : ListMachine} {rest : List Word} {w : Word} (htop : a.stack = rest ++ [w]) :
      Performs i .ret a { a with stack := rest, counter := w.bits }

variable {a b : ListMachine}

theorem readRegister_ok {address : BitVec 16} {w : Word} (h : readRegister address a = .ok w b) :
    b = a := by
  unfold readRegister at h
  split at h
  next =>
    cases h
    rfl
  next => cases h

theorem writeRegister_ok {address : BitVec 16} {w : Word}
    (h : writeRegister address w a = .ok () b) :
    ∃ registers : Space,
      registers.get? address = some w ∧ b = { a with registers := registers } := by
  unfold writeRegister at h
  split at h
  next hlt =>
    cases h
    exact ⟨a.registers.set address w hlt, by rw [Space.get?_set, if_pos rfl], rfl⟩
  next => cases h

theorem push_ok {w : Word} (h : push w a = .ok () b) : b = { a with stack := a.stack ++ [w] } := by
  unfold push at h
  split at h
  next => cases h
  next =>
    cases h
    rfl

theorem pop_ok {w : Word} (h : pop a = .ok w b) :
    ∃ rest, a.stack = rest ++ [w] ∧ b = { a with stack := rest } := by
  unfold pop at h
  split at h
  next => cases h
  next hlast =>
    cases h
    obtain ⟨rest, hrest⟩ := List.getLast?_eq_some_iff.mp hlast
    refine ⟨rest, hrest, ?_⟩
    rw [hrest, List.dropLast_concat]

theorem performs_of_perform {i : Instruction} {e : Effect}
    (h : primitives.perform i e a = .ok () b) : Performs i e a b := by
  cases Primitives.performed_of_perform readRegister_ok h with
  | nothing => exact .nothing a
  | halt h =>
    cases h
    exact .halt a
  | jump h =>
    cases h
    exact .jump a
  | taken h =>
    cases h
    exact .taken a
  | passed => exact .passed a
  | written he h =>
    obtain ⟨registers, _, rfl⟩ := writeRegister_ok h
    exact .written a registers (Effect.destination?_of_writesThird he i)
  | push h =>
    cases push_ok h
    exact .push a _
  | pop hpop h =>
    obtain ⟨rest, htop, rfl⟩ := pop_ok hpop
    obtain ⟨registers, hw, rfl⟩ := writeRegister_ok h
    exact .pop htop hw
  | call hcounter hpush h =>
    cases hcounter
    cases push_ok hpush
    cases h
    exact .call a
  | ret hpop h =>
    obtain ⟨rest, htop, rfl⟩ := pop_ok hpop
    cases h
    exact .ret htop
  | sys h => cases h

theorem performs_of_step (h : primitives.step a = .ok () b) :
    ∃ i op, a.program.get a.counter = .ok i ∧ i.opcode? = some op ∧
      Performs i op.effect { a with counter := a.counter + 1 } b := by
  obtain ⟨i, u, hfetch, hexecute⟩ := exists_ok_of_bind h
  have hfetch' : fetch a = .ok i u := hfetch
  unfold fetch at hfetch'
  split at hfetch'
  next j hj =>
    cases hfetch'
    unfold Primitives.execute at hexecute
    cases hop : i.opcode? with
    | none =>
      rw [hop] at hexecute
      cases hexecute
    | some op =>
      rw [hop] at hexecute
      exact ⟨i, op, hj, hop, performs_of_perform hexecute⟩
  next => cases hfetch'

theorem Performs.program_eq {i : Instruction} {e : Effect} (h : Performs i e a b) :
    b.program = a.program := by
  cases h <;> rfl

end ListMachine

namespace Machine

variable {σ : Type} {m n : Machine σ} {a : ListMachine}

/-- A step of the machine without a fault is one of the list machine. -/
theorem Represents.step (hr : Represents m a) (h : Machine.step m = .ok () n) :
    ∃ b i op, Represents n b ∧ m.program.get m.counter = .ok i ∧ i.opcode? = some op ∧
      ListMachine.Performs i op.effect { a with counter := a.counter + 1 } b := by
  have hagree := Represents.step_simulates m a hr
  rw [← step_eq, h] at hagree
  generalize hb : ListMachine.primitives.step a = result at hagree
  cases hagree with
  | ok _ hrep =>
    obtain ⟨i, op, hget, hop, hperforms⟩ := ListMachine.performs_of_step hb
    rw [← hr.program, ← hr.counter] at hget
    exact ⟨_, i, op, hrep, hget, hop, hperforms⟩

theorem Represents.steps (hr : Represents m a) {count : Nat}
    (h : Machine.steps count m = .ok () n) : ∃ b, Represents n b := by
  have hagree := Primitives.steps_simulates Represents.step_simulates count m a hr
  rw [← steps_eq, h] at hagree
  generalize ListMachine.primitives.steps count a = result at hagree
  cases hagree with
  | ok _ hrep => exact ⟨_, hrep⟩

theorem Represents.pointer_eq (hr : Represents m a) :
    m.pointer.bits.toNat = a.stack.length :=
  hr.agreesWith.pointer

end Machine

end RegisterMachine
