import RegisterMachine.Proofs.Effect

namespace RegisterMachine

variable {S α β γ : Type}

/-- The state that an action leaves behind, with or without a fault. -/
def endState : EStateM.Result Fault S α → S
  | .ok _ s => s
  | .error _ s => s

/-- The action changes nothing that `view` sees of the state. -/
def Leaves (view : S → γ) (x : EStateM Fault S α) : Prop :=
  ∀ s, view (endState (x s)) = view s

namespace Leaves

variable {view : S → γ}

theorem pure (a : α) : Leaves view (pure a : EStateM Fault S α) :=
  fun _ => rfl

theorem throw (fault : Fault) : Leaves view (throw fault : EStateM Fault S α) :=
  fun _ => rfl

theorem bind {x : EStateM Fault S α} {f : α → EStateM Fault S β} (hx : Leaves view x)
    (hf : ∀ a, Leaves view (f a)) : Leaves view (x >>= f) := by
  intro s
  have hs := hx s
  show view (endState (EStateM.bind x f s)) = view s
  unfold EStateM.bind
  cases hresult : x s with
  | ok a t =>
    rw [hresult] at hs
    exact (hf a t).trans hs
  | error fault t =>
    rw [hresult] at hs
    exact hs

theorem compositional : Compositional (T := S) fun x _ => Leaves view x :=
  ⟨Leaves.pure, Leaves.throw, Leaves.bind⟩

end Leaves

/-- The primitive actions that an effect uses leave a view of the state alone. -/
structure Effect.Spares (view : S → γ) (A : Primitives S) (i : Instruction) (e : Effect) :
    Prop where
  read : ∀ a, Leaves view (A.readRegister a)
  write : ∀ a, e.destination? i = some a → ∀ w, Leaves view (A.writeRegister a w)
  push : e.usesStack → ∀ w, Leaves view (A.push w)
  pop : e.usesStack → Leaves view A.pop
  counter : Leaves view A.counter
  jump : ∀ target, Leaves view (A.jump target)
  halt : e = .halt → Leaves view A.halt
  invoke : e = .sys → ∀ number, Leaves view (A.invoke number)

theorem Primitives.perform_leaves {view : S → γ} {A : Primitives S} {i : Instruction} {e : Effect}
    (h : e.Spares view A i) : Leaves view (A.perform i e) :=
  Leaves.compositional.perform (B := A)
    ⟨fun a _ => h.read a, h.write, h.push, h.pop, h.counter, h.jump, h.halt, h.invoke⟩

namespace Machine

variable {σ : Type}

theorem readRegister_leaves (view : Machine σ → γ) (address : BitVec 16) :
    Leaves view (readRegister address) := by
  intro m
  unfold readRegister
  split <;> rfl

theorem readStack_leaves (view : Machine σ → γ) (address : BitVec 16) :
    Leaves view (readStack address) := by
  intro m
  unfold readStack
  split <;> rfl

theorem writeRegister_leaves {view : Machine σ → γ}
    (h : ∀ m registers, view { m with registers := registers } = view m) (address : BitVec 16)
    (w : Word) : Leaves view (writeRegister address w) := by
  intro m
  unfold writeRegister
  split
  · exact h m _
  · rfl

theorem writeStack_leaves {view : Machine σ → γ}
    (h : ∀ m stack, view { m with stack := stack } = view m) (address : BitVec 16) (w : Word) :
    Leaves view (writeStack address w) := by
  intro m
  unfold writeStack
  split
  · exact h m _
  · rfl

/-- What decides how a run goes on, apart from the counter. -/
def control (m : Machine σ) : Program × Bool :=
  (m.program, m.running)

theorem push_leaves {view : Machine σ → γ}
    (hregisters : ∀ m registers, view { m with registers := registers } = view m)
    (hstack : ∀ m stack, view { m with stack := stack } = view m) (w : Word) :
    Leaves view (push w) := by
  refine (readRegister_leaves view _).bind fun sp => ?_
  refine (writeStack_leaves hstack _ w).bind fun _ => ?_
  exact writeRegister_leaves hregisters _ _

theorem pop_leaves {view : Machine σ → γ}
    (hregisters : ∀ m registers, view { m with registers := registers } = view m) :
    Leaves view pop := by
  refine (readRegister_leaves view _).bind fun sp => ?_
  exact (writeRegister_leaves hregisters _ _).bind fun _ => readStack_leaves view _

/-- A system call reaches the registers, the stack, the table of calls and the output only. -/
theorem invoke_leaves {view : Machine σ → γ}
    (h : ∀ m calls registers stack output,
      view { m with calls := calls, registers := registers, stack := stack, output := output } =
        view m)
    (number : BitVec 32) : Leaves view (invoke number) := by
  intro m
  simp only [invoke]
  split <;> exact h m _ _ _ _

theorem spares_control {e : Effect} (he : e ≠ .halt) (i : Instruction) :
    e.Spares control (primitives : Primitives (Machine σ)) i where
  read := readRegister_leaves control
  write _ _ := writeRegister_leaves (fun _ _ => rfl) _
  push _ := push_leaves (fun _ _ => rfl) (fun _ _ => rfl)
  pop _ := pop_leaves (fun _ _ => rfl)
  counter := fun _ => rfl
  jump _ := fun _ => rfl
  halt h := absurd h he
  invoke _ := invoke_leaves fun _ _ _ _ _ => rfl

theorem perform_leaves_control {op : Opcode} (hop : op ≠ .halt) (i : Instruction) :
    Leaves control (perform i op : Action σ Unit) := by
  have he : op.effect ≠ .halt := fun heq => hop (Opcode.eq_of_effect (by rw [heq]; rfl))
  rw [perform_eq]
  exact Primitives.perform_leaves (spares_control he i)

theorem execute_of_opcode {i : Instruction} {op : Opcode} (h : i.opcode? = some op) :
    (execute i : Action σ Unit) = perform i op := by
  rw [execute, h]

theorem execute_of_unknown {i : Instruction} (h : i.opcode? = none) :
    (execute i : Action σ Unit) = throw (.unknownOpcode i) := by
  rw [execute, h]

/-- Only a halt touches the program or the flag, and it clears the flag. -/
theorem execute_leaves_control {i : Instruction} (hi : i.opcode? ≠ some .halt) :
    Leaves control (execute i : Action σ Unit) := by
  cases hop : i.opcode? with
  | none =>
    rw [execute_of_unknown hop]
    exact .throw _
  | some op =>
    rw [execute_of_opcode hop]
    exact perform_leaves_control (fun heq => hi (heq ▸ hop)) i

theorem execute_halt {i : Instruction} (hi : i.opcode? = some .halt) (m : Machine σ) :
    execute i m = .ok () { m with running := false } := by
  rw [execute_of_opcode hi]
  rfl

theorem step_of_get {m : Machine σ} {i : Instruction} (h : m.program.get m.counter = .ok i) :
    step m = execute i { m with counter := m.counter + 1 } := by
  show EStateM.bind fetch execute m = _
  rw [EStateM.bind, fetch, h]

theorem step_of_get_error {m : Machine σ} {fault : Fault}
    (h : m.program.get m.counter = .error fault) : step m = .error fault m := by
  show EStateM.bind fetch execute m = _
  rw [EStateM.bind, fetch, h]

/-- A step is a halt, or it leaves the program and the flag alone. -/
theorem step_halts_or_leaves (m : Machine σ) :
    (∃ i, m.program.get m.counter = .ok i ∧ i.opcode? = some .halt ∧
      step m = .ok () { m with counter := m.counter + 1, running := false }) ∨
    control (endState (step m)) = control m := by
  cases hget : m.program.get m.counter with
  | error fault =>
    rw [step_of_get_error hget]
    exact .inr rfl
  | ok i =>
    rw [step_of_get hget]
    by_cases hi : i.opcode? = some .halt
    · exact .inl ⟨i, rfl, hi, execute_halt hi _⟩
    · exact .inr (execute_leaves_control hi _)

theorem program_step (m : Machine σ) : (endState (step m)).program = m.program := by
  rcases step_halts_or_leaves m with ⟨i, _, _, hstep⟩ | hcontrol
  · rw [hstep]
    rfl
  · exact congrArg Prod.fst hcontrol

theorem program_steps {m s : Machine σ} {n : Nat} (h : steps n m = .ok () s) :
    s.program = m.program := by
  induction n generalizing m with
  | zero =>
    cases h
    rfl
  | succ n ih =>
    obtain ⟨_, u, hstep, hrest⟩ := exists_ok_of_bind h
    have hprogram := program_step m
    rw [hstep] at hprogram
    exact (ih hrest).trans hprogram

theorem running_of_step_error {m s : Machine σ} {fault : Fault} (h : step m = .error fault s) :
    s.running = m.running := by
  rcases step_halts_or_leaves m with ⟨i, _, _, hstep⟩ | hcontrol
  · cases h.symm.trans hstep
  · rw [h] at hcontrol
    exact congrArg Prod.snd hcontrol

/-- The step that clears the flag executes a halt, and does nothing else. -/
theorem halt_of_step {m s : Machine σ} (h : step m = .ok () s) (hm : m.running = true)
    (hs : s.running = false) :
    ∃ i, m.program.get m.counter = .ok i ∧ i.opcode? = some .halt ∧
      s = { m with counter := m.counter + 1, running := false } := by
  rcases step_halts_or_leaves m with ⟨i, hget, hi, hstep⟩ | hcontrol
  · cases h.symm.trans hstep
    exact ⟨i, hget, hi, rfl⟩
  · rw [h] at hcontrol
    have hrunning : s.running = m.running := congrArg Prod.snd hcontrol
    rw [hm, hs] at hrunning
    cases hrunning

end Machine

end RegisterMachine
