import RegisterMachine.Proofs.FaultStates
import RegisterMachine.Proofs.UnreadRegisters

namespace RegisterMachine

/-- The registers that an operation may write, the stack pointer among them if it moves it. -/
def Instruction.registersWritten (i : Instruction) : Opcode → List (BitVec 16)
  | .li | .addi | .subi | .muli | .divi | .icri | .dcri
  | .eqi | .neqi | .lti | .ltei | .gti | .gtei
  | .shli | .shri | .andb | .orb | .xorb | .or | .and => [i.arg2]
  | .push | .call | .ret => [Register.sp.index]
  | .pop => [Register.sp.index, i.arg0]
  | .noop | .halt | .jmp | .cond | .sys => []

def Opcode.writesCounter : Opcode → Bool
  | jmp | cond | call | ret => true
  | _ => false

theorem Opcode.registersWritten_of_writesThird {op : Opcode} (h : op.effect.writesThird = true)
    (i : Instruction) : i.registersWritten op = [i.arg2] := by
  cases op <;> first | rfl | cases h

namespace Machine

variable {σ : Type} {m s t : Machine σ} {i : Instruction}

/-- The cells of the stack that an operation may write. -/
def cellsWritten (m : Machine σ) : Opcode → List Nat
  | .push | .call => [m.pointer.address.toNat]
  | _ => []

theorem pointer_index_lt (h : m.registers.size = Register.count) :
    Register.sp.index.toNat < m.registers.size :=
  h ▸ Register.index_lt_count .sp

/-- The machine with a word put on its stack. -/
def pushed (m : Machine σ) (h : m.registers.size = Register.count) (w : Word)
    (hcell : m.pointer.address.toNat < m.stack.size) : Machine σ :=
  { m with
    stack := m.stack.set m.pointer.address w hcell
    registers := m.registers.set Register.sp.index m.pointer.next (pointer_index_lt h) }

/-- What an effect other than a system call can do to a machine that has all its registers. -/
inductive Performs (m : Machine σ) (h : m.registers.size = Register.count) (i : Instruction) :
    Effect → Machine σ → Prop where
  | nothing : Performs m h i .nothing m
  | halt : Performs m h i .halt { m with running := false }
  | jump : Performs m h i .jump { m with counter := i.longArg }
  | taken : Performs m h i .branch { m with counter := i.longArg }
  | passed : Performs m h i .branch m
  | written {e : Effect} (he : e.writesThird = true) (w : Word)
      (hlt : i.arg2.toNat < m.registers.size) :
      Performs m h i e { m with registers := m.registers.set i.arg2 w hlt }
  | push (w : Word) (hcell : m.pointer.address.toNat < m.stack.size) :
      Performs m h i .push (m.pushed h w hcell)
  | pop (w : Word) (hlt : i.arg0.toNat < (m.lowered h).registers.size) :
      Performs m h i .pop
        { m.lowered h with registers := (m.lowered h).registers.set i.arg0 w hlt }
  | call (hcell : m.pointer.address.toNat < m.stack.size) :
      Performs m h i .call { m.pushed h ⟨m.counter⟩ hcell with counter := i.longArg }
  | ret (w : Word) : Performs m h i .ret { m.lowered h with counter := w.bits }

theorem readRegister_ok {address : BitVec 16} {w : Word}
    (hread : readRegister address m = .ok w s) : s = m := by
  unfold readRegister at hread
  split at hread
  next =>
    cases hread
    rfl
  next => cases hread

theorem writeRegister_ok {address : BitVec 16} {w : Word}
    (hwrite : writeRegister address w m = .ok () s) :
    ∃ hlt, s = { m with registers := m.registers.set address w hlt } := by
  unfold writeRegister at hwrite
  split at hwrite
  next hlt =>
    cases hwrite
    exact ⟨hlt, rfl⟩
  next => cases hwrite

theorem push_ok (h : m.registers.size = Register.count) {w : Word}
    (hpush : push w m = .ok () s) : ∃ hcell, s = m.pushed h w hcell := by
  rw [push_eq (get?_pointer h) (pointer_index_lt h)] at hpush
  split at hpush
  next hcell =>
    cases hpush
    exact ⟨hcell, rfl⟩
  next => cases hpush

theorem pop_ok (h : m.registers.size = Register.count) {w : Word} (hpop : pop m = .ok w s) :
    s = m.lowered h := by
  have hend := endState_pop h
  rw [hpop] at hend
  exact hend

theorem performs_of_perform (h : m.registers.size = Register.count) {e : Effect}
    (hsys : e ≠ .sys) (hperform : primitives.perform i e m = .ok () s) : Performs m h i e s := by
  cases Primitives.performed_of_perform readRegister_ok hperform with
  | nothing => exact .nothing
  | halt hhalt =>
    cases hhalt
    exact .halt
  | jump hjump =>
    cases hjump
    exact .jump
  | taken hjump =>
    cases hjump
    exact .taken
  | passed => exact .passed
  | written he hwrite =>
    obtain ⟨hlt, rfl⟩ := writeRegister_ok hwrite
    exact .written he _ hlt
  | push hpush =>
    obtain ⟨hcell, rfl⟩ := push_ok h hpush
    exact .push _ hcell
  | pop hpop hwrite =>
    cases pop_ok h hpop
    obtain ⟨hlt, rfl⟩ := writeRegister_ok hwrite
    exact .pop _ hlt
  | call hcounter hpush hjump =>
    cases hcounter
    obtain ⟨hcell, rfl⟩ := push_ok h hpush
    cases hjump
    exact .call hcell
  | ret hpop hjump =>
    cases pop_ok h hpop
    cases hjump
    exact .ret _
  | sys => exact absurd rfl hsys

/-- Two machines with the same program, calls and output and with spaces of the same sizes. -/
structure SameFrame (m s : Machine σ) : Prop where
  program : s.program = m.program
  calls : s.calls = m.calls
  output : s.output = m.output
  registerCount : s.registers.size = m.registers.size
  stackSize : s.stack.size = m.stack.size

theorem SameFrame.refl (m : Machine σ) : SameFrame m m :=
  ⟨rfl, rfl, rfl, rfl, rfl⟩

theorem SameFrame.trans (h : SameFrame m s) (h' : SameFrame s t) : SameFrame m t :=
  ⟨h'.program.trans h.program, h'.calls.trans h.calls, h'.output.trans h.output,
    h'.registerCount.trans h.registerCount, h'.stackSize.trans h.stackSize⟩

/-- `s` differs from `m` at most in what the operation of an instruction may write. -/
structure DiffersWithin (i : Instruction) (op : Opcode) (m s : Machine σ) : Prop
    extends SameFrame m s where
  running : s.running = m.running ∨ op = .halt ∧ s.running = false
  counter : s.counter = m.counter ∨ op.writesCounter = true
  registers : ∀ a, a ∉ i.registersWritten op → s.registers.get? a = m.registers.get? a
  stack : ∀ k, k ∉ m.cellsWritten op → s.stack.words[k]? = m.stack.words[k]?

theorem get?_lowered (h : m.registers.size = Register.count) {a : BitVec 16}
    (ha : a ≠ Register.sp.index) : (m.lowered h).registers.get? a = m.registers.get? a := by
  rw [lowered, Space.get?_set, if_neg (Ne.symm ha)]

theorem get?_pushed (h : m.registers.size = Register.count) {w : Word}
    (hcell : m.pointer.address.toNat < m.stack.size) {a : BitVec 16}
    (ha : a ≠ Register.sp.index) :
    (m.pushed h w hcell).registers.get? a = m.registers.get? a := by
  rw [pushed, Space.get?_set, if_neg (Ne.symm ha)]

theorem stack_pushed (h : m.registers.size = Register.count) {w : Word}
    (hcell : m.pointer.address.toNat < m.stack.size) {k : Nat}
    (hk : k ≠ m.pointer.address.toNat) :
    (m.pushed h w hcell).stack.words[k]? = m.stack.words[k]? :=
  Array.getElem?_set_ne hcell (Ne.symm hk)

theorem sameFrame_pushed (h : m.registers.size = Register.count) {w : Word}
    (hcell : m.pointer.address.toNat < m.stack.size) : SameFrame m (m.pushed h w hcell) :=
  ⟨rfl, rfl, rfl, Space.size_set .., Space.size_set ..⟩

theorem sameFrame_lowered (h : m.registers.size = Register.count) : SameFrame m (m.lowered h) :=
  ⟨rfl, rfl, rfl, Space.size_set .., rfl⟩

/-- One case for each kind of effect. -/
theorem Performs.differsWithin {h : m.registers.size = Register.count} {op : Opcode}
    (hperforms : Performs m h i op.effect s) : DiffersWithin i op m s := by
  generalize he : op.effect = e at hperforms
  have hop : ∀ {other}, e.opcode? = some other → op = other := fun hother =>
    Opcode.eq_of_effect (he ▸ hother)
  cases hperforms with
  | nothing => exact ⟨.refl m, .inl rfl, .inl rfl, fun _ _ => rfl, fun _ _ => rfl⟩
  | halt =>
    obtain rfl : op = .halt := hop rfl
    exact ⟨⟨rfl, rfl, rfl, rfl, rfl⟩, .inr ⟨rfl, rfl⟩, .inl rfl, fun _ _ => rfl, fun _ _ => rfl⟩
  | jump =>
    obtain rfl : op = .jmp := hop rfl
    exact ⟨⟨rfl, rfl, rfl, rfl, rfl⟩, .inl rfl, .inr rfl, fun _ _ => rfl, fun _ _ => rfl⟩
  | taken =>
    obtain rfl : op = .cond := hop rfl
    exact ⟨⟨rfl, rfl, rfl, rfl, rfl⟩, .inl rfl, .inr rfl, fun _ _ => rfl, fun _ _ => rfl⟩
  | passed => exact ⟨.refl m, .inl rfl, .inl rfl, fun _ _ => rfl, fun _ _ => rfl⟩
  | written hthird w hlt =>
    have hregisters := Opcode.registersWritten_of_writesThird (he ▸ hthird) i
    refine ⟨⟨rfl, rfl, rfl, Space.size_set .., rfl⟩, .inl rfl, .inl rfl, fun a ha => ?_,
      fun _ _ => rfl⟩
    rw [hregisters, List.mem_singleton] at ha
    rw [Space.get?_set, if_neg (Ne.symm ha)]
  | push w hcell =>
    obtain rfl : op = .push := hop rfl
    refine ⟨sameFrame_pushed h hcell, .inl rfl, .inl rfl, fun a ha => ?_, fun k hk => ?_⟩
    · exact get?_pushed h hcell (mt List.mem_singleton.mpr ha)
    · exact stack_pushed h hcell (mt List.mem_singleton.mpr hk)
  | pop w hlt =>
    obtain rfl : op = .pop := hop rfl
    refine ⟨(sameFrame_lowered h).trans ⟨rfl, rfl, rfl, Space.size_set .., rfl⟩, .inl rfl,
      .inl rfl, fun a ha => ?_, fun _ _ => rfl⟩
    have hne : a ≠ Register.sp.index ∧ a ≠ i.arg0 := by
      simpa [Instruction.registersWritten] using ha
    rw [Space.get?_set, if_neg (Ne.symm hne.2), get?_lowered h hne.1]
  | call hcell =>
    obtain rfl : op = .call := hop rfl
    refine ⟨(sameFrame_pushed h hcell).trans ⟨rfl, rfl, rfl, rfl, rfl⟩, .inl rfl, .inr rfl,
      fun a ha => ?_, fun k hk => ?_⟩
    · exact get?_pushed (w := ⟨m.counter⟩) h hcell (mt List.mem_singleton.mpr ha)
    · exact stack_pushed h hcell (mt List.mem_singleton.mpr hk)
  | ret w =>
    obtain rfl : op = .ret := hop rfl
    refine ⟨(sameFrame_lowered h).trans ⟨rfl, rfl, rfl, rfl, rfl⟩, .inl rfl, .inr rfl,
      fun a ha => ?_, fun _ _ => rfl⟩
    exact get?_lowered h (mt List.mem_singleton.mpr ha)

theorem exists_opcode_of_execute (hexecute : execute i m = .ok () s) :
    ∃ op, i.opcode? = some op := by
  cases hop : i.opcode? with
  | none =>
    rw [execute_of_unknown hop] at hexecute
    cases hexecute
  | some op => exact ⟨op, rfl⟩

theorem execute_differsWithin (h : m.registers.size = Register.count) {op : Opcode}
    (hop : i.opcode? = some op) (hsys : op ≠ .sys) (hexecute : execute i m = .ok () s) :
    DiffersWithin i op m s := by
  rw [execute_of_opcode hop, perform_eq] at hexecute
  have heffect : op.effect ≠ .sys := fun he => hsys (Opcode.eq_of_effect (by rw [he]; rfl))
  exact (performs_of_perform h heffect hexecute).differsWithin

theorem sameFrame_afterFault (h : m.registers.size = Register.count) (i : Instruction) :
    SameFrame m (m.afterFault h i) ∧ (m.afterFault h i).stack = m.stack := by
  unfold afterFault
  split
  · exact ⟨sameFrame_lowered h, rfl⟩
  · exact ⟨.refl m, rfl⟩

/-- None of the first `n` steps executes a system call. -/
def CallsNoHostFor (m : Machine σ) (n : Nat) : Prop :=
  ∀ j < n, ∀ u i, steps j m = .ok () u → u.program.get u.counter = .ok i →
    i.opcode? ≠ some .sys

theorem callsNoHostFor_of_program (h : m.program.CallsNoHost) (n : Nat) : m.CallsNoHostFor n := by
  intro j _ u i hsteps hget
  rw [program_steps hsteps] at hget
  exact h i (Program.mem_of_get hget)

/-- One of the first `n` steps is a push or a call that puts its word into the cell `k`. -/
def PutsInto (m : Machine σ) (n k : Nat) : Prop :=
  ∃ j < n, ∃ u v i, steps j m = .ok () u ∧ u.program.get u.counter = .ok i ∧
    (i.opcode? = some .push ∨ i.opcode? = some .call) ∧ step u = .ok () v ∧
    k = u.pointer.address.toNat

theorem mem_cellsWritten {op : Opcode} {k : Nat} (hk : k ∈ m.cellsWritten op) :
    (op = .push ∨ op = .call) ∧ k = m.pointer.address.toNat := by
  cases op with
  | push => exact ⟨.inl rfl, List.mem_singleton.mp hk⟩
  | call => exact ⟨.inr rfl, List.mem_singleton.mp hk⟩
  | _ => cases hk

/-- A step that is no system call keeps the frame, and a cell that it changes is the one that its
push or call writes. -/
theorem step_keeps (h : m.registers.size = Register.count)
    (hsys : ∀ i, m.program.get m.counter = .ok i → i.opcode? ≠ some .sys) :
    SameFrame m (endState (step m)) ∧
      ∀ k, (endState (step m)).stack.words[k]? = m.stack.words[k]? ∨ m.PutsInto 1 k := by
  cases hget : m.program.get m.counter with
  | error fault =>
    rw [step_of_get_error hget]
    exact ⟨.refl m, fun _ => .inl rfl⟩
  | ok i =>
    have hcall := hsys i hget
    have hstep := step_of_get hget
    have hfetched : SameFrame m { m with counter := m.counter + 1 } := ⟨rfl, rfl, rfl, rfl, rfl⟩
    cases hexecute : execute i { m with counter := m.counter + 1 } with
    | error fault s =>
      have hs := execute_error (m := { m with counter := m.counter + 1 }) h hexecute
        fun hhost => hcall hhost.1
      obtain ⟨hframe, hstack⟩ := sameFrame_afterFault
        (m := { m with counter := m.counter + 1 }) h i
      rw [hstep, hexecute, hs]
      exact ⟨hfetched.trans hframe, fun k => .inl (congrArg (·.words[k]?) hstack)⟩
    | ok _ s =>
      obtain ⟨op, hop⟩ := exists_opcode_of_execute hexecute
      have hwithin := execute_differsWithin (m := { m with counter := m.counter + 1 }) h hop
        (fun heq => hcall (heq ▸ hop)) hexecute
      rw [hexecute] at hstep
      rw [hstep]
      refine ⟨hfetched.trans hwithin.toSameFrame, fun k => ?_⟩
      by_cases hk : k ∈ cellsWritten { m with counter := m.counter + 1 } op
      · obtain ⟨hput, hcell⟩ := mem_cellsWritten hk
        refine .inr ⟨0, Nat.one_pos, m, s, i, rfl, hget, ?_, hstep, hcell⟩
        rw [hop, Option.some.injEq, Option.some.injEq]
        exact hput
      · exact .inl (hwithin.stack k hk)

theorem PutsInto.cons {n k : Nat} (hstep : step m = .ok () s) (h : s.PutsInto n k) :
    m.PutsInto (n + 1) k := by
  obtain ⟨j, hj, u, v, i, hsteps, hrest⟩ := h
  exact ⟨j + 1, Nat.succ_lt_succ hj, u, v, i, (steps_succ_of_step hstep j).trans hsteps, hrest⟩

theorem PutsInto.mono {n n' k : Nat} (hle : n ≤ n') (h : m.PutsInto n k) : m.PutsInto n' k := by
  obtain ⟨j, hj, hrest⟩ := h
  exact ⟨j, Nat.lt_of_lt_of_le hj hle, hrest⟩

theorem CallsNoHostFor.tail {n : Nat} (hstep : step m = .ok () s) (h : m.CallsNoHostFor (n + 1)) :
    s.CallsNoHostFor n := fun j hj u i hsteps =>
  h (j + 1) (Nat.succ_lt_succ hj) u i ((steps_succ_of_step hstep j).trans hsteps)

/-- By induction on the number of steps, from what one step keeps. -/
theorem steps_keep (h : m.registers.size = Register.count) {n : Nat}
    (hcalls : m.CallsNoHostFor n) :
    SameFrame m (endState (steps n m)) ∧
      ∀ k, (endState (steps n m)).stack.words[k]? = m.stack.words[k]? ∨ m.PutsInto n k := by
  induction n generalizing m with
  | zero => exact ⟨.refl m, fun _ => .inl rfl⟩
  | succ n ih =>
    have hfirst := step_keeps h fun i => hcalls 0 (Nat.succ_pos n) m i rfl
    cases hstep : step m with
    | error fault s =>
      rw [hstep] at hfirst
      rw [steps_succ_of_step_error hstep]
      exact ⟨hfirst.1, fun k => (hfirst.2 k).imp_right (.mono (Nat.succ_pos n))⟩
    | ok _ s =>
      rw [hstep] at hfirst
      obtain ⟨hframe, hcells⟩ := hfirst
      obtain ⟨hrest, hlater⟩ := ih (hframe.registerCount.trans h) (hcalls.tail hstep)
      rw [steps_succ_of_step hstep]
      refine ⟨hframe.trans hrest, fun k => ?_⟩
      rcases hlater k with hsame | hput
      · rcases hcells k with hsame' | hput
        · exact .inl (hsame.trans hsame')
        · exact .inr (hput.mono (Nat.succ_pos n))
      · exact .inr (hput.cons hstep)

theorem RunsFor.steps_succ {n : Nat} (h : RunsFor m n s) :
    endState (Machine.steps (n + 1) m) = endState (step s) := by
  induction n generalizing m with
  | zero =>
    rw [runsFor_zero_iff.mp h]
    cases hstep : step m with
    | error fault t => rw [steps_succ_of_step_error hstep]
    | ok _ t =>
      rw [steps_succ_of_step hstep]
      rfl
  | succ n ih =>
    obtain ⟨_, u, hstep, hrest⟩ := runsFor_succ_iff.mp h
    rw [steps_succ_of_step hstep, ih hrest]

/-- A run takes a number of steps up to its limit, with the flag set before each of them. -/
theorem exists_steps_of_resume (m : Machine σ) (limit : Nat) :
    ∃ n ≤ limit, (resume step limit m).machine = endState (steps n m) ∧
      ∀ j < n, ∃ u, steps j m = .ok () u ∧ u.running = true := by
  have hend : ∀ {n s}, RunsFor m n s → s = endState (steps n m) := fun hruns => by
    rw [hruns.steps]
    rfl
  rcases resume_cases limit m with ⟨n, hn, s, hhalts, hresume⟩ |
    ⟨n, hn, fault, s, ⟨u, hruns, hset, hstep⟩, hresume⟩ | ⟨s, hruns, _, hresume⟩
  · rw [hresume]
    exact ⟨n, hn, hend hhalts.toRunsFor, hhalts.running⟩
  · -- The step that faults is one of the steps of the run.
    refine ⟨n + 1, hn, ?_, fun j hj => ?_⟩
    · rw [hresume, hruns.steps_succ, hstep]
      rfl
    · rcases Nat.lt_succ_iff_lt_or_eq.mp hj with hlt | rfl
      · exact hruns.running j hlt
      · exact ⟨u, hruns.steps, hset⟩
  · rw [hresume]
    exact ⟨limit, Nat.le_refl limit, hend hruns, hruns.running⟩

/-- An instruction that is no system call and goes well changes at most what its operation may
write. So over any number of steps without a system call, and over any run without one, programs,
calls, output and sizes stay, and a cell of the stack stays unless a push or a call is put into
it. -/
theorem writes_stay_in_footprint (h : m.registers.size = Register.count) :
    (∀ i op s, i.opcode? = some op → op ≠ .sys → execute i m = .ok () s →
      DiffersWithin i op m s) ∧
    (∀ n, m.CallsNoHostFor n → SameFrame m (endState (steps n m)) ∧
      ∀ k, (endState (steps n m)).stack.words[k]? = m.stack.words[k]? ∨ m.PutsInto n k) ∧
    ∀ limit, ∃ n ≤ limit, (run limit m).machine = endState (steps n m.start) ∧
      (∀ j < n, ∃ u, steps j m.start = .ok () u ∧ u.running = true) ∧
      (m.start.CallsNoHostFor n → SameFrame m (run limit m).machine ∧
        ∀ k, (run limit m).machine.stack.words[k]? = m.stack.words[k]? ∨
          m.start.PutsInto n k) := by
  refine ⟨fun i op s => execute_differsWithin h, fun n => steps_keep h, fun limit => ?_⟩
  obtain ⟨n, hn, hmachine, hrunning⟩ := exists_steps_of_resume m.start limit
  have hrun : (run limit m).machine = endState (steps n m.start) := hmachine
  refine ⟨n, hn, hrun, hrunning, fun hcalls => ?_⟩
  obtain ⟨hframe, hcells⟩ := steps_keep (m := m.start) h hcalls
  have hstart : SameFrame m m.start := ⟨rfl, rfl, rfl, rfl, rfl⟩
  rw [hrun]
  exact ⟨hstart.trans hframe, hcells⟩

/-- Pushes a word where the pointer points once its high half is cut off. -/
def wrappedPush : Machine Unit :=
  { load (.ofList [.short .push 2 0 0, .bare .halt]) .empty 4 with
    registers := ((Space.zeros Register.count).set 1 ⟨0x70003⟩ (by decide)).set 2 ⟨7⟩
      (by decide) }

theorem writes_stay_in_footprint_push :
    (∃ s, execute (.short .push 2 0 0) wrappedPush = .ok () s ∧
      DiffersWithin (.short .push 2 0 0) .push wrappedPush s) ∧
    SameFrame wrappedPush (wrappedPush.run 9).machine ∧
      (wrappedPush.run 9).machine.stack.words[3]? = some ⟨7⟩ ∧ wrappedPush.start.PutsInto 9 3 := by
  obtain ⟨hexecute, _, hrun⟩ := writes_stay_in_footprint (m := wrappedPush) rfl
  have hcalls : wrappedPush.start.program.CallsNoHost := by decide +kernel
  obtain ⟨n, hn, _, _, hkeeps⟩ := hrun 9
  obtain ⟨hframe, hcells⟩ := hkeeps (callsNoHostFor_of_program hcalls n)
  have hpushed : (wrappedPush.run 9).machine.stack.words[3]? = some ⟨7⟩ := by decide +kernel
  have hbefore : wrappedPush.stack.words[3]? = some .zero := by decide +kernel
  refine ⟨⟨_, rfl, hexecute _ .push _ rfl (by decide) rfl⟩, hframe, hpushed, ?_⟩
  rcases hcells 3 with hsame | hput
  · rw [hpushed, hbefore] at hsame
    cases hsame
  · exact hput.mono hn

end Machine

end RegisterMachine
