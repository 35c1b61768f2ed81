import RegisterMachine.Proofs.Simulation
import RegisterMachine.Proofs.Unchanged

namespace RegisterMachine

/-- The registers that an operation reads: its operands, and the stack pointer if it uses the
stack. -/
def Instruction.registersRead (i : Instruction) : Opcode → List (BitVec 16)
  | .addi | .subi | .muli | .divi
  | .eqi | .neqi | .lti | .ltei | .gti | .gtei
  | .shli | .shri | .andb | .orb | .xorb | .or | .and => [i.arg0, i.arg1]
  | .icri | .dcri => [i.arg0]
  | .cond => [i.arg2]
  | .push => [i.arg0, Register.sp.index]
  | .pop | .call | .ret => [Register.sp.index]
  | .noop | .halt | .jmp | .li | .sys => []

theorem Instruction.registersRead_eq (i : Instruction) (op : Opcode) :
    i.registersRead op =
      op.effect.operands i ++ if op.effect.usesStack then [Register.sp.index] else [] := by
  cases op <;> rfl

namespace Program

def CallsNoHost (p : Program) : Prop :=
  ∀ i ∈ p.toList, i.opcode? ≠ some .sys

/-- No instruction reads the register. -/
def Ignores (p : Program) (r : Register) : Prop :=
  ∀ i ∈ p.toList, ∀ op ∈ i.opcode?, r.index ∉ i.registersRead op

instance (p : Program) : Decidable p.CallsNoHost :=
  inferInstanceAs (Decidable (∀ i ∈ p.toList, i.opcode? ≠ some .sys))

instance (p : Program) (r : Register) : Decidable (p.Ignores r) :=
  inferInstanceAs (Decidable (∀ i ∈ p.toList, ∀ op ∈ i.opcode?, r.index ∉ i.registersRead op))

end Program

namespace Machine

variable {σ : Type}

/-- Two machines with the program `p` that differ at most in the word of the register `r`. -/
structure DifferAt (p : Program) (r : Register) (m m' : Machine σ) : Prop where
  program : m.program = p
  sameProgram : m'.program = m.program
  registerCount : m.registers.size = Register.count
  sameRegisterCount : m'.registers.size = m.registers.size
  registers : ∀ a, a ≠ r.index → m'.registers.get? a = m.registers.get? a
  calls : m'.calls = m.calls
  stack : m'.stack = m.stack
  counter : m'.counter = m.counter
  running : m'.running = m.running
  output : m'.output = m.output

namespace DifferAt

variable {p : Program} {r : Register}

theorem readRegister_lockstep {a : BitVec 16} (ha : a ≠ r.index) :
    Lockstep (DifferAt p r) (readRegister a : Action σ Word) (readRegister a) :=
  Machine.readRegister_lockstep (fun _ _ h => h.sameRegisterCount) fun _ _ h => h.registers a ha

/-- A write goes in step whatever its register: afterwards both machines have its word there. -/
theorem writeRegister_lockstep (a : BitVec 16) (w : Word) :
    Lockstep (DifferAt p r) (writeRegister a w : Action σ Unit) (writeRegister a w) := by
  refine Machine.writeRegister_lockstep (fun _ _ h => h.sameRegisterCount) ?_
  intro m m' hlt hlt' h
  refine { h with
    registerCount := (Space.size_set ..).trans h.registerCount
    sameRegisterCount := ?_
    registers := ?_ }
  · rw [Space.size_set, Space.size_set, h.sameRegisterCount]
  · intro b hb
    rw [Space.get?_set, Space.get?_set, h.registers b hb]

theorem push_lockstep (hsp : Register.sp.index ≠ r.index) (w : Word) :
    Lockstep (DifferAt p r) (push w : Action σ Unit) (push w) := by
  refine (readRegister_lockstep hsp).bind fun sp => ?_
  refine (writeStack_lockstep (fun _ _ h => h.stack) ?_ _ w).bind fun _ =>
    writeRegister_lockstep _ _
  exact fun _ _ _ h => { h with stack := rfl }

theorem pop_lockstep (hsp : Register.sp.index ≠ r.index) :
    Lockstep (DifferAt p r) (pop : Action σ Word) pop := by
  refine (readRegister_lockstep hsp).bind fun sp => ?_
  exact (writeRegister_lockstep _ _).bind fun _ => readStack_lockstep (fun _ _ h => h.stack) _

theorem ne_of_operand {i : Instruction} {op : Opcode} (hread : r.index ∉ i.registersRead op)
    {a : BitVec 16} (ha : a ∈ op.effect.operands i) : a ≠ r.index := by
  rintro rfl
  rw [Instruction.registersRead_eq] at hread
  exact hread (List.mem_append_left _ ha)

theorem pointer_ne_of_usesStack {i : Instruction} {op : Opcode}
    (hread : r.index ∉ i.registersRead op) (hstack : op.effect.usesStack) :
    Register.sp.index ≠ r.index := by
  intro heq
  rw [Instruction.registersRead_eq, if_pos hstack] at hread
  exact hread (List.mem_append_right _ (heq ▸ List.mem_singleton_self _))

/-- An instruction that neither reads the register nor calls the host. -/
theorem uses {i : Instruction} {op : Opcode} (hsys : op ≠ .sys)
    (hread : r.index ∉ i.registersRead op) :
    op.effect.Uses (Lockstep (DifferAt p r)) (primitives : Primitives (Machine σ)) primitives i
    where
  read a ha := readRegister_lockstep (ne_of_operand hread ha)
  write a _ w := writeRegister_lockstep a w
  push hstack w := push_lockstep (pointer_ne_of_usesStack hread hstack) w
  pop hstack := pop_lockstep (pointer_ne_of_usesStack hread hstack)
  counter := by
    intro m m' h
    show InStep (DifferAt p r) (.ok m.counter m) (.ok m'.counter m')
    rw [h.counter]
    exact .ok m.counter h
  jump target := fun _ _ h => .ok () { h with counter := rfl }
  halt _ := fun _ _ h => .ok () { h with running := rfl }
  invoke heffect := absurd (Opcode.eq_of_effect (by rw [heffect]; rfl)) hsys

/-- One step keeps the difference to the word of the register. -/
theorem step_lockstep (hcalls : p.CallsNoHost) (hr : p.Ignores r) :
    Lockstep (DifferAt p r) (step : Action σ Unit) step := by
  intro m m' h
  cases hget : m.program.get m.counter with
  | error fault =>
    have hget' : m'.program.get m'.counter = .error fault := by
      rw [h.sameProgram, h.counter, hget]
    rw [step_of_get_error hget, step_of_get_error hget']
    exact .error fault h
  | ok i =>
    have hget' : m'.program.get m'.counter = .ok i := by
      rw [h.sameProgram, h.counter, hget]
    have hi : i ∈ p.toList := h.program ▸ Program.mem_of_get hget
    rw [step_of_get hget, step_of_get hget', execute_eq, h.counter]
    refine Lockstep.compositional.execute (fun op hop => ?_) _ _ { h with counter := rfl }
    exact uses (fun heq => hcalls i hi (heq ▸ hop)) (hr i hi op hop)

end DifferAt

/-- A register that no instruction of a program without system calls reads has no influence on
its steps: whatever its word, they go well and lead to machines that differ at most in that word,
or the same one of them faults in the same way. -/
theorem unread_register_without_influence {p : Program} {r : Register} (hcalls : p.CallsNoHost)
    (hr : p.Ignores r) {m m' : Machine σ} (h : DifferAt p r m m') (n : Nat) :
    (∃ s s', steps n m = .ok () s ∧ steps n m' = .ok () s' ∧ DifferAt p r s s') ∨
    ∃ k < n, ∃ u u' fault s s', steps k m = .ok () u ∧ steps k m' = .ok () u' ∧
      DifferAt p r u u' ∧ step u = .error fault s ∧ step u' = .error fault s' ∧
      DifferAt p r s s' := by
  have hstep := DifferAt.step_lockstep (σ := σ) hcalls hr
  rw [step_eq] at hstep
  simp only [steps_eq, step_eq]
  exact Primitives.steps_lockstep hstep h n

/-- Writes the register that it does not read, then divides by zero. -/
def unreadProgram : Program :=
  .ofList [.long .li 7 2, .short .icri 2 11 11, .short .divi 2 3 11]

def unreadMachine (w : Word) : Machine Unit :=
  { load unreadProgram .empty 0 with
    registers := (Space.zeros Register.count).set Register.gpr10.index w (by decide) }

theorem unread_register_without_influence_divide :
    (unreadMachine ⟨5⟩).registers.get? Register.gpr10.index ≠
      (unreadMachine ⟨6⟩).registers.get? Register.gpr10.index ∧
    (∃ s s', steps 2 (unreadMachine ⟨5⟩) = .ok () s ∧ steps 2 (unreadMachine ⟨6⟩) = .ok () s' ∧
      DifferAt unreadProgram .gpr10 s s') ∧
    ∃ fault s s', steps 3 (unreadMachine ⟨5⟩) = .error fault s ∧
      steps 3 (unreadMachine ⟨6⟩) = .error fault s' := by
  have hdiffer : DifferAt unreadProgram .gpr10 (unreadMachine ⟨5⟩) (unreadMachine ⟨6⟩) := by
    refine ⟨rfl, rfl, rfl, rfl, fun a ha => ?_, rfl, rfl, rfl, rfl, rfl⟩
    simp only [unreadMachine, Space.get?_set, if_neg (Ne.symm ha)]
  have hsteps := unread_register_without_influence (by decide +kernel) (by decide +kernel) hdiffer
  refine ⟨by decide +kernel, ?_, .divisionByZero 7, _, _, rfl, rfl⟩
  rcases hsteps 2 with h | ⟨k, hk, u, u', fault, s, s', hu, _, _, hs, _⟩
  · exact h
  · obtain rfl | rfl : k = 0 ∨ k = 1 := by omega
    · cases hu
      cases hs
    · cases hu
      cases hs

end Machine

end RegisterMachine
