import RegisterMachine.Proofs.Simulation

namespace RegisterMachine

structure ListMachine where
  program : Program
  /-- The words of the registers, but for that of the stack pointer. -/
  registers : Space
  /-- The words on the stack, the top one last. -/
  stack : List Word
  stackSize : Nat
  counter : BitVec 32
  running : Bool

/-- Neither calls the host nor has the stack pointer as its destination. -/
def Instruction.KeepsPointer (i : Instruction) : Prop :=
  ∀ op ∈ i.opcode?, op ≠ .sys ∧ op.effect.destination? i ≠ some Register.sp.index

def Program.KeepsPointer (p : Program) : Prop :=
  ∀ i ∈ p.toList, i.KeepsPointer

instance (i : Instruction) : Decidable i.KeepsPointer :=
  inferInstanceAs (Decidable (∀ op ∈ i.opcode?, _ ∧ _))

instance (p : Program) : Decidable p.KeepsPointer :=
  inferInstanceAs (Decidable (∀ i ∈ p.toList, i.KeepsPointer))

namespace ListMachine

/-- The stack pointer reads as the number of words on the stack. -/
def register? (a : ListMachine) (address : BitVec 16) : Option Word :=
  if address = Register.sp.index then some ⟨BitVec.ofNat 32 a.stack.length⟩
  else a.registers.get? address

def fetch : EStateM Fault ListMachine Instruction := fun a =>
  match a.program.get a.counter with
  | .ok i => .ok i { a with counter := a.counter + 1 }
  | .error fault => .error fault a

def readRegister (address : BitVec 16) : EStateM Fault ListMachine Word := fun a =>
  match a.register? address with
  | some w => .ok w a
  | none => .error (a.registers.outside address) a

def writeRegister (address : BitVec 16) (w : Word) : EStateM Fault ListMachine Unit := fun a =>
  if h : address.toNat < a.registers.size then
    .ok () { a with registers := a.registers.set address w h }
  else .error (a.registers.outside address) a

def push (w : Word) : EStateM Fault ListMachine Unit := fun a =>
  if a.stack.length = a.stackSize then
    .error (.addressOutside (BitVec.ofNat 16 a.stackSize) a.stackSize) a
  else .ok () { a with stack := a.stack ++ [w] }

def pop : EStateM Fault ListMachine Word := fun a =>
  match a.stack.getLast? with
  | none => .error (.addressOutside 0xFFFF a.stackSize) a
  | some w => .ok w { a with stack := a.stack.dropLast }

/-- The list machine has no system calls. -/
def primitives : Primitives ListMachine where
  fetch := fetch
  readRegister := readRegister
  writeRegister := writeRegister
  push := push
  pop := pop
  counter := fun a => .ok a.counter a
  jump := fun target => modify fun a => { a with counter := target }
  halt := modify fun a => { a with running := false }
  invoke := fun number => throw (.unmappedCall number)

end ListMachine

namespace Word

theorem toNat_address_ofNat {n : Nat} (h : n ≤ 0xFFFF) :
    (Word.address ⟨BitVec.ofNat 32 n⟩).toNat = n := by
  simp only [address, BitVec.toNat_setWidth, BitVec.toNat_ofNat]
  omega

theorem next_ofNat (n : Nat) : next ⟨BitVec.ofNat 32 n⟩ = ⟨BitVec.ofNat 32 (n + 1)⟩ := by
  simp [next, BitVec.ofNat_add]

theorem previous_ofNat (n : Nat) :
    previous ⟨BitVec.ofNat 32 (n + 1)⟩ = ⟨BitVec.ofNat 32 n⟩ := by
  rw [← next_ofNat, previous_next]

end Word

namespace Machine

variable {σ : Type}

theorem get?_pointer {m : Machine σ} (h : m.registers.size = Register.count) :
    m.registers.get? Register.sp.index = some m.pointer := by
  have hlt := Register.index_lt_count .sp
  cases hget : m.registers.get? Register.sp.index with
  | none =>
    have hle := Space.get?_eq_none_iff.mp hget
    omega
  | some w => rw [pointer, hget, Option.getD_some]

def toListMachine (m : Machine σ) : ListMachine where
  program := m.program
  registers := m.registers
  stack := m.stack.words.toList.take m.pointer.bits.toNat
  stackSize := m.stack.size
  counter := m.counter
  running := m.running

/-- The machine holds the list of words below its stack pointer, and everything else is equal. -/
structure Represents (m : Machine σ) (a : ListMachine) : Prop where
  program : m.program = a.program
  keepsPointer : m.program.KeepsPointer
  counter : m.counter = a.counter
  running : m.running = a.running
  registerCount : m.registers.size = Register.count
  registersSize : a.registers.size = m.registers.size
  registers : ∀ address, m.registers.get? address = a.register? address
  stackSize : m.stack.size = a.stackSize
  small : a.stackSize ≤ 0xFFFF
  height : a.stack.length ≤ a.stackSize
  cells : ∀ k < a.stack.length, m.stack.words[k]? = a.stack[k]?

/-- What the stack pointer, the words below it, the counter, the flag and the registers say is
what the list machine says. -/
structure AgreesWith (m : Machine σ) (a : ListMachine) : Prop where
  pointer : m.pointer.bits.toNat = a.stack.length
  cells : ∀ k < a.stack.length, m.stack.words[k]? = a.stack[k]?
  counter : m.counter = a.counter
  running : m.running = a.running
  registers : ∀ address, m.registers.get? address = a.register? address

namespace Represents

variable {m : Machine σ} {a : ListMachine}

theorem pointer (h : Represents m a) :
    m.registers.get? Register.sp.index = some ⟨BitVec.ofNat 32 a.stack.length⟩ := by
  rw [h.registers, ListMachine.register?, if_pos rfl]

theorem agreesWith (h : Represents m a) : AgreesWith m a := by
  refine ⟨?_, h.cells, h.counter, h.running, h.registers⟩
  have hheight := h.height
  have hsmall := h.small
  rw [Machine.pointer, h.pointer, Option.getD_some, BitVec.toNat_ofNat]
  omega

theorem readRegister_simulates (address : BitVec 16) :
    Simulates Represents (readRegister address : Action σ Word)
      (ListMachine.readRegister address) := by
  intro m a h
  unfold readRegister ListMachine.readRegister
  rw [h.registers]
  cases a.register? address with
  | some w => exact .ok w h
  | none =>
    rw [Space.outside, Space.outside, h.registersSize]
    exact .error _ m a

theorem writeRegister_simulates {address : BitVec 16} (hne : address ≠ Register.sp.index)
    (w : Word) :
    Simulates Represents (writeRegister address w : Action σ Unit)
      (ListMachine.writeRegister address w) := by
  intro m a h
  unfold writeRegister ListMachine.writeRegister
  by_cases hlt : address.toNat < m.registers.size
  · have hlt' : address.toNat < a.registers.size := h.registersSize ▸ hlt
    rw [dif_pos hlt, dif_pos hlt']
    refine .ok () { h with
      registerCount := (Space.size_set ..).trans h.registerCount
      registersSize := ?_
      registers := ?_ }
    · rw [Space.size_set, Space.size_set, h.registersSize]
    · intro other
      have hother := h.registers other
      unfold ListMachine.register? at hother ⊢
      rw [Space.get?_set, Space.get?_set, hother]
      by_cases hsp : other = Register.sp.index
      · simp [hsp, hne]
      · simp [hsp]
  · have hlt' : ¬address.toNat < a.registers.size := h.registersSize ▸ hlt
    rw [dif_neg hlt, dif_neg hlt', Space.outside, Space.outside, h.registersSize]
    exact .error _ m a

theorem pointer_lt (h : Represents m a) : Register.sp.index.toNat < m.registers.size := by
  rw [h.registerCount]
  exact Register.index_lt_count .sp

/-- Another list of words on the stack, the stack pointer going with it. -/
theorem restack (h : Represents m a) {stack : Space} {list : List Word}
    (hsize : stack.size = m.stack.size) (hheight : list.length ≤ a.stackSize)
    (hcells : ∀ k < list.length, stack.words[k]? = list[k]?) :
    Represents
      { m with
        stack := stack
        registers := m.registers.set Register.sp.index ⟨BitVec.ofNat 32 list.length⟩ h.pointer_lt }
      { a with stack := list } where
  program := h.program
  keepsPointer := h.keepsPointer
  counter := h.counter
  running := h.running
  registerCount := (Space.size_set ..).trans h.registerCount
  registersSize := h.registersSize.trans (Space.size_set ..).symm
  registers := by
    intro address
    have hother := h.registers address
    unfold ListMachine.register? at hother ⊢
    rw [Space.get?_set]
    by_cases hsp : Register.sp.index = address
    · rw [if_pos hsp, if_pos hsp.symm]
    · rw [if_neg hsp, if_neg (Ne.symm hsp), hother, if_neg (Ne.symm hsp)]
  stackSize := hsize.trans h.stackSize
  small := h.small
  height := hheight
  cells := hcells

theorem push_simulates (w : Word) :
    Simulates Represents (push w : Action σ Unit) (ListMachine.push w) := by
  intro m a h
  have hheight := h.height
  have hsmall := h.small
  have haddress := Word.toNat_address_ofNat (Nat.le_trans hheight hsmall)
  rw [push_eq h.pointer h.pointer_lt]
  unfold ListMachine.push
  by_cases hfull : a.stack.length = a.stackSize
  · have hfault : Word.address ⟨BitVec.ofNat 32 a.stack.length⟩ = BitVec.ofNat 16 a.stackSize := by
      apply BitVec.eq_of_toNat_eq
      rw [haddress, BitVec.toNat_ofNat]
      omega
    rw [if_pos hfull, dif_neg (by rw [haddress, h.stackSize]; omega), Space.outside, h.stackSize,
      hfault]
    exact .error _ m a
  · have hlt : (Word.address ⟨BitVec.ofNat 32 a.stack.length⟩).toNat < m.stack.size := by
      rw [haddress, h.stackSize]
      omega
    have hlength : (a.stack ++ [w]).length = a.stack.length + 1 := List.length_append
    have hcells : ∀ k < (a.stack ++ [w]).length,
        (m.stack.set _ w hlt).words[k]? = (a.stack ++ [w])[k]? := by
      intro k hk
      refine (Array.getElem?_set hlt).trans ?_
      rw [haddress]
      by_cases hlast : a.stack.length = k
      · rw [if_pos hlast, ← hlast, List.getElem?_concat_length]
      · have hbelow : k < a.stack.length := by omega
        rw [if_neg hlast, h.cells k hbelow, List.getElem?_append_left hbelow]
    have hpushed := h.restack (Space.size_set ..) (by omega) hcells
    rw [hlength] at hpushed
    rw [if_neg hfull, dif_pos hlt, Word.next_ofNat]
    exact .ok () hpushed

theorem pop_simulates :
    Simulates Represents (pop : Action σ Word) ListMachine.pop := by
  intro m a h
  have hheight := h.height
  have hsmall := h.small
  by_cases hempty : a.stack = []
  · have hsp : m.registers.get? Register.sp.index = some ⟨0⟩ := by
      rw [h.pointer, hempty]
      rfl
    have houtside : m.stack.get? (Word.previous ⟨0⟩).address = none := by
      rw [Space.get?_eq_none_iff, h.stackSize]
      exact hsmall
    rw [pop_of_none hsp h.pointer_lt houtside, ListMachine.pop, hempty, Space.outside,
      h.stackSize]
    exact .error _ _ _
  · obtain ⟨rest, w, hstack⟩ := (List.eq_nil_or_concat a.stack).resolve_left hempty
    rw [List.concat_eq_append] at hstack
    have hlength : a.stack.length = rest.length + 1 := by
      rw [hstack, List.length_append, List.length_singleton]
    have hsp : m.registers.get? Register.sp.index = some ⟨BitVec.ofNat 32 (rest.length + 1)⟩ := by
      rw [h.pointer, hlength]
    have haddress := Word.toNat_address_ofNat (n := rest.length) (by omega)
    have htop : m.stack.get? (Word.previous ⟨BitVec.ofNat 32 (rest.length + 1)⟩).address =
        some w := by
      rw [Word.previous_ofNat, Space.get?, haddress, h.cells rest.length (by omega), hstack,
        List.getElem?_concat_length]
    have hcells : ∀ k < rest.length, m.stack.words[k]? = rest[k]? := by
      intro k hk
      rw [h.cells k (by omega), hstack, List.getElem?_append_left hk]
    have hpopped := h.restack rfl (by omega) hcells
    rw [← Word.previous_ofNat] at hpopped
    rw [pop_of_some hsp h.pointer_lt htop, ListMachine.pop, hstack, List.getLast?_concat,
      List.dropLast_concat]
    exact .ok w hpopped

theorem uses {i : Instruction} (hi : i.KeepsPointer) {op : Opcode} (hop : i.opcode? = some op) :
    op.effect.Uses (Simulates Represents) (Machine.primitives : Primitives (Machine σ))
      ListMachine.primitives i where
  read address _ := readRegister_simulates address
  write address haddress w := by
    have hne : address ≠ Register.sp.index := by
      rintro rfl
      exact (hi op hop).2 haddress
    exact writeRegister_simulates hne w
  push _ w := push_simulates w
  pop _ := pop_simulates
  counter := by
    intro m a h
    show Agree Represents (.ok m.counter m) (.ok a.counter a)
    rw [h.counter]
    exact .ok a.counter h
  jump target := fun _ _ h => .ok () { h with counter := rfl }
  halt _ := fun _ _ h => .ok () { h with running := rfl }
  invoke hsys := absurd (Opcode.eq_of_effect (by rw [hsys]; rfl)) (hi op hop).1

/-- One step keeps the list of words below the stack pointer. -/
theorem step_simulates :
    Simulates Represents (Machine.primitives.step : Action σ Unit)
      ListMachine.primitives.step := by
  intro m a h
  show Agree Represents (EStateM.bind fetch _ m) (EStateM.bind ListMachine.fetch _ a)
  unfold EStateM.bind fetch ListMachine.fetch
  rw [← h.program, ← h.counter]
  cases hget : m.program.get m.counter with
  | error fault => exact .error fault m a
  | ok i =>
    have hi : i.KeepsPointer := h.keepsPointer i (Program.mem_of_get hget)
    refine Primitives.execute_simulates (fun op hop => ?_) _ _
      { h with program := rfl, counter := rfl }
    exact uses hi hop

end Represents

theorem represents_toListMachine {m : Machine σ} (hprogram : m.program.KeepsPointer)
    (hregisters : m.registers.size = Register.count) (hstack : m.stack.size ≤ 0xFFFF)
    (hpointer : m.pointer.bits.toNat ≤ m.stack.size) : Represents m m.toListMachine := by
  have hlength : m.toListMachine.stack.length = m.pointer.bits.toNat := by
    simp only [toListMachine, List.length_take]
    exact Nat.min_eq_left hpointer
  refine ⟨rfl, hprogram, rfl, rfl, hregisters, rfl, ?_, rfl, hstack, ?_, ?_⟩
  · intro address
    unfold ListMachine.register?
    split
    next hsp =>
      rw [hlength, hsp, BitVec.ofNat_toNat, BitVec.setWidth_eq]
      exact get?_pointer hregisters
    next => rfl
  · rw [hlength]
    exact hpointer
  · intro k hk
    rw [hlength] at hk
    simp only [toListMachine]
    rw [List.getElem?_take_of_lt hk, Array.getElem?_toList]

/-- Whatever number of steps is taken, the machine still agrees with the one that has a list, or
the same fault has ended both. -/
theorem steps_agree_with_list {m : Machine σ} (hprogram : m.program.KeepsPointer)
    (hregisters : m.registers.size = Register.count) (hstack : m.stack.size ≤ 0xFFFF)
    (hpointer : m.pointer.bits.toNat ≤ m.stack.size) (n : Nat) :
    Agree AgreesWith (steps n m) (ListMachine.primitives.steps n m.toListMachine) := by
  have hrun := Primitives.steps_simulates Represents.step_simulates n m m.toListMachine
    (represents_toListMachine hprogram hregisters hstack hpointer)
  rw [steps_eq]
  exact hrun.imp fun _ _ h => h.agreesWith

theorem steps_agree_with_list_call :
    Agree AgreesWith
      (steps 5 (load (.ofList [.long .li 7 2, .short .push 2 0 0, .long .call 4 0, .bare .halt,
        .bare .ret]) (.empty : CallTable Unit) 2))
      (ListMachine.primitives.steps 5 (load (.ofList [.long .li 7 2, .short .push 2 0 0,
        .long .call 4 0, .bare .halt, .bare .ret]) (.empty : CallTable Unit) 2).toListMachine) :=
  steps_agree_with_list (by decide +kernel) rfl (by decide) (Nat.zero_le _) 5

end Machine

end RegisterMachine
