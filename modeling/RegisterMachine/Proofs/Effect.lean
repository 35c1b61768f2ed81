import RegisterMachine.Machine

namespace RegisterMachine

theorem exists_ok_of_bind {S α β : Type} {x : EStateM Fault S α} {f : α → EStateM Fault S β}
    {s t : S} {b : β} (h : (x >>= f) s = .ok b t) : ∃ a u, x s = .ok a u ∧ f a u = .ok b t := by
  have hbind : EStateM.bind x f s = .ok b t := h
  unfold EStateM.bind at hbind
  split at hbind
  next a u hx => exact ⟨a, u, hx, hbind⟩
  next => cases hbind

theorem bind_eq_of_ok {S α β : Type} {x : EStateM Fault S α} {f : α → EStateM Fault S β}
    {s t : S} {a : α} (h : x s = .ok a t) : (x >>= f) s = f a t := by
  show EStateM.bind x f s = _
  rw [EStateM.bind, h]

theorem toNat_add_one {index : BitVec 32} (h : index.toNat < 0xFFFFFFFF) :
    (index + 1).toNat = index.toNat + 1 := by
  have hadd : (index + 1).toNat = (index.toNat + 1) % 0x100000000 := BitVec.toNat_add index 1
  omega

theorem Program.get_eq_ok_iff {p : Program} {index : BitVec 32} {i : Instruction} :
    p.get index = .ok i ↔ p.toList[index.toNat]? = some i := by
  rw [toList, Array.getElem?_toList, get]
  cases p.instructions[index.toNat]? with
  | none => simp
  | some j => simp

theorem Program.mem_of_get {p : Program} {index : BitVec 32} {i : Instruction}
    (h : p.get index = .ok i) : i ∈ p.toList :=
  List.mem_of_getElem? (get_eq_ok_iff.mp h)

/-- What an operation does with the arguments of its instruction. -/
inductive Effect where
  | nothing
  | halt
  | jump
  | branch
  | load
  | unary (f : Word → Word)
  | binary (f : Word → Word → Except Fault Word)
  | connective (decisive : Bool)
  | push
  | pop
  | call
  | ret
  | sys

namespace Effect

def comparison (f : Int → Int → Bool) : Effect :=
  binary fun a b => .ok (Word.ofBool (f a.toInt b.toInt))

def arithmetic (f : Word → Word → Word) : Effect :=
  binary fun a b => .ok (f a b)

/-- The registers that are read as operands. -/
def operands (i : Instruction) : Effect → List (BitVec 16)
  | branch => [i.arg2]
  | unary _ | push => [i.arg0]
  | binary _ | connective _ => [i.arg0, i.arg1]
  | _ => []

def destination? (i : Instruction) : Effect → Option (BitVec 16)
  | load | unary _ | binary _ | connective _ => some i.arg2
  | pop => some i.arg0
  | _ => none

/-- Whether the destination is the register of the third argument, whatever the arguments are. -/
def writesThird : Effect → Bool
  | load | unary _ | binary _ | connective _ => true
  | _ => false

theorem destination?_of_writesThird {e : Effect} (h : e.writesThird = true) (i : Instruction) :
    e.destination? i = some i.arg2 := by
  cases e <;> first | rfl | cases h

def usesStack : Effect → Bool
  | push | pop | call | ret => true
  | _ => false

end Effect

def Opcode.effect : Opcode → Effect
  | noop => .nothing
  | halt => .halt
  | jmp => .jump
  | cond => .branch
  | li => .load
  | addi => .arithmetic .add
  | subi => .arithmetic .sub
  | muli => .arithmetic .mul
  | divi => .binary Word.div
  | icri => .unary .next
  | dcri => .unary .previous
  | eqi => .comparison fun a b => a = b
  | neqi => .comparison fun a b => a ≠ b
  | lti => .comparison fun a b => a < b
  | ltei => .comparison fun a b => a ≤ b
  | gti => .comparison fun a b => b < a
  | gtei => .comparison fun a b => b ≤ a
  | shli => .arithmetic .shiftLeft
  | shri => .arithmetic .shiftRight
  | andb => .arithmetic .bitAnd
  | orb => .arithmetic .bitOr
  | xorb => .arithmetic .bitXor
  | or => .connective true
  | and => .connective false
  | push => .push
  | pop => .pop
  | call => .call
  | ret => .ret
  | sys => .sys

/-- The operation that alone has an effect. -/
def Effect.opcode? : Effect → Option Opcode
  | nothing => some .noop
  | halt => some .halt
  | jump => some .jmp
  | branch => some .cond
  | load => some .li
  | push => some .push
  | pop => some .pop
  | call => some .call
  | ret => some .ret
  | sys => some .sys
  | _ => none

theorem Opcode.eq_of_effect {op other : Opcode} (h : op.effect.opcode? = some other) :
    op = other := by
  cases op <;> first | exact Option.some.inj h | cases h

/-- The actions that steps of a machine with states of type `S` are made of. -/
structure Primitives (S : Type) where
  fetch : EStateM Fault S Instruction
  readRegister : BitVec 16 → EStateM Fault S Word
  writeRegister : BitVec 16 → Word → EStateM Fault S Unit
  push : Word → EStateM Fault S Unit
  pop : EStateM Fault S Word
  counter : EStateM Fault S (BitVec 32)
  jump : BitVec 32 → EStateM Fault S Unit
  halt : EStateM Fault S Unit
  invoke : BitVec 32 → EStateM Fault S Unit

namespace Primitives

variable {S : Type}

def perform (A : Primitives S) (i : Instruction) : Effect → EStateM Fault S Unit
  | .nothing => pure ()
  | .halt => A.halt
  | .jump => A.jump i.longArg
  | .branch => do
    let test ← A.readRegister i.arg2
    if test.toBool then A.jump i.longArg
  | .load => A.writeRegister i.arg2 ⟨i.longArg⟩
  | .unary f => do
    let a ← A.readRegister i.arg0
    A.writeRegister i.arg2 (f a)
  | .binary f => do
    let a ← A.readRegister i.arg0
    let b ← A.readRegister i.arg1
    match f a b with
    | .ok w => A.writeRegister i.arg2 w
    | .error fault => throw fault
  | .connective decisive => do
    let a ← A.readRegister i.arg0
    if a.toBool = decisive then A.writeRegister i.arg2 (Word.ofBool decisive)
    else
      let b ← A.readRegister i.arg1
      A.writeRegister i.arg2 (Word.ofBool b.toBool)
  | .push => do
    let a ← A.readRegister i.arg0
    A.push a
  | .pop => do
    let w ← A.pop
    A.writeRegister i.arg0 w
  | .call => do
    let counter ← A.counter
    A.push ⟨counter⟩
    A.jump i.longArg
  | .ret => do
    let w ← A.pop
    A.jump w.bits
  | .sys => A.invoke i.longArg

def execute (A : Primitives S) (i : Instruction) : EStateM Fault S Unit :=
  match i.opcode? with
  | some op => A.perform i op.effect
  | none => throw (.unknownOpcode i)

def step (A : Primitives S) : EStateM Fault S Unit := do
  let i ← A.fetch
  A.execute i

def steps (A : Primitives S) : Nat → EStateM Fault S Unit
  | 0 => pure ()
  | n + 1 => do
    A.step
    A.steps n

/-- What an effect has done that went well, told by the primitive actions it is made of. -/
inductive Performed (A : Primitives S) (i : Instruction) : Effect → S → S → Prop where
  | nothing (s : S) : Performed A i .nothing s s
  | halt {s t : S} (h : A.halt s = .ok () t) : Performed A i .halt s t
  | jump {s t : S} (h : A.jump i.longArg s = .ok () t) : Performed A i .jump s t
  | taken {s t : S} (h : A.jump i.longArg s = .ok () t) : Performed A i .branch s t
  | passed (s : S) : Performed A i .branch s s
  | written {e : Effect} {s t : S} {w : Word} (he : e.writesThird = true)
      (h : A.writeRegister i.arg2 w s = .ok () t) : Performed A i e s t
  | push {s t : S} {w : Word} (h : A.push w s = .ok () t) : Performed A i .push s t
  | pop {s t u : S} {w : Word} (hpop : A.pop s = .ok w u)
      (h : A.writeRegister i.arg0 w u = .ok () t) : Performed A i .pop s t
  | call {s t u v : S} {counter : BitVec 32} (hcounter : A.counter s = .ok counter u)
      (hpush : A.push ⟨counter⟩ u = .ok () v) (h : A.jump i.longArg v = .ok () t) :
      Performed A i .call s t
  | ret {s t u : S} {w : Word} (hpop : A.pop s = .ok w u) (h : A.jump w.bits u = .ok () t) :
      Performed A i .ret s t
  | sys {s t : S} (h : A.invoke i.longArg s = .ok () t) : Performed A i .sys s t

theorem performed_of_perform {A : Primitives S}
    (hread : ∀ {a w s t}, A.readRegister a s = .ok w t → t = s) {i : Instruction} {e : Effect}
    {s t : S} (h : A.perform i e s = .ok () t) : A.Performed i e s t := by
  cases e with
  | nothing =>
    cases h
    exact .nothing s
  | halt => exact .halt h
  | jump => exact .jump h
  | branch =>
    obtain ⟨test, u, hu, h⟩ := exists_ok_of_bind h
    cases hread hu
    split at h
    next => exact .taken h
    next =>
      cases h
      exact .passed s
  | load => exact .written rfl h
  | unary f =>
    obtain ⟨a, u, hu, h⟩ := exists_ok_of_bind h
    cases hread hu
    exact .written rfl h
  | binary f =>
    obtain ⟨a, u, hu, h⟩ := exists_ok_of_bind h
    cases hread hu
    obtain ⟨b, u, hu, h⟩ := exists_ok_of_bind h
    cases hread hu
    cases hf : f a b with
    | ok w =>
      rw [hf] at h
      exact .written rfl h
    | error fault =>
      rw [hf] at h
      cases h
  | connective decisive =>
    obtain ⟨a, u, hu, h⟩ := exists_ok_of_bind h
    cases hread hu
    split at h
    next => exact .written rfl h
    next =>
      obtain ⟨b, u, hu, h⟩ := exists_ok_of_bind h
      cases hread hu
      exact .written rfl h
  | push =>
    obtain ⟨a, u, hu, h⟩ := exists_ok_of_bind h
    cases hread hu
    exact .push h
  | pop =>
    obtain ⟨w, u, hpop, h⟩ := exists_ok_of_bind h
    exact .pop hpop h
  | call =>
    obtain ⟨counter, u, hcounter, h⟩ := exists_ok_of_bind h
    obtain ⟨_, v, hpush, h⟩ := exists_ok_of_bind h
    exact .call hcounter hpush h
  | ret =>
    obtain ⟨w, u, hpop, h⟩ := exists_ok_of_bind h
    exact .ret hpop h
  | sys => exact .sys h

end Primitives

/-- A relation between the actions of two machines that what is put together from related actions
keeps. -/
structure Compositional {S T : Type}
    (P : ∀ {α : Type}, EStateM Fault S α → EStateM Fault T α → Prop) : Prop where
  pure : ∀ {α : Type} (a : α), P (pure a) (pure a)
  throw : ∀ {α : Type} (fault : Fault), P (throw fault : EStateM Fault S α) (throw fault)
  bind : ∀ {α β : Type} {x : EStateM Fault S α} {y : EStateM Fault T α}
    {f : α → EStateM Fault S β} {g : α → EStateM Fault T β},
    P x y → (∀ a, P (f a) (g a)) → P (x >>= f) (y >>= g)

/-- The primitive actions that an effect uses are related. -/
structure Effect.Uses {S T : Type}
    (P : ∀ {α : Type}, EStateM Fault S α → EStateM Fault T α → Prop) (A : Primitives S)
    (B : Primitives T) (i : Instruction) (e : Effect) : Prop where
  read : ∀ a ∈ e.operands i, P (A.readRegister a) (B.readRegister a)
  write : ∀ a, e.destination? i = some a → ∀ w, P (A.writeRegister a w) (B.writeRegister a w)
  push : e.usesStack → ∀ w, P (A.push w) (B.push w)
  pop : e.usesStack → P A.pop B.pop
  counter : P A.counter B.counter
  jump : ∀ target, P (A.jump target) (B.jump target)
  halt : e = .halt → P A.halt B.halt
  invoke : e = .sys → ∀ number, P (A.invoke number) (B.invoke number)

/-- What relates the primitive actions of an effect relates the effect. -/
theorem Compositional.perform {S T : Type}
    {P : ∀ {α : Type}, EStateM Fault S α → EStateM Fault T α → Prop} (hP : Compositional P)
    {A : Primitives S} {B : Primitives T} {i : Instruction} {e : Effect}
    (h : e.Uses P A B i) : P (A.perform i e) (B.perform i e) := by
  cases e with
  | nothing => exact hP.pure ()
  | halt => exact h.halt rfl
  | jump => exact h.jump i.longArg
  | branch =>
    refine hP.bind (h.read i.arg2 (by simp [Effect.operands])) fun test => ?_
    split
    · exact h.jump i.longArg
    · exact hP.pure ()
  | load => exact h.write i.arg2 rfl _
  | unary f =>
    refine hP.bind (h.read i.arg0 (by simp [Effect.operands])) fun a => ?_
    exact h.write i.arg2 rfl _
  | binary f =>
    refine hP.bind (h.read i.arg0 (by simp [Effect.operands])) fun a => ?_
    refine hP.bind (h.read i.arg1 (by simp [Effect.operands])) fun b => ?_
    cases f a b with
    | ok w => exact h.write i.arg2 rfl w
    | error fault => exact hP.throw fault
  | connective decisive =>
    refine hP.bind (h.read i.arg0 (by simp [Effect.operands])) fun a => ?_
    split
    · exact h.write i.arg2 rfl _
    · refine hP.bind (h.read i.arg1 (by simp [Effect.operands])) fun b => ?_
      exact h.write i.arg2 rfl _
  | push =>
    refine hP.bind (h.read i.arg0 (by simp [Effect.operands])) fun a => ?_
    exact h.push rfl a
  | pop => exact hP.bind (h.pop rfl) fun w => h.write i.arg0 rfl w
  | call =>
    refine hP.bind h.counter fun counter => ?_
    exact hP.bind (h.push rfl ⟨counter⟩) fun _ => h.jump i.longArg
  | ret => exact hP.bind (h.pop rfl) fun w => h.jump w.bits
  | sys => exact h.invoke rfl i.longArg

theorem Compositional.execute {S T : Type}
    {P : ∀ {α : Type}, EStateM Fault S α → EStateM Fault T α → Prop} (hP : Compositional P)
    {A : Primitives S} {B : Primitives T} {i : Instruction}
    (h : ∀ op, i.opcode? = some op → op.effect.Uses P A B i) :
    P (A.execute i) (B.execute i) := by
  unfold Primitives.execute
  cases hop : i.opcode? with
  | none => exact hP.throw _
  | some op => exact hP.perform (h op hop)

namespace Machine

variable {σ : Type}

def primitives : Primitives (Machine σ) where
  fetch := fetch
  readRegister := readRegister
  writeRegister := writeRegister
  push := push
  pop := pop
  counter := fun m => .ok m.counter m
  jump := jump
  halt := modify fun m => { m with running := false }
  invoke := invoke

theorem perform_eq (i : Instruction) (op : Opcode) :
    (perform i op : Action σ Unit) = primitives.perform i op.effect := by
  cases op <;> rfl

theorem execute_eq (i : Instruction) : (execute i : Action σ Unit) = primitives.execute i := by
  unfold execute Primitives.execute
  cases i.opcode? with
  | none => rfl
  | some op => exact perform_eq i op

theorem step_eq : (step : Action σ Unit) = primitives.step := by
  unfold step Primitives.step
  simp only [execute_eq]
  rfl

theorem push_eq {m : Machine σ} {sp : Word} (hsp : m.registers.get? Register.sp.index = some sp)
    (hpointer : Register.sp.index.toNat < m.registers.size) (w : Word) :
    push w m =
      if h : sp.address.toNat < m.stack.size then
        .ok () { m with
          stack := m.stack.set sp.address w h
          registers := m.registers.set Register.sp.index sp.next hpointer }
      else .error (m.stack.outside sp.address) m := by
  have hread : readRegister Register.sp.index m = .ok sp m := by
    simp only [readRegister, hsp]
  show EStateM.bind _ _ m = _
  unfold EStateM.bind
  rw [hread]
  show EStateM.bind _ _ m = _
  unfold EStateM.bind writeStack
  by_cases h : sp.address.toNat < m.stack.size
  · rw [dif_pos h, dif_pos h]
    exact dif_pos hpointer
  · rw [dif_neg h, dif_neg h]

theorem pop_eq {m : Machine σ} {sp : Word} (hsp : m.registers.get? Register.sp.index = some sp)
    (hpointer : Register.sp.index.toNat < m.registers.size) :
    pop m = readStack sp.previous.address
      { m with registers := m.registers.set Register.sp.index sp.previous hpointer } := by
  have hread : readRegister Register.sp.index m = .ok sp m := by
    simp only [readRegister, hsp]
  show EStateM.bind _ _ m = _
  unfold EStateM.bind
  rw [hread]
  show EStateM.bind _ _ m = _
  unfold EStateM.bind writeRegister
  rw [dif_pos hpointer]

theorem pop_of_none {m : Machine σ} {sp : Word}
    (hsp : m.registers.get? Register.sp.index = some sp)
    (hpointer : Register.sp.index.toNat < m.registers.size)
    (htop : m.stack.get? sp.previous.address = none) :
    pop m = .error (m.stack.outside sp.previous.address)
      { m with registers := m.registers.set Register.sp.index sp.previous hpointer } := by
  rw [pop_eq hsp hpointer, readStack, htop]

theorem pop_of_some {m : Machine σ} {sp w : Word}
    (hsp : m.registers.get? Register.sp.index = some sp)
    (hpointer : Register.sp.index.toNat < m.registers.size)
    (htop : m.stack.get? sp.previous.address = some w) :
    pop m = .ok w
      { m with registers := m.registers.set Register.sp.index sp.previous hpointer } := by
  rw [pop_eq hsp hpointer, readStack, htop]

/-- A number of steps one after the other, whether the machine runs or not. -/
def steps : Nat → Action σ Unit
  | 0 => pure ()
  | n + 1 => do
    step
    steps n

theorem steps_succ_of_step {m n : Machine σ} (h : step m = .ok () n) (count : Nat) :
    steps (count + 1) m = steps count n := by
  show EStateM.bind step (fun _ => steps count) m = _
  rw [EStateM.bind, h]

theorem steps_succ_of_step_error {m n : Machine σ} {fault : Fault} (h : step m = .error fault n)
    (count : Nat) : steps (count + 1) m = .error fault n := by
  show EStateM.bind step (fun _ => steps count) m = _
  rw [EStateM.bind, h]

theorem steps_eq (n : Nat) : (steps n : Action σ Unit) = primitives.steps n := by
  induction n with
  | zero => rfl
  | succ n ih => rw [steps, Primitives.steps, ih, step_eq]

end Machine

end RegisterMachine
