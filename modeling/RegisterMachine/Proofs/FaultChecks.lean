import RegisterMachine.Proofs.ListStack

namespace RegisterMachine

/-- A check is nothing if it is passed, and else the fault that it ends with. -/
abbrev Check := Option Fault

namespace Check

def require (condition : Prop) [Decidable condition] (fault : Fault) : Check :=
  if condition then none else some fault

theorem some_eq_require_iff {condition : Prop} [Decidable condition] {fault other : Fault} :
    some other = require condition fault ↔ ¬condition ∧ fault = other := by
  unfold require
  split
  next h => simp [h]
  next h => simp [h, eq_comm]

def register (address : BitVec 16) : Check :=
  require (address.toNat < Register.count) (.addressOutside address Register.count)

def cell (stack : Space) (address : BitVec 16) : Check :=
  require (address.toNat < stack.size) (.addressOutside address stack.size)

/-- The fault of the first check that fails. -/
def first? (checks : List Check) : Option Fault :=
  checks.findSome? id

@[simp]
theorem first?_nil : first? [] = none := rfl

@[simp]
theorem first?_cons (c : Check) (rest : List Check) : first? (c :: rest) = c.or (first? rest) := by
  cases c <;> rfl

theorem first?_eq_none_iff {checks : List Check} : first? checks = none ↔ ∀ c ∈ checks, c = none :=
  List.findSome?_eq_none_iff

theorem first?_eq_some_iff {checks : List Check} {fault : Fault} :
    first? checks = some fault ↔
      ∃ before after, checks = before ++ some fault :: after ∧ ∀ c ∈ before, c = none := by
  refine List.findSome?_eq_some_iff.trans ⟨?_, ?_⟩
  · rintro ⟨before, c, after, rfl, hc, hbefore⟩
    obtain rfl : c = some fault := hc
    exact ⟨before, after, rfl, hbefore⟩
  · rintro ⟨before, after, rfl, hbefore⟩
    exact ⟨before, some fault, after, rfl, rfl, hbefore⟩

theorem mem_of_first? {checks : List Check} {fault : Fault} (h : first? checks = some fault) :
    some fault ∈ checks := by
  obtain ⟨before, after, rfl, _⟩ := first?_eq_some_iff.mp h
  exact List.mem_append_right _ List.mem_cons_self

end Check

/-- The fault of the call under a number, which is none if there is no such call. -/
def CallTable.hostFault? {σ : Type} (t : CallTable σ) (number : BitVec 32)
    (registers stack : Space) : Option Fault :=
  match t.get? number with
  | none => none
  | some call =>
    match call.act ⟨call.state, registers, stack, #[]⟩ with
    | .ok _ _ => none
    | .error fault _ => some fault

theorem CallTable.fault_invoke {σ : Type} (t : CallTable σ) (number : BitVec 32)
    (registers stack : Space) :
    (t.invoke number registers stack).fault =
      Check.first? [.require (t.contains number) (.unmappedCall number),
        t.hostFault? number registers stack] := by
  unfold invoke hostFault? contains
  cases t.get? number with
  | none => rfl
  | some call =>
    dsimp only
    cases call.act ⟨call.state, registers, stack, #[]⟩ with
    | ok a host => rfl
    | error fault host => rfl

namespace Machine

open Check

variable {σ α β : Type}

def word (m : Machine σ) (address : BitVec 16) : Word :=
  (m.registers.get? address).getD .zero

def operationChecks (m : Machine σ) (i : Instruction) : Opcode → List Check
  | .noop | .halt | .jmp => []
  | .cond | .li => [register i.arg2]
  | .icri | .dcri => [register i.arg0, register i.arg2]
  | .or =>
    if (m.word i.arg0).toBool then [register i.arg0, register i.arg2]
    else [register i.arg0, register i.arg1, register i.arg2]
  | .and =>
    if (m.word i.arg0).toBool then [register i.arg0, register i.arg1, register i.arg2]
    else [register i.arg0, register i.arg2]
  | .divi =>
    let dividend := (m.word i.arg0).toInt
    let divisor := (m.word i.arg1).toInt
    [register i.arg0, register i.arg1,
      require (divisor ≠ 0) (.divisionByZero dividend),
      require (¬(dividend = -0x80000000 ∧ divisor = -1)) .quotientOverflow,
      register i.arg2]
  | .push => [register i.arg0, cell m.stack m.pointer.address]
  | .pop => [cell m.stack m.pointer.previous.address, register i.arg0]
  | .call => [cell m.stack m.pointer.address]
  | .ret => [cell m.stack m.pointer.previous.address]
  | .sys =>
    [require (m.calls.contains i.longArg) (.unmappedCall i.longArg),
      m.calls.hostFault? i.longArg m.registers m.stack]
  | .addi | .subi | .muli | .shli | .shri | .andb | .orb | .xorb
  | .eqi | .neqi | .lti | .ltei | .gti | .gtei =>
    [register i.arg0, register i.arg1, register i.arg2]

/-- All checks of an instruction, the first of which is that its operation code is known. -/
def checks (m : Machine σ) (i : Instruction) : List Check :=
  require (i.opcode?.isSome) (.unknownOpcode i) ::
    match i.opcode? with
    | some op => m.operationChecks i op
    | none => []

/-- The fault with which an action ends, if it does. -/
def fault? : EStateM.Result Fault (Machine σ) α → Option Fault
  | .ok _ _ => none
  | .error fault _ => some fault

theorem fault?_eq_none_iff {r : EStateM.Result Fault (Machine σ) Unit} :
    fault? r = none ↔ ∃ s, r = .ok () s := by
  cases r with
  | ok a s => simp [fault?]
  | error fault s => simp [fault?]

theorem fault?_eq_some_iff {r : EStateM.Result Fault (Machine σ) α} {fault : Fault} :
    fault? r = some fault ↔ ∃ s, r = .error fault s := by
  cases r with
  | ok a s => simp [fault?]
  | error other s => simp [fault?]

theorem fault?_bind_ok {m n : Machine σ} {x : Action σ α} {f : α → Action σ β} {a : α}
    (h : x m = .ok a n) : fault? ((x >>= f) m) = fault? (f a n) := by
  show fault? (EStateM.bind x f m) = _
  rw [EStateM.bind, h]

theorem fault?_bind_error {m n : Machine σ} {x : Action σ α} {f : α → Action σ β} {fault : Fault}
    (h : x m = .error fault n) : fault? ((x >>= f) m) = some fault := by
  show fault? (EStateM.bind x f m) = _
  rw [EStateM.bind, h]
  rfl

theorem fault?_bind_quiet {m : Machine σ} {x : Action σ α} {f : α → Action σ β}
    (hf : ∀ a n, fault? (f a n) = none) : fault? ((x >>= f) m) = fault? (x m) := by
  cases hx : x m with
  | ok a n => rw [fault?_bind_ok hx, hf, fault?]
  | error fault n => rw [fault?_bind_error hx, fault?]

theorem fault?_invoke (m : Machine σ) (number : BitVec 32) :
    fault? (invoke number m) = (m.calls.invoke number m.registers m.stack).fault := by
  simp only [invoke]
  cases hfault : (m.calls.invoke number m.registers m.stack).fault with
  | none => rfl
  | some fault => rfl

section

variable {m : Machine σ} (h : m.registers.size = Register.count)

include h

theorem fault?_readRegister_bind (address : BitVec 16) (f : Word → Action σ β) :
    fault? ((readRegister address >>= f) m) =
      (register address).or (fault? (f (m.word address) m)) := by
  unfold register require
  cases hget : m.registers.get? address with
  | none =>
    have hle := Space.get?_eq_none_iff.mp hget
    have hread : readRegister address m = .error (m.registers.outside address) m := by
      rw [readRegister, hget]
    rw [fault?_bind_error hread, if_neg (by omega), Space.outside, h]
    rfl
  | some w =>
    have hlt := (Array.getElem?_eq_some_iff.mp hget).1
    have hread : readRegister address m = .ok (m.word address) m := by
      rw [readRegister, word, hget]
      rfl
    rw [fault?_bind_ok hread, if_pos (h ▸ hlt)]
    rfl

theorem fault?_writeRegister (address : BitVec 16) (w : Word) :
    fault? (writeRegister address w m) = register address := by
  unfold writeRegister register require
  by_cases hlt : address.toNat < Register.count
  · rw [dif_pos (by omega), if_pos hlt]
    rfl
  · rw [dif_neg (by omega), if_neg hlt, Space.outside, h]
    rfl

theorem fault?_push (w : Word) : fault? (push w m) = cell m.stack m.pointer.address := by
  have hlt : Register.sp.index.toNat < m.registers.size := h ▸ Register.index_lt_count .sp
  rw [push_eq (get?_pointer h) hlt]
  unfold cell require
  by_cases hcell : m.pointer.address.toNat < m.stack.size
  · rw [dif_pos hcell, if_pos hcell]
    rfl
  · rw [dif_neg hcell, if_neg hcell]
    rfl

/-- What follows a pop sees the stack pointer moved and as many registers as before. -/
theorem fault?_pop_bind {c : Check} {f : Word → Action σ β}
    (hf : ∀ w (s : Machine σ), s.registers.size = Register.count → fault? (f w s) = c) :
    fault? ((pop >>= f) m) = (cell m.stack m.pointer.previous.address).or c := by
  have hlt : Register.sp.index.toNat < m.registers.size := h ▸ Register.index_lt_count .sp
  unfold cell require
  cases hget : m.stack.get? m.pointer.previous.address with
  | none =>
    have hle := Space.get?_eq_none_iff.mp hget
    rw [fault?_bind_error (pop_of_none (get?_pointer h) hlt hget), if_neg (by omega), Space.outside]
    rfl
  | some w =>
    have hcell : m.pointer.previous.address.toNat < m.stack.size :=
      (Array.getElem?_eq_some_iff.mp hget).1
    rw [if_pos hcell, Option.none_or]
    refine (fault?_bind_ok (pop_of_some (get?_pointer h) hlt hget)).trans (hf w _ ?_)
    exact (Space.size_set ..).trans h

theorem fault?_combine (i : Instruction) (f : Word → Word → Except Fault Word) :
    fault? (combine i f m) = (register i.arg0).or ((register i.arg1).or
      (match f (m.word i.arg0) (m.word i.arg1) with
        | .ok _ => register i.arg2
        | .error fault => some fault)) := by
  unfold combine
  rw [fault?_readRegister_bind h, fault?_readRegister_bind h]
  cases f (m.word i.arg0) (m.word i.arg1) with
  | ok w => rw [fault?_writeRegister h]
  | error fault => rfl

theorem fault?_arithmetic (i : Instruction) (f : Word → Word → Word) :
    fault? (arithmetic i f m) = first? [register i.arg0, register i.arg1, register i.arg2] := by
  rw [arithmetic, fault?_combine h]
  simp

theorem fault?_comparison (i : Instruction) (f : Int → Int → Bool) :
    fault? (comparison i f m) = first? [register i.arg0, register i.arg1, register i.arg2] := by
  rw [comparison, fault?_combine h]
  simp

theorem fault?_divide (i : Instruction) :
    fault? (combine i Word.div m) = first? (m.operationChecks i .divi) := by
  rw [fault?_combine h]
  simp only [operationChecks, first?_cons, first?_nil, Option.or_none, Word.div]
  by_cases hzero : (m.word i.arg1).toInt = 0
  · simp [hzero, require]
  · by_cases hover : (m.word i.arg0).toInt = -0x80000000 ∧ (m.word i.arg1).toInt = -1
    · simp [hover, require]
    · simp [hzero, hover, require]

theorem fault?_connective (i : Instruction) (decisive : Bool) :
    fault? (connective i decisive m) =
      if (m.word i.arg0).toBool = decisive then first? [register i.arg0, register i.arg2]
      else first? [register i.arg0, register i.arg1, register i.arg2] := by
  unfold connective
  rw [fault?_readRegister_bind h]
  split
  next => simp [fault?_writeRegister h]
  next => simp [fault?_readRegister_bind h, fault?_writeRegister h]

/-- An operation ends with the fault of the first check that fails. -/
theorem fault?_perform (i : Instruction) (op : Opcode) :
    fault? (perform i op m) = first? (m.operationChecks i op) := by
  cases op with
  | noop | halt | jmp => rfl
  | cond =>
    have hquiet :
        fault? ((if (m.word i.arg2).toBool then jump i.longArg else pure ()) m) = none := by
      split <;> rfl
    rw [perform, fault?_readRegister_bind h, hquiet, operationChecks, first?_cons, first?_nil]
  | li =>
    rw [perform, fault?_writeRegister h, operationChecks, first?_cons, first?_nil, Option.or_none]
  | addi | subi | muli | shli | shri | andb | orb | xorb =>
    rw [perform, fault?_arithmetic h, operationChecks]
  | eqi | neqi | lti | ltei | gti | gtei => rw [perform, fault?_comparison h, operationChecks]
  | divi => rw [perform, fault?_divide h]
  | icri | dcri =>
    rw [perform, fault?_readRegister_bind h, fault?_writeRegister h, operationChecks]
    simp
  | or =>
    rw [perform, fault?_connective h, operationChecks]
    split <;> rfl
  | and =>
    rw [perform, fault?_connective h, operationChecks]
    cases (m.word i.arg0).toBool <;> rfl
  | push =>
    rw [perform, fault?_readRegister_bind h, fault?_push h, operationChecks]
    simp
  | pop =>
    rw [perform, fault?_pop_bind h fun w s hs => fault?_writeRegister hs i.arg0 w]
    simp [operationChecks]
  | call =>
    have hcall : perform i .call m = (push ⟨m.counter⟩ >>= fun _ => jump i.longArg) m := rfl
    rw [hcall, fault?_bind_quiet fun _ _ => rfl, fault?_push h, operationChecks]
    simp
  | ret =>
    rw [perform, fault?_pop_bind h (c := none) fun w s hs => rfl]
    simp [operationChecks]
  | sys => rw [perform, fault?_invoke, CallTable.fault_invoke, operationChecks]

theorem fault?_execute (i : Instruction) : fault? (execute i m) = first? (m.checks i) := by
  unfold execute checks
  cases i.opcode? with
  | none => rfl
  | some op =>
    rw [fault?_perform h, first?_cons, require, if_pos (Option.isSome_some), Option.none_or]

end

/-- An instruction is executed without a fault exactly if it passes all its checks, and a fault of
its execution is that of the first check that it does not pass. -/
theorem execute_stops_at_first_failing_check {m : Machine σ}
    (h : m.registers.size = Register.count) (i : Instruction) :
    ((∃ s, execute i m = .ok () s) ↔ ∀ c ∈ m.checks i, c = none) ∧
    ∀ fault, (∃ s, execute i m = .error fault s) ↔
      ∃ passed rest, m.checks i = passed ++ some fault :: rest ∧ ∀ c ∈ passed, c = none := by
  refine ⟨?_, fun fault => ?_⟩
  · rw [← fault?_eq_none_iff, fault?_execute h, first?_eq_none_iff]
  · rw [← fault?_eq_some_iff, fault?_execute h, first?_eq_some_iff]

theorem execute_stops_at_first_failing_check_divide :
    let m : Machine Unit := load .empty .empty 0
    m.registers.size = Register.count ∧
      ∃ s, execute (.short .divi 2 3 99) m = .error (.divisionByZero 0) s :=
  ⟨rfl, ((execute_stops_at_first_failing_check rfl _).2 _).mpr
    ⟨[none, none, none], [none, some (.addressOutside 99 12)], by decide +kernel, by simp⟩⟩

end Machine

end RegisterMachine
