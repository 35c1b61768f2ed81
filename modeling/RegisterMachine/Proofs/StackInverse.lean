import RegisterMachine.Proofs.Footprint

namespace RegisterMachine

namespace Space

variable {s : Space} {a : BitVec 16}

theorem set_set (v w : Word) (h : a.toNat < s.size) (h' : a.toNat < (s.set a v h).size) :
    (s.set a v h).set a w h' = s.set a w h :=
  congrArg Space.mk (Array.set_set v h)

theorem set_eq_self {w : Word} (h : a.toNat < s.size) (hget : s.get? a = some w) :
    s.set a w h = s := by
  obtain ⟨_, rfl⟩ := Array.getElem?_eq_some_iff.mp hget
  exact congrArg Space.mk (Array.set_getElem_self h)

end Space

namespace Machine

variable {σ : Type} {m s : Machine σ} {i : Instruction}

theorem pointer_of_set {a : BitVec 16} {w : Word} (hlt : a.toNat < m.registers.size) :
    pointer { m with registers := m.registers.set a w hlt } =
      if a = Register.sp.index then w else m.pointer := by
  rw [pointer, Space.get?_set]
  split <;> rfl

/-- The machine with a word left where its stack pointer points. -/
def leaving (m : Machine σ) (w : Word) (hcell : m.pointer.address.toNat < m.stack.size) :
    Machine σ :=
  { m with stack := m.stack.set m.pointer.address w hcell }

section

variable (h : m.registers.size = Register.count) (w : Word)
  (hcell : m.pointer.address.toNat < m.stack.size)

theorem pointer_pushed : (m.pushed h w hcell).pointer = m.pointer.next := by
  rw [pushed, pointer, Space.get?_set, if_pos rfl, Option.getD_some]

/-- Moving the pointer down again brings back every register. -/
theorem lowered_pushed (h' : (m.pushed h w hcell).registers.size = Register.count) :
    (m.pushed h w hcell).lowered h' = m.leaving w hcell := by
  have hregisters : (m.pushed h w hcell).registers.set Register.sp.index m.pointer
      (pointer_index_lt h') = m.registers := by
    simp only [pushed, Space.set_set]
    exact Space.set_eq_self _ (get?_pointer h)
  simp only [lowered, pointer_pushed, Word.previous_next, hregisters]
  rfl

theorem pop_pushed : pop (m.pushed h w hcell) = .ok w (m.leaving w hcell) := by
  have h' : (m.pushed h w hcell).registers.size = Register.count :=
    (sameFrame_pushed h hcell).registerCount.trans h
  have htop : (m.pushed h w hcell).stack.get?
      (m.pushed h w hcell).pointer.previous.address = some w := by
    rw [pointer_pushed, Word.previous_next, pushed, Space.get?_set, if_pos rfl]
  rw [pop_of_some (get?_pointer h') (pointer_index_lt h') htop]
  exact congrArg (EStateM.Result.ok w) (lowered_pushed h w hcell h')

end

theorem get?_of_readRegister {a : BitVec 16} {w : Word} (hread : readRegister a m = .ok w s) :
    m.registers.get? a = some w := by
  unfold readRegister at hread
  split at hread
  next hget =>
    cases hread
    exact hget
  next => cases hread

theorem execute_push (h : m.registers.size = Register.count) (hi : i.opcode? = some .push)
    (hexecute : execute i m = .ok () s) :
    ∃ w hcell, m.registers.get? i.arg0 = some w ∧ s = m.pushed h w hcell := by
  rw [execute_of_opcode hi] at hexecute
  obtain ⟨w, u, hread, hpush⟩ := exists_ok_of_bind hexecute
  cases readRegister_ok hread
  obtain ⟨hcell, rfl⟩ := push_ok h hpush
  exact ⟨w, hcell, get?_of_readRegister hread, rfl⟩

theorem execute_call (h : m.registers.size = Register.count) (hi : i.opcode? = some .call)
    (hexecute : execute i m = .ok () s) :
    ∃ hcell, s = { m.pushed h ⟨m.counter⟩ hcell with counter := i.longArg } := by
  rw [execute_of_opcode hi, perform_eq] at hexecute
  cases performs_of_perform (e := .call) h nofun hexecute with
  | call hcell => exact ⟨hcell, rfl⟩
  | written hthird => cases hthird

theorem pop_after_push (h : m.registers.size = Register.count) {j : Instruction}
    (hj : j.opcode? = some .pop) (hdest : j.arg0.toNat < m.registers.size) (w : Word)
    (hcell : m.pointer.address.toNat < m.stack.size) :
    execute j (m.pushed h w hcell) =
      .ok () { m.leaving w hcell with registers := m.registers.set j.arg0 w hdest } := by
  rw [execute_of_opcode hj]
  exact (bind_eq_of_ok (pop_pushed h w hcell)).trans (dif_pos hdest)

/-- Where a call has jumped to does not matter to the return. -/
theorem ret_after_call (h : m.registers.size = Register.count) {j : Instruction}
    (hj : j.opcode? = some .ret) (target : BitVec 32)
    (hcell : m.pointer.address.toNat < m.stack.size) :
    execute j { m.pushed h ⟨m.counter⟩ hcell with counter := target } =
      .ok () (m.leaving ⟨m.counter⟩ hcell) := by
  rw [execute_of_opcode hj]
  exact bind_eq_of_ok (pop_pushed (m := { m with counter := target }) h ⟨m.counter⟩ hcell)

/-- After a push a pop goes well and leaves the machine as it was, but for the word pushed, which
is in the cell that the pointer pointed to and in the register popped into. After a call a return
goes well and leaves the machine as it was, but for the return address in that cell. -/
theorem stack_effects_undone (h : m.registers.size = Register.count) :
    (∀ i j s, i.opcode? = some .push → j.opcode? = some .pop →
      j.arg0.toNat < Register.count → execute i m = .ok () s →
      ∃ w t hcell hdest, m.registers.get? i.arg0 = some w ∧ execute j s = .ok () t ∧
        t = { m with
          stack := m.stack.set m.pointer.address w hcell
          registers := m.registers.set j.arg0 w hdest } ∧
        (j.arg0 ≠ Register.sp.index → t.pointer = m.pointer) ∧
        (j.arg0 = Register.sp.index → t.pointer = w) ∧
        (i.arg0 = Register.sp.index → w = m.pointer)) ∧
    ∀ i j s, i.opcode? = some .call → j.opcode? = some .ret → execute i m = .ok () s →
      ∃ hcell, execute j s =
        .ok () { m with stack := m.stack.set m.pointer.address ⟨m.counter⟩ hcell } := by
  refine ⟨fun i j s hi hj hdest hpush => ?_, fun i j s hi hj hcall => ?_⟩
  · obtain ⟨w, hcell, hw, rfl⟩ := execute_push h hi hpush
    have hlt : j.arg0.toNat < m.registers.size := h ▸ hdest
    have hpointer := pointer_of_set (m := m.leaving w hcell) (w := w) hlt
    refine ⟨w, _, hcell, hlt, hw, pop_after_push h hj hlt w hcell, rfl, fun hne => ?_,
      fun heq => ?_, fun heq => ?_⟩
    · exact hpointer.trans (if_neg hne)
    · exact hpointer.trans (if_pos heq)
    · rw [heq, get?_pointer h] at hw
      exact (Option.some.inj hw).symm
  · obtain ⟨hcell, rfl⟩ := execute_call h hi hcall
    exact ⟨hcell, ret_after_call h hj i.longArg hcell⟩

/-- A machine whose stack pointer has all bits of its high half set. -/
def highPointer : Machine Unit :=
  let m := load .empty .empty 4
  { m with
    registers := m.registers.set Register.sp.index ⟨0xFFFF0003⟩ (pointer_index_lt rfl)
    counter := 7 }

theorem stack_effects_undone_high :
    (∃ s t, execute (.short .push 1 0 0) highPointer = .ok () s ∧
      execute (.short .pop 2 0 0) s = .ok () t ∧ t.pointer = ⟨0xFFFF0003⟩ ∧
      t.registers.get? 2 = some ⟨0xFFFF0003⟩) ∧
    ∃ s t, execute (.long .call 9 0) highPointer = .ok () s ∧ s.counter = 9 ∧
      execute (.bare .ret) s = .ok () t ∧ t.counter = 7 ∧ t.registers = highPointer.registers := by
  obtain ⟨hpushed, hcalled⟩ := stack_effects_undone (m := highPointer) rfl
  have hpush : execute (.short .push 1 0 0) highPointer = .ok () _ := rfl
  have hcall : execute (.long .call 9 0) highPointer = .ok () _ := rfl
  obtain ⟨w, t, hcell, hdest, _, hpop, ht, hkept, _, hsource⟩ :=
    hpushed _ (.short .pop 2 0 0) _ rfl rfl (by decide) hpush
  obtain ⟨hcell', hret⟩ := hcalled _ (.bare .ret) _ rfl rfl hcall
  refine ⟨⟨_, t, hpush, hpop, hkept (by decide), ?_⟩, _, _, hcall, rfl, hret, rfl, rfl⟩
  rw [ht, hsource rfl]
  rfl

end Machine

end RegisterMachine
