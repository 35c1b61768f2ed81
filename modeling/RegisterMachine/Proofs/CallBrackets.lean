import RegisterMachine.Proofs.ListSteps

namespace RegisterMachine

namespace ListMachine

variable {a b : ListMachine} {i : Instruction} {e : Effect} {base : List Word} {w : Word}

/-- The words up to some word stay, unless that word is on top and is taken off. -/
theorem Performs.keeps_or_takes (h : Performs i e a b) (hcovered : base ++ [w] <+: a.stack) :
    base ++ [w] <+: b.stack ∨
      a.stack = base ++ [w] ∧ b.stack = base ∧
        (e = .ret ∧ b.counter = w.bits ∨ e = .pop ∧ b.registers.get? i.arg0 = some w) := by
  cases h with
  | nothing | halt | jump | taken | passed | written => exact .inl hcovered
  | push x => exact .inl (hcovered.trans (List.prefix_append _ _))
  | call => exact .inl (hcovered.trans (List.prefix_append _ _))
  | pop htop hx =>
    rw [htop] at hcovered
    rcases List.prefix_concat_iff.mp hcovered with heq | hrest
    · obtain ⟨hbase, rfl⟩ := List.append_singleton_inj.mp heq
      exact .inr ⟨by rw [htop, hbase], hbase.symm, .inr ⟨rfl, hx⟩⟩
    · exact .inl hrest
  | ret htop =>
    rw [htop] at hcovered
    rcases List.prefix_concat_iff.mp hcovered with heq | hrest
    · obtain ⟨hbase, rfl⟩ := List.append_singleton_inj.mp heq
      exact .inr ⟨by rw [htop, hbase], hbase.symm, .inl ⟨rfl, rfl⟩⟩
    · exact .inl hrest

end ListMachine

namespace Machine

variable {σ : Type}

/-- A step that brings the stack pointer from `depth + 1` to `depth`. -/
def Returns (depth : Nat) (m n : Machine σ) : Prop :=
  step m = .ok () n ∧ m.pointer.bits.toNat = depth + 1 ∧ n.pointer.bits.toNat = depth

theorem Represents.covered_steps {m n : Machine σ} {a : ListMachine} {base : List Word} {w : Word}
    (hr : Represents m a) (hcovered : base ++ [w] <+: a.stack) {count : Nat}
    (hsteps : Machine.steps count m = .ok () n)
    (hfirst : ∀ j < count, ∀ u v, Machine.steps j m = .ok () u → ¬Returns base.length u v) :
    ∃ b, Represents n b ∧ base ++ [w] <+: b.stack := by
  induction count generalizing m a with
  | zero =>
    cases hsteps
    exact ⟨a, hr, hcovered⟩
  | succ count ih =>
    obtain ⟨_, u, hstep, hsteps⟩ := exists_ok_of_bind hsteps
    obtain ⟨b, i, op, hb, _, _, hperforms⟩ := hr.step hstep
    rcases hperforms.keeps_or_takes hcovered with hkept | ⟨htop, hbase, _⟩
    · refine ih hb hkept hsteps fun j hj x y hx => ?_
      exact hfirst (j + 1) (by omega) x y ((steps_succ_of_step hstep j).trans hx)
    · -- The word is taken off, so this step is a return, and there is none before the last.
      have hm := hr.pointer_eq
      have hu := hb.pointer_eq
      rw [show a.stack = base ++ [w] from htop, List.length_append, List.length_singleton] at hm
      rw [hbase] at hu
      exact absurd ⟨hstep, hm, hu⟩ (hfirst 0 (by omega) m u rfl)

theorem Represents.call {m n : Machine σ} {a : ListMachine} (hr : Represents m a)
    {i : Instruction} (hget : m.program.get m.counter = .ok i) (hcall : i.opcode? = some .call)
    (h : Machine.step m = .ok () n) :
    ∃ b, Represents n b ∧ b.stack = a.stack ++ [⟨m.counter + 1⟩] := by
  obtain ⟨b, j, op, hb, hj, hop, hperforms⟩ := hr.step h
  cases hget.symm.trans hj
  cases hcall.symm.trans hop
  refine ⟨b, hb, ?_⟩
  rw [hr.counter]
  cases hperforms with
  | written _ _ he => cases he
  | call => rfl

/-- A step that takes the pointer back to the words of `base` takes off the word above them. -/
theorem Represents.returns {m n : Machine σ} {a : ListMachine} {base : List Word} {w : Word}
    (hr : Represents m a) (hcovered : base ++ [w] <+: a.stack) (h : Returns base.length m n) :
    ∃ b i, Represents n b ∧ b.stack = base ∧ m.program.get m.counter = .ok i ∧
      (i.opcode? = some .ret ∧ n.counter = w.bits ∨
        i.opcode? = some .pop ∧ n.registers.get? i.arg0 = some w) := by
  obtain ⟨hstep, _, hpointer⟩ := h
  obtain ⟨b, i, op, hb, hget, hop, hperforms⟩ := hr.step hstep
  rcases hperforms.keeps_or_takes hcovered with hkept | ⟨_, hbase, hcase⟩
  · have hlength := hkept.length_le
    rw [List.length_append, List.length_singleton] at hlength
    have hheight := hb.pointer_eq
    omega
  · refine ⟨b, i, hb, hbase, hget, ?_⟩
    rcases hcase with ⟨he, hcounter⟩ | ⟨he, hword⟩
    · have hret : op = .ret := Opcode.eq_of_effect (by rw [he]; rfl)
      exact .inl ⟨hret ▸ hop, hb.counter.trans hcounter⟩
    · have hpop : op = .pop := Opcode.eq_of_effect (by rw [he]; rfl)
      subst hpop
      have hne : i.arg0 ≠ Register.sp.index := fun heq =>
        (hr.keepsPointer i (Program.mem_of_get hget) .pop hop).2 (congrArg some heq)
      refine .inr ⟨hop, ?_⟩
      rw [hb.registers, ListMachine.register?, if_neg hne, hword]

/-- What brings the stack pointer back to where it was before a call is a return to the
instruction behind the call, or takes the address of that instruction into a register; and the
words below the return address are those from before the call. -/
theorem call_undone_by_first_return {m s called t n : Machine σ}
    (hprogram : m.program.KeepsPointer) (hregisters : m.registers.size = Register.count)
    (hstack : m.stack.size ≤ 0xFFFF) (hpointer : m.pointer.bits.toNat ≤ m.stack.size)
    {before between : Nat} {i : Instruction}
    (hbefore : steps before m = .ok () s)
    (hget : s.program.get s.counter = .ok i) (hcall : i.opcode? = some .call)
    (hindex : s.counter.toNat < 0xFFFFFFFF) (hcalled : step s = .ok () called)
    (hbetween : steps between called = .ok () t)
    (hfirst : ∀ j < between, ∀ u v, steps j called = .ok () u →
      ¬Returns s.pointer.bits.toNat u v)
    (hreturn : Returns s.pointer.bits.toNat t n) :
    ∃ j, t.program.get t.counter = .ok j ∧
      (j.opcode? = some .ret ∧ n.counter.toNat = s.counter.toNat + 1 ∨
        j.opcode? = some .pop ∧
          ∃ w, n.registers.get? j.arg0 = some w ∧ w.bits.toNat = s.counter.toNat + 1) ∧
      ∀ k < s.pointer.bits.toNat, n.stack.words[k]? = s.stack.words[k]? := by
  obtain ⟨a, ha⟩ := (represents_toListMachine hprogram hregisters hstack hpointer).steps hbefore
  have hdepth := ha.pointer_eq
  rw [hdepth] at hfirst hreturn ⊢
  obtain ⟨b, hb, hpushed⟩ := ha.call hget hcall hcalled
  have hsaved : a.stack ++ [⟨s.counter + 1⟩] <+: b.stack := hpushed ▸ List.prefix_rfl
  obtain ⟨c, hc, hcovered⟩ := hb.covered_steps hsaved hbetween hfirst
  obtain ⟨d, j, hd, hbase, hj, hcase⟩ := hc.returns hcovered hreturn
  have hnext := toNat_add_one hindex
  refine ⟨j, hj, ?_, ?_⟩
  · rcases hcase with ⟨hret, hcounter⟩ | ⟨hpop, hword⟩
    · exact .inl ⟨hret, hcounter ▸ hnext⟩
    · exact .inr ⟨hpop, _, hword, hnext⟩
  · intro k hk
    rw [hd.cells k (by rw [hbase]; exact hk), hbase, ha.cells k hk]

/-- A run in which the routine that is called pushes a word and pops it before it returns. -/
def nestedRun (count : Nat) : Machine Unit :=
  (run count (load (.ofList [.bare .noop, .long .call 3 0, .bare .halt, .short .push 2 0 0,
    .short .pop 3 0 0, .bare .ret]) .empty 4)).machine

theorem call_undone_by_first_return_nested :
    Returns 0 (nestedRun 4) (nestedRun 5) ∧
      ∃ j, (nestedRun 4).program.get (nestedRun 4).counter = .ok j ∧
        (j.opcode? = some .ret ∧ (nestedRun 5).counter.toNat = (nestedRun 1).counter.toNat + 1 ∨
          j.opcode? = some .pop ∧ ∃ w, (nestedRun 5).registers.get? j.arg0 = some w ∧
            w.bits.toNat = (nestedRun 1).counter.toNat + 1) := by
  have hreturn : Returns 0 (nestedRun 4) (nestedRun 5) := ⟨rfl, rfl, rfl⟩
  have hpushed : step (nestedRun 2) = .ok () (nestedRun 3) := rfl
  have hdepth : (nestedRun 3).pointer.bits.toNat = 2 := rfl
  have hfirst : ∀ j < 2, ∀ u v, steps j (nestedRun 2) = .ok () u → ¬Returns 0 u v := by
    rintro j hj u v hu ⟨hstep, hbefore, hafter⟩
    obtain rfl | rfl : j = 0 ∨ j = 1 := by omega
    · cases hu
      cases hpushed.symm.trans hstep
      omega
    · cases (steps_succ_of_step hpushed 0).symm.trans hu
      omega
  have hget : (nestedRun 1).program.get (nestedRun 1).counter = .ok (.long .call 3 0) := rfl
  have hcalled : step (nestedRun 1) = .ok () (nestedRun 2) := rfl
  have hpopped : step (nestedRun 3) = .ok () (nestedRun 4) := rfl
  have hbetween : steps 2 (nestedRun 2) = .ok () (nestedRun 4) :=
    (steps_succ_of_step hpushed 1).trans (steps_succ_of_step hpopped 0)
  have hbefore : steps 1 (nestedRun 0) = .ok () (nestedRun 1) := rfl
  obtain ⟨j, hj, hcase, _⟩ := call_undone_by_first_return (by decide +kernel) rfl
    (by decide +kernel) (by decide +kernel) hbefore hget rfl (by decide +kernel) hcalled hbetween
    hfirst hreturn
  exact ⟨hreturn, j, hj, hcase⟩

end Machine

end RegisterMachine
