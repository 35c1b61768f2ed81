import RegisterMachine.Proofs.Effect

namespace RegisterMachine

variable {S T α β : Type}

/-- Equal answers in related states, or equal faults. -/
inductive Agree (R : S → T → Prop) :
    EStateM.Result Fault S α → EStateM.Result Fault T α → Prop where
  | ok {s : S} {t : T} (a : α) (h : R s t) : Agree R (.ok a s) (.ok a t)
  | error (fault : Fault) (s : S) (t : T) : Agree R (.error fault s) (.error fault t)

theorem Agree.imp {R Q : S → T → Prop} {x : EStateM.Result Fault S α}
    {y : EStateM.Result Fault T α} (h : Agree R x y) (hi : ∀ s t, R s t → Q s t) :
    Agree Q x y := by
  cases h with
  | ok a h => exact .ok a (hi _ _ h)
  | error fault s t => exact .error fault s t

def Simulates (R : S → T → Prop) (x : EStateM Fault S α) (y : EStateM Fault T α) : Prop :=
  ∀ s t, R s t → Agree R (x s) (y t)

namespace Simulates

variable {R : S → T → Prop}

theorem pure (a : α) : Simulates R (pure a) (pure a) :=
  fun _ _ h => .ok a h

theorem throw (fault : Fault) :
    Simulates R (throw fault : EStateM Fault S α) (throw fault) :=
  fun s t _ => .error fault s t

theorem bind {x : EStateM Fault S α} {y : EStateM Fault T α} {f : α → EStateM Fault S β}
    {g : α → EStateM Fault T β} (hx : Simulates R x y) (hf : ∀ a, Simulates R (f a) (g a)) :
    Simulates R (x >>= f) (y >>= g) := by
  intro s t h
  have hagree := hx s t h
  show Agree R (EStateM.bind x f s) (EStateM.bind y g t)
  unfold EStateM.bind
  generalize x s = first at hagree
  generalize y t = second at hagree
  cases hagree with
  | ok a h' => exact hf a _ _ h'
  | error fault s' t' => exact .error fault s' t'

theorem compositional : Compositional (Simulates R) :=
  ⟨Simulates.pure, Simulates.throw, Simulates.bind⟩

end Simulates

namespace Primitives

variable {R : S → T → Prop} {A : Primitives S} {B : Primitives T}

theorem execute_simulates {i : Instruction}
    (h : ∀ op, i.opcode? = some op → op.effect.Uses (Simulates R) A B i) :
    Simulates R (A.execute i) (B.execute i) :=
  Simulates.compositional.execute h

/-- What every step keeps is kept by any number of steps. -/
theorem steps_simulates (h : Simulates R A.step B.step) (n : Nat) :
    Simulates R (A.steps n) (B.steps n) := by
  induction n with
  | zero => exact .pure ()
  | succ n ih => exact h.bind fun _ => ih

end Primitives

/-- Equal answers or equal faults, with related states in either case. -/
inductive InStep (R : S → T → Prop) :
    EStateM.Result Fault S α → EStateM.Result Fault T α → Prop where
  | ok {s : S} {t : T} (a : α) (h : R s t) : InStep R (.ok a s) (.ok a t)
  | error {s : S} {t : T} (fault : Fault) (h : R s t) : InStep R (.error fault s) (.error fault t)

def Lockstep (R : S → T → Prop) (x : EStateM Fault S α) (y : EStateM Fault T α) : Prop :=
  ∀ s t, R s t → InStep R (x s) (y t)

namespace Lockstep

variable {R : S → T → Prop}

theorem pure (a : α) : Lockstep R (pure a) (pure a) :=
  fun _ _ h => .ok a h

theorem throw (fault : Fault) : Lockstep R (throw fault : EStateM Fault S α) (throw fault) :=
  fun _ _ h => .error fault h

theorem bind {x : EStateM Fault S α} {y : EStateM Fault T α} {f : α → EStateM Fault S β}
    {g : α → EStateM Fault T β} (hx : Lockstep R x y) (hf : ∀ a, Lockstep R (f a) (g a)) :
    Lockstep R (x >>= f) (y >>= g) := by
  intro s t h
  have hfirst := hx s t h
  show InStep R (EStateM.bind x f s) (EStateM.bind y g t)
  unfold EStateM.bind
  generalize x s = first at hfirst
  generalize y t = second at hfirst
  cases hfirst with
  | ok a h' => exact hf a _ _ h'
  | error fault h' => exact .error fault h'

theorem compositional : Compositional (Lockstep R) :=
  ⟨Lockstep.pure, Lockstep.throw, Lockstep.bind⟩

end Lockstep

/-- Machines that go in step take all steps and stay related, or fault at the same step in the
same way and are related after it. -/
theorem Primitives.steps_lockstep {R : S → T → Prop} {A : Primitives S} {B : Primitives T}
    (hstep : Lockstep R A.step B.step) {s : S} {t : T} (h : R s t) (n : Nat) :
    (∃ u v, A.steps n s = .ok () u ∧ B.steps n t = .ok () v ∧ R u v) ∨
    ∃ k < n, ∃ u v fault s' t', A.steps k s = .ok () u ∧ B.steps k t = .ok () v ∧ R u v ∧
      A.step u = .error fault s' ∧ B.step v = .error fault t' ∧ R s' t' := by
  induction n generalizing s t with
  | zero => exact .inl ⟨s, t, rfl, rfl, h⟩
  | succ n ih =>
    have hfirst := hstep s t h
    generalize hs : A.step s = first at hfirst
    generalize ht : B.step t = second at hfirst
    cases hfirst with
    | error fault h' =>
      exact .inr ⟨0, Nat.succ_pos n, s, t, fault, _, _, rfl, rfl, h, hs, ht, h'⟩
    | @ok u v _ h' =>
      have hsteps : ∀ k, A.steps (k + 1) s = A.steps k u := by
        intro k
        show EStateM.bind A.step _ s = _
        rw [EStateM.bind, hs]
      have hsteps' : ∀ k, B.steps (k + 1) t = B.steps k v := by
        intro k
        show EStateM.bind B.step _ t = _
        rw [EStateM.bind, ht]
      rcases ih h' with ⟨u', v', hu, hv, hlast⟩ | ⟨k, hk, u', v', fault, s', t', hu, hv, hrest⟩
      · exact .inl ⟨u', v', (hsteps n).trans hu, (hsteps' n).trans hv, hlast⟩
      · exact .inr ⟨k + 1, Nat.succ_lt_succ hk, u', v', fault, s', t', (hsteps k).trans hu,
          (hsteps' k).trans hv, hrest⟩

namespace Machine

variable {σ : Type} {R : Machine σ → Machine σ → Prop}

theorem readRegister_lockstep {a : BitVec 16}
    (hsize : ∀ m m', R m m' → m'.registers.size = m.registers.size)
    (hget : ∀ m m', R m m' → m'.registers.get? a = m.registers.get? a) :
    Lockstep R (readRegister a : Action σ Word) (readRegister a) := by
  intro m m' h
  unfold readRegister
  rw [hget m m' h]
  cases m.registers.get? a with
  | some w => exact .ok w h
  | none =>
    rw [Space.outside, Space.outside, hsize m m' h]
    exact .error _ h

theorem writeRegister_lockstep {a : BitVec 16} {w : Word}
    (hsize : ∀ m m', R m m' → m'.registers.size = m.registers.size)
    (hset : ∀ m m' (hlt : a.toNat < m.registers.size) (hlt' : a.toNat < m'.registers.size),
      R m m' → R { m with registers := m.registers.set a w hlt }
        { m' with registers := m'.registers.set a w hlt' }) :
    Lockstep R (writeRegister a w : Action σ Unit) (writeRegister a w) := by
  intro m m' h
  have hbound : a.toNat < m'.registers.size ↔ a.toNat < m.registers.size := by
    rw [hsize m m' h]
  unfold writeRegister
  by_cases hlt : a.toNat < m.registers.size
  · rw [dif_pos hlt, dif_pos (hbound.mpr hlt)]
    exact .ok () (hset m m' hlt (hbound.mpr hlt) h)
  · rw [dif_neg hlt, dif_neg (mt hbound.mp hlt), Space.outside, Space.outside, hsize m m' h]
    exact .error _ h

theorem readStack_lockstep (hstack : ∀ m m', R m m' → m'.stack = m.stack) (a : BitVec 16) :
    Lockstep R (readStack a : Action σ Word) (readStack a) := by
  intro m m' h
  unfold readStack
  rw [hstack m m' h]
  cases m.stack.get? a with
  | some w => exact .ok w h
  | none => exact .error _ h

theorem writeStack_lockstep (hstack : ∀ m m', R m m' → m'.stack = m.stack)
    (hset : ∀ m m' stack, R m m' → R { m with stack := stack } { m' with stack := stack })
    (a : BitVec 16) (w : Word) :
    Lockstep R (writeStack a w : Action σ Unit) (writeStack a w) := by
  intro m m' h
  unfold writeStack
  simp only [hstack m m' h]
  split
  · exact .ok () (hset m m' _ h)
  · exact .error _ h

end Machine

end RegisterMachine
