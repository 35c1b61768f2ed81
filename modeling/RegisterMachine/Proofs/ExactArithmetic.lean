import Mathlib.Data.Int.ModEq
import RegisterMachine.Proofs.FaultChecks
import RegisterMachine.Proofs.UnreadRegisters

namespace RegisterMachine

namespace Word

variable {a b w : Word}

/-- The signed view is the integer from `-2 ^ 31` up to `2 ^ 31` that is congruent to `n`. -/
def Wraps (w : Word) (n : Int) : Prop :=
  -0x80000000 ≤ w.toInt ∧ w.toInt < 0x80000000 ∧ w.toInt ≡ n [ZMOD 0x100000000]

/-- The signed view is the quotient truncated toward zero: what is left of the dividend is smaller
than the divisor and has the sign of the dividend. -/
def Truncates (w : Word) (dividend divisor : Int) : Prop :=
  (dividend - w.toInt * divisor).natAbs < divisor.natAbs ∧
    0 ≤ dividend * (dividend - w.toInt * divisor)

/-- The word is 1 if `p` holds, and else 0. -/
def Tells (w : Word) (p : Prop) : Prop :=
  p ∧ w.bits = 1 ∨ ¬p ∧ w.bits = 0

/-- Every bit is that function of the bits of `a` and `b` in its place. -/
def Bitwise (w : Word) (f : Bool → Bool → Bool) (a b : Word) : Prop :=
  ∀ k < 32, w.bits.getLsbD k = f (a.bits.getLsbD k) (b.bits.getLsbD k)

theorem toInt_inj : a.toInt = b.toInt ↔ a = b := by
  rw [toInt, toInt, BitVec.toInt_inj]
  exact ⟨congrArg Word.mk, congrArg Word.bits⟩

theorem toInt_bounds (w : Word) : -0x80000000 ≤ w.toInt ∧ w.toInt < 0x80000000 :=
  ⟨BitVec.le_toInt w.bits, BitVec.toInt_lt⟩

theorem toInt_ofInt (n : Int) : (ofInt n).toInt = n.bmod (2 ^ 32) :=
  BitVec.toInt_ofInt n

theorem toInt_ofInt_of_bounds {n : Int} (hlow : -0x80000000 ≤ n)
    (hhigh : n < 0x80000000) : (ofInt n).toInt = n := by
  rw [toInt_ofInt]
  exact Int.bmod_eq_of_le_mul_two (by omega) (by omega)

theorem wraps_iff {n : Int} : w.Wraps n ↔ ofInt n = w := by
  have hw := w.toInt_bounds
  constructor
  · rintro ⟨_, _, hmod⟩
    have hbmod : w.toInt.bmod (2 ^ 32) = n.bmod (2 ^ 32) := by
      rw [← Int.emod_bmod w.toInt, ← Int.emod_bmod n]
      exact congrArg (Int.bmod · (2 ^ 32)) hmod
    rw [← toInt_inj, toInt_ofInt, ← hbmod]
    exact Int.bmod_eq_of_le_mul_two (by omega) (by omega)
  · rintro rfl
    refine ⟨hw.1, hw.2, ?_⟩
    rw [toInt_ofInt]
    exact Int.bmod_emod

theorem add_eq_iff : a.add b = w ↔ w.Wraps (a.toInt + b.toInt) := by
  rw [wraps_iff]
  simp [add, ofInt, toInt, BitVec.ofInt_add]

theorem sub_eq_iff : a.sub b = w ↔ w.Wraps (a.toInt - b.toInt) := by
  rw [wraps_iff, Int.sub_eq_add_neg]
  simp [sub, ofInt, toInt, BitVec.ofInt_add, BitVec.ofInt_neg, BitVec.sub_eq_add_neg]

theorem mul_eq_iff : a.mul b = w ↔ w.Wraps (a.toInt * b.toInt) := by
  rw [wraps_iff]
  simp [mul, ofInt, toInt, BitVec.ofInt_mul]

theorem next_eq_iff : a.next = w ↔ w.Wraps (a.toInt + 1) := by
  rw [wraps_iff]
  simp [next, ofInt, toInt, BitVec.ofInt_add]

theorem previous_eq_iff : a.previous = w ↔ w.Wraps (a.toInt - 1) := by
  rw [wraps_iff, Int.sub_eq_add_neg]
  simp [previous, ofInt, toInt, BitVec.ofInt_add, BitVec.ofInt_neg, BitVec.sub_eq_add_neg]

theorem truncates_iff (hb : b.toInt ≠ 0) :
    w.Truncates a.toInt b.toInt ↔ a.toInt.tdiv b.toInt = w.toInt := by
  have hrest : a.toInt - w.toInt * b.toInt + b.toInt * w.toInt = a.toInt := by
    rw [Int.mul_comm b.toInt, Int.sub_add_cancel]
  constructor
  · rintro ⟨hsmall, hsign⟩
    rcases Int.mul_nonneg_iff.mp hsign with ⟨ha, hr⟩ | ⟨ha, hr⟩
    · exact ((Int.tdiv_tmod_unique ha hb).mpr ⟨hrest, hr, by omega⟩).1
    · exact ((Int.tdiv_tmod_unique' ha hb).mpr ⟨hrest, by omega, hr⟩).1
  · intro hquotient
    have hmod : a.toInt.tmod b.toInt = a.toInt - w.toInt * b.toInt := by
      have hsum := Int.mul_tdiv_add_tmod a.toInt b.toInt
      rw [hquotient] at hsum
      omega
    rcases Int.le_total 0 a.toInt with ha | ha
    · obtain ⟨_, hr, hlt⟩ := (Int.tdiv_tmod_unique ha hb).mp ⟨hquotient, hmod⟩
      exact ⟨by omega, Int.mul_nonneg ha hr⟩
    · obtain ⟨_, hlt, hr⟩ := (Int.tdiv_tmod_unique' ha hb).mp ⟨hquotient, hmod⟩
      exact ⟨by omega, Int.mul_nonneg_of_nonpos_of_nonpos ha hr⟩

/-- The quotient fits into a word, but for that of the least integer by -1. -/
theorem tdiv_bounds (hover : ¬(a.toInt = -0x80000000 ∧ b.toInt = -1)) :
    -0x80000000 ≤ a.toInt.tdiv b.toInt ∧ a.toInt.tdiv b.toInt < 0x80000000 := by
  have ha := a.toInt_bounds
  by_cases hb : 2 ≤ b.toInt.natAbs
  · have habs : (a.toInt.tdiv b.toInt).natAbs = a.toInt.natAbs / b.toInt.natAbs :=
      Int.natAbs_tdiv a.toInt b.toInt
    have hhalf : a.toInt.natAbs / b.toInt.natAbs ≤ a.toInt.natAbs / 2 :=
      Nat.div_le_div_left hb (by decide)
    omega
  · obtain hb | hb | hb : b.toInt = 0 ∨ b.toInt = 1 ∨ b.toInt = -1 := by omega
    · rw [hb, Int.tdiv_zero]
      decide
    · rw [hb, Int.tdiv_one]
      exact ha
    · rw [hb, Int.tdiv_neg, Int.tdiv_one]
      omega

/-- There is a quotient exactly if some word is the truncated one. -/
theorem div_eq_ok_iff : a.div b = .ok w ↔ w.Truncates a.toInt b.toInt := by
  unfold div
  split
  next hzero =>
    constructor
    · intro h
      cases h
    · rintro ⟨hsmall, _⟩
      rw [hzero] at hsmall
      exact absurd hsmall (Nat.not_lt_zero _)
  next hb =>
    rw [truncates_iff hb]
    split
    next hover =>
      -- The quotient is `2 ^ 31`, which is the signed view of no word.
      have hw := w.toInt_bounds
      have hquotient : a.toInt.tdiv b.toInt = 0x80000000 := by
        rw [hover.1, hover.2]
        decide
      constructor
      · intro h
        cases h
      · intro h
        omega
    next hover =>
      obtain ⟨hlow, hhigh⟩ := tdiv_bounds hover
      rw [Except.ok.injEq, ← toInt_inj, toInt_ofInt_of_bounds hlow hhigh]

theorem ofBool_eq_iff {c : Bool} {p : Prop} (h : c = true ↔ p) : ofBool c = w ↔ w.Tells p := by
  have hbits : ∀ bits : BitVec 32, w.bits = bits ↔ ⟨bits⟩ = w := fun bits =>
    ⟨fun h => congrArg Word.mk h.symm, fun h => congrArg Word.bits h.symm⟩
  unfold Tells ofBool
  rw [← h]
  cases c with
  | true => simp [hbits]
  | false => simp [hbits]

/-- Bits that are given in every place give the word. -/
theorem eq_iff_bitwise {f : Bool → Bool → Bool} {v : Word} (hv : v.Bitwise f a b) :
    v = w ↔ w.Bitwise f a b := by
  constructor
  · rintro rfl
    exact hv
  · intro hw
    refine congrArg Word.mk (BitVec.eq_of_getLsbD_eq fun k hk => ?_)
    rw [hv k hk, hw k hk]

theorem bitAnd_eq_iff : a.bitAnd b = w ↔ w.Bitwise (· && ·) a b :=
  eq_iff_bitwise fun _ _ => BitVec.getLsbD_and

theorem bitOr_eq_iff : a.bitOr b = w ↔ w.Bitwise (· || ·) a b :=
  eq_iff_bitwise fun _ _ => BitVec.getLsbD_or

theorem bitXor_eq_iff : a.bitXor b = w ↔ w.Bitwise (· ^^ ·) a b :=
  eq_iff_bitwise fun _ _ => BitVec.getLsbD_xor

end Word

/-- Which words an operation may make of the words of its operands. -/
def Opcode.law? : Opcode → Option (Word → Word → Word → Prop)
  | addi => some fun a b w => w.Wraps (a.toInt + b.toInt)
  | subi => some fun a b w => w.Wraps (a.toInt - b.toInt)
  | muli => some fun a b w => w.Wraps (a.toInt * b.toInt)
  | icri => some fun a _ w => w.Wraps (a.toInt + 1)
  | dcri => some fun a _ w => w.Wraps (a.toInt - 1)
  | divi => some fun a b w => w.Truncates a.toInt b.toInt
  | eqi => some fun a b w => w.Tells (a.toInt = b.toInt)
  | neqi => some fun a b w => w.Tells (a.toInt ≠ b.toInt)
  | lti => some fun a b w => w.Tells (a.toInt < b.toInt)
  | ltei => some fun a b w => w.Tells (a.toInt ≤ b.toInt)
  | gti => some fun a b w => w.Tells (a.toInt > b.toInt)
  | gtei => some fun a b w => w.Tells (a.toInt ≥ b.toInt)
  | andb => some fun a b w => w.Bitwise (· && ·) a b
  | orb => some fun a b w => w.Bitwise (· || ·) a b
  | xorb => some fun a b w => w.Bitwise (· ^^ ·) a b
  | or => some fun a b w => w.Tells (a.bits ≠ 0 ∨ b.bits ≠ 0)
  | and => some fun a b w => w.Tells (a.bits ≠ 0 ∧ b.bits ≠ 0)
  | noop | halt | jmp | cond | li | shli | shri | push | pop | call | ret | sys => none

/-- What an effect writes to the register of the third argument, given the words of the first
two. -/
def Effect.result? : Effect → Option (Word → Word → Except Fault Word)
  | unary f => some fun a _ => .ok (f a)
  | binary f => some f
  | connective decisive => some fun a b =>
    .ok (Word.ofBool (if a.toBool = decisive then decisive else b.toBool))
  | _ => none

/-- The result of an operation is the word that its law allows. -/
theorem Opcode.result_iff_law {op : Opcode} {law : Word → Word → Word → Prop}
    (h : op.law? = some law) :
    ∃ f, op.effect.result? = some f ∧ ∀ a b w, f a b = .ok w ↔ law a b w := by
  have hok : ∀ v w : Word, (.ok v : Except Fault Word) = .ok w ↔ v = w := fun v w =>
    (Except.ok.injEq v w).to_iff
  cases op with
  | addi =>
    cases h
    exact ⟨_, rfl, fun a b w => (hok _ w).trans Word.add_eq_iff⟩
  | subi =>
    cases h
    exact ⟨_, rfl, fun a b w => (hok _ w).trans Word.sub_eq_iff⟩
  | muli =>
    cases h
    exact ⟨_, rfl, fun a b w => (hok _ w).trans Word.mul_eq_iff⟩
  | icri =>
    cases h
    exact ⟨_, rfl, fun a b w => (hok _ w).trans Word.next_eq_iff⟩
  | dcri =>
    cases h
    exact ⟨_, rfl, fun a b w => (hok _ w).trans Word.previous_eq_iff⟩
  | divi =>
    cases h
    exact ⟨_, rfl, fun a b w => Word.div_eq_ok_iff⟩
  | eqi | neqi | lti | ltei | gti | gtei =>
    cases h
    exact ⟨_, rfl, fun a b w => (hok _ w).trans (Word.ofBool_eq_iff decide_eq_true_iff)⟩
  | andb =>
    cases h
    exact ⟨_, rfl, fun a b w => (hok _ w).trans Word.bitAnd_eq_iff⟩
  | orb =>
    cases h
    exact ⟨_, rfl, fun a b w => (hok _ w).trans Word.bitOr_eq_iff⟩
  | xorb =>
    cases h
    exact ⟨_, rfl, fun a b w => (hok _ w).trans Word.bitXor_eq_iff⟩
  | or | and =>
    cases h
    exact ⟨_, rfl, fun a b w => (hok _ w).trans (Word.ofBool_eq_iff (by simp [Word.toBool]))⟩
  | noop | halt | jmp | cond | li | shli | shri | push | pop | call | ret | sys => cases h

namespace Machine

variable {σ : Type} {m : Machine σ}

section

variable (h : m.registers.size = Register.count)

include h

theorem readRegister_of_lt {address : BitVec 16} (hlt : address.toNat < Register.count) :
    readRegister address m = .ok (m.word address) m := by
  cases hget : m.registers.get? address with
  | none =>
    have hle := Space.get?_eq_none_iff.mp hget
    omega
  | some w =>
    rw [readRegister, word, hget]
    rfl

/-- An effect with a result reads its operands and writes the result, if there is one. -/
theorem perform_of_result {i : Instruction} {e : Effect} {f : Word → Word → Except Fault Word}
    (he : e.result? = some f) (hread : ∀ a ∈ e.operands i, a.toNat < Register.count)
    (hwrite : i.arg2.toNat < m.registers.size) :
    primitives.perform i e m =
      match f (m.word i.arg0) (m.word i.arg1) with
      | .ok w => .ok () { m with registers := m.registers.set i.arg2 w hwrite }
      | .error fault => .error fault m := by
  have hset : ∀ w, writeRegister i.arg2 w m =
      .ok () { m with registers := m.registers.set i.arg2 w hwrite } := fun w => dif_pos hwrite
  cases e with
  | unary =>
    cases he
    have h0 := readRegister_of_lt h (hread i.arg0 (by simp [Effect.operands]))
    exact (bind_eq_of_ok h0).trans (hset _)
  | binary =>
    cases he
    have h0 := readRegister_of_lt h (hread i.arg0 (by simp [Effect.operands]))
    have h1 := readRegister_of_lt h (hread i.arg1 (by simp [Effect.operands]))
    refine (bind_eq_of_ok h0).trans ((bind_eq_of_ok h1).trans ?_)
    cases f (m.word i.arg0) (m.word i.arg1) with
    | ok w => exact hset w
    | error fault => rfl
  | connective decisive =>
    cases he
    have h0 := readRegister_of_lt h (hread i.arg0 (by simp [Effect.operands]))
    have h1 := readRegister_of_lt h (hread i.arg1 (by simp [Effect.operands]))
    refine (bind_eq_of_ok h0).trans ?_
    by_cases hdecisive : (m.word i.arg0).toBool = decisive
    · simp only [if_pos hdecisive]
      exact hset _
    · simp only [if_neg hdecisive]
      exact (bind_eq_of_ok h1).trans (hset _)
  | nothing | halt | jump | branch | load | push | pop | call | ret | sys => cases he

/-- An operation whose result is the word that a law allows writes that word. -/
theorem execute_iff_of_law {i : Instruction} {op : Opcode} (hop : i.opcode? = some op)
    {law : Word → Word → Word → Prop} {f : Word → Word → Except Fault Word}
    (hresult : op.effect.result? = some f) (hlaw : ∀ a b w, f a b = .ok w ↔ law a b w)
    (hread : ∀ a ∈ i.registersRead op, a.toNat < Register.count)
    (hwrite : i.arg2.toNat < m.registers.size) (s : Machine σ) :
    execute i m = .ok () s ↔ ∃ w, law (m.word i.arg0) (m.word i.arg1) w ∧
      s = { m with registers := m.registers.set i.arg2 w hwrite } := by
  have hoperands : ∀ a ∈ op.effect.operands i, a.toNat < Register.count := fun a ha =>
    hread a (Instruction.registersRead_eq i op ▸ List.mem_append_left _ ha)
  simp only [← hlaw]
  rw [execute_of_opcode hop, perform_eq, perform_of_result h hresult hoperands hwrite]
  cases f (m.word i.arg0) (m.word i.arg1) with
  | ok v => simp [eq_comm]
  | error fault => simp

end

/-- With all its registers there, an arithmetic, comparing, bitwise or logical operation writes to
the register of its third argument the one word that its law makes of the words before it, and
changes nothing else; it faults exactly if there is no such word. -/
theorem execute_computes_exactly (h : m.registers.size = Register.count) {i : Instruction}
    {op : Opcode} (hop : i.opcode? = some op) {law : Word → Word → Word → Prop}
    (hlaw : op.law? = some law) (hread : ∀ a ∈ i.registersRead op, a.toNat < Register.count)
    (hwrite : i.arg2.toNat < Register.count) :
    (∀ s, execute i m = .ok () s ↔ ∃ w, law (m.word i.arg0) (m.word i.arg1) w ∧
      s = { m with registers := m.registers.set i.arg2 w (h ▸ hwrite) }) ∧
    ∀ w other, law (m.word i.arg0) (m.word i.arg1) w →
      law (m.word i.arg0) (m.word i.arg1) other → w = other := by
  obtain ⟨f, hresult, hf⟩ := Opcode.result_iff_law hlaw
  refine ⟨execute_iff_of_law h hop hresult hf hread (h ▸ hwrite), fun w other hw hother => ?_⟩
  rw [← hf] at hw hother
  exact Except.ok.inj (hw.symm.trans hother)

/-- The greatest integer in the stack pointer. -/
def greatestPointer : Machine Unit :=
  { load .empty .empty 0 with
    registers := (Space.zeros Register.count).set Register.sp.index ⟨0x7FFFFFFF⟩ (by decide) }

theorem execute_computes_exactly_aliased :
    greatestPointer.registers.size = Register.count ∧
      ∃ s, execute (.short .addi 1 1 1) greatestPointer = .ok () s ∧
        s.pointer = ⟨0xFFFFFFFE⟩ ∧ s.pointer.toInt = -2 := by
  have hread : ∀ a ∈ (Instruction.short .addi 1 1 1).registersRead .addi,
      a.toNat < Register.count := by
    simp [Instruction.registersRead, Register.count]
  have hwraps : Word.Wraps ⟨0xFFFFFFFE⟩
      ((greatestPointer.word (Instruction.short .addi 1 1 1).arg0).toInt +
        (greatestPointer.word (Instruction.short .addi 1 1 1).arg1).toInt) := by
    unfold Word.Wraps
    decide +kernel
  have hop : (Instruction.short .addi 1 1 1).opcode? = some .addi := rfl
  have hexecute := (execute_computes_exactly (m := greatestPointer) rfl hop rfl hread
    (by decide +kernel)).1
  exact ⟨rfl, _, (hexecute _).mpr ⟨_, hwraps, rfl⟩, by decide +kernel, by decide +kernel⟩

end Machine

end RegisterMachine
