import RegisterMachine.Proofs.ExactArithmetic

namespace RegisterMachine

namespace Word

/-- The word is `v` times `2 ^ amount`, wrapped if the amount is not negative and else rounded
down. -/
def Scales (w v : Word) (amount : Int) : Prop :=
  (0 ≤ amount → w.Wraps (v.toInt * 2 ^ amount.toNat)) ∧
    (amount < 0 → w.toInt = v.toInt.fdiv (2 ^ (-amount).toNat))

/-- From 31 places on only the sign is left. -/
theorem ediv_two_pow (w : Word) {places : Nat} (h : 31 ≤ places) :
    w.toInt / 2 ^ places = if w.toInt < 0 then -1 else 0 := by
  have hw := w.toInt_bounds
  have hpow : (2 : Int) ^ 31 ≤ 2 ^ places := by
    exact_mod_cast Nat.pow_le_pow_right (by decide) h
  split
  next hneg => exact Int.ediv_eq_neg_one_of_neg_of_le hneg (by omega)
  next hneg => exact Int.ediv_eq_zero_of_lt (by omega) (by omega)

theorem toInt_sshiftRight (w : Word) (places : Nat) :
    (Word.mk (w.bits.sshiftRight places)).toInt = w.toInt / 2 ^ places := by
  have hshift : (w.bits.sshiftRight places).toInt = w.toInt >>> places :=
    BitVec.toInt_sshiftRight
  rw [toInt, hshift, Int.shiftRight_eq_div_pow, Int.natCast_pow]
  rfl

theorem sshiftRight_of_le (w : Word) {places : Nat} (h : 31 ≤ places) :
    Word.mk (w.bits.sshiftRight places) = ⟨w.bits.sshiftRight 31⟩ := by
  rw [← toInt_inj, toInt_sshiftRight, toInt_sshiftRight, ediv_two_pow w h,
    ediv_two_pow w (Nat.le_refl 31)]

theorem shiftLeft_of_le (w : Word) {places : Nat} (h : 32 ≤ places) :
    Word.mk (w.bits <<< places) = zero :=
  congrArg Word.mk (BitVec.shiftLeft_eq_zero h)

theorem shift_natCast (w : Word) (places : Nat) :
    w.shift (places : Int) = ⟨w.bits <<< places⟩ := by
  show Word.mk (w.bits <<< min places 32) = _
  by_cases h : places ≤ 32
  · rw [Nat.min_eq_left h]
  · rw [Nat.min_eq_right (by omega), shiftLeft_of_le w (Nat.le_refl 32),
      shiftLeft_of_le w (by omega)]

theorem shift_neg_natCast (w : Word) (places : Nat) :
    w.shift (-(places : Int)) = ⟨w.bits.sshiftRight places⟩ := by
  cases places with
  | zero =>
    refine (shift_natCast w 0).trans ?_
    rw [BitVec.shiftLeft_zero, BitVec.sshiftRight_zero]
  | succ n =>
    show Word.mk (w.bits.sshiftRight (min (n + 1) 32)) = _
    by_cases h : n + 1 ≤ 32
    · rw [Nat.min_eq_left h]
    · rw [Nat.min_eq_right (by omega), sshiftRight_of_le w (show 31 ≤ 32 by decide),
        sshiftRight_of_le w (show 31 ≤ n + 1 by omega)]

theorem shiftLeft_wraps (w : Word) (places : Nat) :
    (Word.mk (w.bits <<< places)).Wraps (w.toInt * 2 ^ places) := by
  have hpow : BitVec.ofInt 32 (2 ^ places) = BitVec.twoPow 32 places := by
    have hcast : (2 : Int) ^ places = ((2 ^ places : Nat) : Int) := (Int.natCast_pow 2 places).symm
    apply BitVec.eq_of_toNat_eq
    rw [hcast, BitVec.ofInt_natCast, BitVec.toNat_ofNat, BitVec.toNat_twoPow]
  rw [wraps_iff, ofInt, BitVec.ofInt_mul, toInt, BitVec.ofInt_toInt, hpow,
    BitVec.shiftLeft_eq_mul_twoPow]

theorem shift_scales (w : Word) (amount : Int) : (w.shift amount).Scales w amount := by
  rcases Int.eq_nat_or_neg amount with ⟨places, rfl | rfl⟩
  · rw [shift_natCast]
    refine ⟨fun _ => ?_, fun hneg => ?_⟩
    · exact shiftLeft_wraps w places
    · omega
  · rw [shift_neg_natCast]
    refine ⟨fun hle => ?_, fun _ => ?_⟩
    · obtain rfl : places = 0 := by omega
      simpa using shiftLeft_wraps w 0
    · rw [toInt_sshiftRight, Int.neg_neg, Int.toNat_natCast, Int.fdiv_eq_ediv_of_nonneg]
      exact Int.le_of_lt (Int.pow_pos (by decide))

end Word

/-- The two ways of a shift. -/
inductive Direction where
  | left
  | right

namespace Direction

def opposite : Direction → Direction
  | left => right
  | right => left

/-- The amount of the shift to the left. -/
def signed : Direction → Int → Int
  | left, amount => amount
  | right, amount => -amount

def move (w : Word) (places : Nat) : Direction → Word
  | left => ⟨w.bits <<< places⟩
  | right => ⟨w.bits.sshiftRight places⟩

/-- Only by fewer places than there are can the bits be moved. -/
def moved? (d : Direction) (w : Word) (places : BitVec 32) : Option Word :=
  if places.toNat < 32 then some (d.move w places.toNat) else none

/-- What is left when every bit has been moved out. -/
def emptied (w : Word) : Direction → Word
  | left => .zero
  | right => ⟨w.bits.sshiftRight 31⟩

/-- The least integer has no opposite of 32 bits. -/
def negated? (amount : BitVec 32) : Option (BitVec 32) :=
  if amount = BitVec.intMin 32 then none else some (-amount)

/-- A shift by any amount, made of operations that do not have a result for all amounts: an amount
of 32 and more either way is told apart before it is negated or moved by. -/
def guarded? (d : Direction) (w amount : Word) : Option Word :=
  if 32 ≤ amount.toInt then some (d.emptied w)
  else if 0 ≤ amount.toInt then d.moved? w amount.bits
  else if amount.toInt ≤ -32 then some (d.opposite.emptied w)
  else (negated? amount.bits).bind (d.opposite.moved? w)

theorem signed_opposite (d : Direction) (amount : Int) :
    d.opposite.signed amount = d.signed (-amount) := by
  cases d with
  | left => rfl
  | right => exact (Int.neg_neg amount).symm

theorem shift_signed (d : Direction) (w : Word) (places : Nat) :
    w.shift (d.signed places) = d.move w places := by
  cases d with
  | left => exact w.shift_natCast places
  | right => exact w.shift_neg_natCast places

theorem moved?_eq (d : Direction) (w : Word) {places : BitVec 32} (h : places.toNat < 32) :
    d.moved? w places = some (w.shift (d.signed places.toNat)) := by
  rw [moved?, if_pos h, shift_signed]

theorem emptied_eq (d : Direction) (w : Word) {amount : Int} (h : 32 ≤ amount) :
    d.emptied w = w.shift (d.signed amount) := by
  obtain ⟨places, rfl⟩ := Int.eq_ofNat_of_zero_le (show 0 ≤ amount by omega)
  rw [shift_signed]
  cases d with
  | left => exact (w.shiftLeft_of_le (by omega)).symm
  | right => exact (w.sshiftRight_of_le (by omega)).symm

/-- The guarded shift always has a result, the shift by the exact amount. -/
theorem guarded?_eq (d : Direction) (w amount : Word) :
    d.guarded? w amount = some (w.shift (d.signed amount.toInt)) := by
  have hbits : amount.toInt = if 2 * amount.bits.toNat < 2 ^ 32 then (amount.bits.toNat : Int)
      else (amount.bits.toNat : Int) - (2 ^ 32 : Nat) := BitVec.toInt_eq_toNat_cond amount.bits
  have hlt : amount.bits.toNat < 2 ^ 32 := amount.bits.isLt
  unfold guarded?
  split
  next hhigh => rw [emptied_eq d w hhigh]
  next =>
    split
    next =>
      have hnat : (amount.bits.toNat : Int) = amount.toInt := by
        split at hbits <;> omega
      rw [moved?_eq d w (by omega), hnat]
    next =>
      split
      next hlow =>
        rw [emptied_eq d.opposite w (show 32 ≤ -amount.toInt by omega), signed_opposite,
          Int.neg_neg]
      next =>
        -- Only amounts from -31 to -1 are negated.
        have hmin : amount.bits ≠ BitVec.intMin 32 := by
          intro heq
          have htoInt : amount.toInt = (BitVec.intMin 32).toInt := congrArg BitVec.toInt heq
          have hleast : (BitVec.intMin 32).toInt = -0x80000000 := by decide
          omega
        have hneg : (-amount.bits).toNat = (2 ^ 32 - amount.bits.toNat) % 2 ^ 32 :=
          BitVec.toNat_neg amount.bits
        have hnat : ((-amount.bits).toNat : Int) = -amount.toInt := by
          split at hbits <;> omega
        rw [negated?, if_neg hmin, Option.bind_some, moved?_eq d.opposite w (by omega), hnat,
          signed_opposite, Int.neg_neg]

end Direction

namespace Machine

variable {σ : Type} {m : Machine σ}

theorem execute_arithmetic (h : m.registers.size = Register.count) {i : Instruction} {op : Opcode}
    (hop : i.opcode? = some op) {f : Word → Word → Word} (heffect : op.effect = .arithmetic f)
    (h0 : i.arg0.toNat < Register.count) (h1 : i.arg1.toNat < Register.count)
    (hwrite : i.arg2.toNat < m.registers.size) :
    execute i m = .ok () { m with
      registers := m.registers.set i.arg2 (f (m.word i.arg0) (m.word i.arg1)) hwrite } := by
  have hread : ∀ a ∈ (Effect.arithmetic f).operands i, a.toNat < Register.count := by
    simp [Effect.arithmetic, Effect.operands, h0, h1]
  rw [execute_of_opcode hop, perform_eq, heffect]
  exact perform_of_result h rfl hread hwrite

/-- A shift to the left scales by the amount and a shift to the right by its opposite, for every
amount; both can be done without negating the least integer or moving by 32 places; shifts by
opposite amounts are the same; and the operations write these words. -/
theorem shifts_scale_exactly :
    (∀ v a : Word, (v.shiftLeft a).Scales v a.toInt ∧ (v.shiftRight a).Scales v (-a.toInt) ∧
      Direction.left.guarded? v a = some (v.shiftLeft a) ∧
      Direction.right.guarded? v a = some (v.shiftRight a) ∧
      ∀ b : Word, b.toInt = -a.toInt → v.shiftLeft a = v.shiftRight b) ∧
    ∀ (m : Machine σ) (h : m.registers.size = Register.count) (i : Instruction),
      i.arg0.toNat < Register.count → i.arg1.toNat < Register.count →
      ∀ hwrite : i.arg2.toNat < Register.count,
        (i.opcode? = some .shli → execute i m = .ok () { m with
          registers := m.registers.set i.arg2
            ((m.word i.arg0).shiftLeft (m.word i.arg1)) (h ▸ hwrite) }) ∧
        (i.opcode? = some .shri → execute i m = .ok () { m with
          registers := m.registers.set i.arg2
            ((m.word i.arg0).shiftRight (m.word i.arg1)) (h ▸ hwrite) }) := by
  refine ⟨fun v a => ⟨v.shift_scales _, v.shift_scales _, Direction.left.guarded?_eq v a,
    Direction.right.guarded?_eq v a, fun b hb => ?_⟩, fun m h i h0 h1 hwrite => ⟨?_, ?_⟩⟩
  · rw [Word.shiftLeft, Word.shiftRight, hb, Int.neg_neg]
  · exact fun hop => execute_arithmetic h hop rfl h0 h1 (h ▸ hwrite)
  · exact fun hop => execute_arithmetic h hop rfl h0 h1 (h ▸ hwrite)

/-- A negative integer to be shifted by the least integer. -/
def leastAmount : Machine Unit :=
  { load .empty .empty 0 with
    registers := ((Space.zeros Register.count).set 2 ⟨0xFFFFFFF9⟩ (by decide)).set 3
      ⟨0x80000000⟩ (by decide) }

theorem shifts_scale_exactly_least :
    (leastAmount.word 2).toInt = -7 ∧ (leastAmount.word 3).toInt = -0x80000000 ∧
      (∃ s, execute (.short .shli 2 3 2) leastAmount = .ok () s ∧ (s.word 2).toInt = -1) ∧
      ∃ s, execute (.short .shri 2 3 2) leastAmount = .ok () s ∧ (s.word 2).toInt = 0 := by
  have hwrites := shifts_scale_exactly.2 leastAmount rfl
  have hleft := (hwrites (.short .shli 2 3 2) (by decide +kernel) (by decide +kernel)
    (by decide +kernel)).1 rfl
  have hright := (hwrites (.short .shri 2 3 2) (by decide +kernel) (by decide +kernel)
    (by decide +kernel)).2 rfl
  exact ⟨by decide +kernel, by decide +kernel, ⟨_, hleft, by decide +kernel⟩,
    ⟨_, hright, by decide +kernel⟩⟩

end Machine

end RegisterMachine
