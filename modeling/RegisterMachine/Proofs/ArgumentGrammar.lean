import RegisterMachine.Proofs.LiteralGrammar
import RegisterMachine.Proofs.NearestFloat

namespace RegisterMachine

theorem bind_eq_ok_iff {ε α β : Type} {x : Except ε α} {f : α → Except ε β} {b : β} :
    (x >>= f) = .ok b ↔ ∃ a, x = .ok a ∧ f a = .ok b := by
  cases x with
  | error e => simp [bind, Except.bind]
  | ok a => simp [bind, Except.bind]

namespace Argument

/-- The number that a text stands for, the labels having the offsets that `offset` says. -/
inductive Denotes (offset : List Char → Nat → Prop) : List Char → Nat → Prop where
  | label {name : List Char} {k : Nat} (h : offset name k) : Denotes offset ('@' :: name) k
  | index {digits : List Char} (hd : IsNumeral digits) (hv : numeralValue digits < 0x100000000) :
      Denotes offset ('$' :: digits) (numeralValue digits)
  | register (r : Register) : Denotes offset ('$' :: r.name.toList) r.index.toNat
  | integer {digits : List Char} (hd : IsNumeral digits)
      (hv : numeralValue digits ≤ 0x7FFFFFFF) :
      Denotes offset (digits ++ ['i']) (numeralValue digits)
  | float {literal : List Char} {d : Decimal} {bits : Nat} (h : Decimal.Literal literal d)
      (hn : Binary32.IsNearest d.toRat bits) : Denotes offset (literal ++ ['f']) bits

theorem Denotes.lt {offset : List Char → Nat → Prop} {text : List Char} {v : Nat}
    (hoffset : ∀ name k, offset name k → k < 0x100000000) (h : Denotes offset text v) :
    v < 0x100000000 := by
  cases h with
  | label h => exact hoffset _ _ h
  | index _ hv => exact hv
  | register r => cases r <;> decide
  | integer _ hv => omega
  | float _ hn => exact hn.le_infinity.trans_lt (by decide)

theorem bits?_eq_some_iff {bound n : Nat} {w : BitVec 32} :
    bits? bound n = some w ↔ n < bound ∧ w = BitVec.ofNat 32 n := by
  unfold bits?
  split
  next h => simp [h, eq_comm]
  next h => simp [h]

theorem registerIndex?_eq_some_iff {name : List Char} {w : BitVec 32} :
    registerIndex? name = some w ↔
      (IsNumeral name ∧ numeralValue name < 0x100000000 ∧
        w = BitVec.ofNat 32 (numeralValue name)) ∨
      ∃ r : Register, name = r.name.toList ∧ w = BitVec.ofNat 32 r.index.toNat := by
  unfold registerIndex?
  cases hn : decimalValue? name with
  | some n =>
    obtain ⟨hd, rfl⟩ := decimalValue?_eq_some_iff.mp hn
    have hname : ∀ r : Register, name ≠ r.name.toList := by
      rintro r rfl
      exact r.not_isNumeral_name hd
    simp [bits?_eq_some_iff, hd, hname]
  | none =>
    have hd := decimalValue?_eq_none_iff.mp hn
    simp only [Option.map_eq_some_iff, Register.ofName?_eq_some_iff, hd, false_and, false_or]
    refine exists_congr fun r => and_congr_right fun _ => ?_
    rw [eq_comm, BitVec.ofNat_toNat]

theorem integer?_eq_some_iff {digits : List Char} {w : BitVec 32} :
    integer? digits = some w ↔ IsNumeral digits ∧ numeralValue digits ≤ 0x7FFFFFFF ∧
      w = BitVec.ofNat 32 (numeralValue digits) := by
  simp only [integer?, Option.bind_eq_some_iff, decimalValue?_eq_some_iff, bits?_eq_some_iff]
  constructor
  · rintro ⟨n, ⟨hd, rfl⟩, hlt, rfl⟩
    exact ⟨hd, by omega, rfl⟩
  · rintro ⟨hd, hle, rfl⟩
    exact ⟨_, ⟨hd, rfl⟩, by omega, rfl⟩

theorem head_isDigit_of_numeral {digits : List Char} (hd : IsNumeral digits) (rest : List Char) :
    ∃ c tail, digits ++ rest = c :: tail ∧ c.isDigit := by
  obtain ⟨c, tail, rfl⟩ := List.exists_cons_of_ne_nil hd.1
  exact ⟨c, tail ++ rest, rfl, hd.2 c (by simp)⟩

theorem head_isDigit_of_literal {literal : List Char} {d : Decimal}
    (h : Decimal.Literal literal d) (rest : List Char) :
    ∃ c tail, literal ++ rest = c :: tail ∧ c.isDigit := by
  obtain ⟨hw, _, _⟩ := h
  rw [List.append_assoc]
  exact head_isDigit_of_numeral hw _

theorem ofText_of_isDigit {c : Char} {rest : List Char} (hc : c.isDigit) :
    ofText (c :: rest) = ofLiteral (c :: rest) := by
  have hat : c ≠ '@' := by rintro rfl; simp at hc
  have hdollar : c ≠ '$' := by rintro rfl; simp at hc
  rw [ofText, if_pos hc]
  · exact fun heq => hat heq
  · exact fun heq => hdollar heq

theorem ofLiteral_concat_i {number : List Char} {a : Argument} :
    ofLiteral (number ++ ['i']) = .ok a ↔ ∃ w, integer? number = some w ∧ a = .integer w := by
  simp only [ofLiteral, List.getLast?_concat, List.dropLast_concat, if_true]
  cases integer? number with
  | none => simp
  | some w => simp [eq_comm]

theorem ofLiteral_concat_f {number : List Char} {a : Argument} :
    ofLiteral (number ++ ['f']) = .ok a ↔
      ∃ d, Decimal.Literal number d ∧ a = .float (Binary32.ofDecimal d) := by
  simp only [← Decimal.ofLiteral?_eq_some_iff, ofLiteral, List.getLast?_concat,
    List.dropLast_concat, Option.some.injEq, Char.reduceEq, if_false, if_true,
    Binary32.ofLiteral?]
  cases Decimal.ofLiteral? number with
  | none => simp
  | some d => simp [eq_comm]

theorem concat_of_ofLiteral {text : List Char} {a : Argument} (h : ofLiteral text = .ok a) :
    ∃ number, text = number ++ ['i'] ∨ text = number ++ ['f'] := by
  simp only [ofLiteral] at h
  split at h
  next hlast =>
    obtain ⟨number, heq⟩ := List.getLast?_eq_some_iff.mp hlast
    exact ⟨number, .inl heq⟩
  next =>
    split at h
    next hlast =>
      obtain ⟨number, heq⟩ := List.getLast?_eq_some_iff.mp hlast
      exact ⟨number, .inr heq⟩
    next => simp at h

def read (labels : Labels) (text : List Char) : Except Cause (BitVec 32) := do
  (← ofText text).value labels

theorem denotes_of_ofLiteral {labels : Labels} {text : List Char} {a : Argument} {w : BitVec 32}
    (h : ofLiteral text = .ok a) (hw : a.value labels = .ok w) :
    ∃ v, Denotes (fun name k => labels.lookup name = some k) text v ∧ w = BitVec.ofNat 32 v := by
  obtain ⟨number, rfl | rfl⟩ := concat_of_ofLiteral h
  · obtain ⟨value, hvalue, rfl⟩ := ofLiteral_concat_i.mp h
    obtain ⟨hd, hle, rfl⟩ := integer?_eq_some_iff.mp hvalue
    cases Except.ok.inj hw
    exact ⟨_, .integer hd hle, rfl⟩
  · obtain ⟨d, hd, rfl⟩ := ofLiteral_concat_f.mp h
    cases Except.ok.inj hw
    exact ⟨_, .float hd (Binary32.isNearest_ofDecimal d), by simp⟩

theorem denotes_of_ofText {labels : Labels} {text : List Char} {a : Argument} {w : BitVec 32}
    (h : ofText text = .ok a) (hw : a.value labels = .ok w) :
    ∃ v, Denotes (fun name k => labels.lookup name = some k) text v ∧ w = BitVec.ofNat 32 v := by
  unfold ofText at h
  split at h
  next name =>
    cases Except.ok.inj h
    simp only [value] at hw
    split at hw
    next offset hoffset =>
      cases Except.ok.inj hw
      exact ⟨offset, .label hoffset, rfl⟩
    next => simp at hw
  next name =>
    split at h
    next index hindex =>
      cases Except.ok.inj h
      cases Except.ok.inj hw
      rcases registerIndex?_eq_some_iff.mp hindex with ⟨hd, hv, rfl⟩ | ⟨r, rfl, rfl⟩
      · exact ⟨_, .index hd hv, rfl⟩
      · exact ⟨_, .register r, rfl⟩
    next => simp at h
  next => simp at h
  next c rest _ _ =>
    split at h
    next => exact denotes_of_ofLiteral h hw
    next => simp at h

theorem read_of_denotes {labels : Labels} {text : List Char} {v : Nat}
    (h : Denotes (fun name k => labels.lookup name = some k) text v) :
    read labels text = .ok (BitVec.ofNat 32 v) := by
  rw [read, bind_eq_ok_iff]
  cases h with
  | label h => exact ⟨_, rfl, by simp only [value, h]⟩
  | @index digits hd hv =>
    have hindex := registerIndex?_eq_some_iff.mpr (.inl ⟨hd, hv, rfl⟩)
    exact ⟨.register (BitVec.ofNat 32 (numeralValue digits)), by simp only [ofText, hindex], rfl⟩
  | register r =>
    have hindex := registerIndex?_eq_some_iff.mpr (.inr ⟨r, rfl, rfl⟩)
    exact ⟨.register (BitVec.ofNat 32 r.index.toNat), by simp only [ofText, hindex], rfl⟩
  | @integer digits hd hv =>
    obtain ⟨c, tail, heq, hc⟩ := head_isDigit_of_numeral hd ['i']
    refine ⟨.integer (BitVec.ofNat 32 (numeralValue digits)), ?_, rfl⟩
    rw [heq, ofText_of_isDigit hc, ← heq]
    exact ofLiteral_concat_i.mpr ⟨_, integer?_eq_some_iff.mpr ⟨hd, hv, rfl⟩, rfl⟩
  | @float literal d bits hd hn =>
    obtain rfl := Binary32.isNearest_iff.mp hn
    obtain ⟨c, tail, heq, hc⟩ := head_isDigit_of_literal hd ['f']
    refine ⟨.float (Binary32.ofDecimal d), ?_, by simp [value]⟩
    rw [heq, ofText_of_isDigit hc, ← heq]
    exact ofLiteral_concat_f.mpr ⟨d, hd, rfl⟩

/-- A text is read as the number that it stands for, if no label is too far away. -/
theorem read_eq_ok_iff {labels : Labels} {text : List Char} {w : BitVec 32}
    (hsmall : ∀ name k, labels.lookup name = some k → k < 0x100000000) :
    read labels text = .ok w ↔
      Denotes (fun name k => labels.lookup name = some k) text w.toNat := by
  constructor
  · intro h
    obtain ⟨a, ha, hw⟩ := bind_eq_ok_iff.mp h
    obtain ⟨v, hv, rfl⟩ := denotes_of_ofText ha hw
    rwa [BitVec.toNat_ofNat, Nat.mod_eq_of_lt (hv.lt hsmall)]
  · intro h
    rw [read_of_denotes h, BitVec.ofNat_toNat, BitVec.setWidth_eq]

end Argument

end RegisterMachine
