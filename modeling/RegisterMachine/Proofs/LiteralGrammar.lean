import RegisterMachine.Argument
import Mathlib.Data.List.Induction
import Mathlib.Data.List.TakeWhile

namespace RegisterMachine

/-- A numeral is one or more ASCII digits. -/
def IsNumeral (text : List Char) : Prop :=
  text ≠ [] ∧ ∀ c ∈ text, c.isDigit

def numeralValue (digits : List Char) : Nat :=
  Nat.ofDigitChars 10 digits 0

theorem isNumeral_iff {text : List Char} :
    IsNumeral text ↔ (!text.isEmpty && text.all Char.isDigit) = true := by
  simp [IsNumeral]

theorem decimalValue?_eq_some_iff {text : List Char} {n : Nat} :
    decimalValue? text = some n ↔ IsNumeral text ∧ numeralValue text = n := by
  unfold decimalValue?
  split
  next h =>
    rw [← isNumeral_iff] at h
    simp [h, digitsValue_eq, numeralValue]
  next h =>
    rw [← isNumeral_iff] at h
    simp [h]

theorem decimalValue?_eq_none_iff {text : List Char} :
    decimalValue? text = none ↔ ¬IsNumeral text := by
  unfold decimalValue?
  rw [isNumeral_iff]
  split <;> simp_all

namespace Decimal

/-- Behind the whole digits stands nothing, or a point with any number of digits. -/
inductive Fraction : List Char → List Char → Prop where
  | absent : Fraction [] []
  | point {digits : List Char} (hd : ∀ c ∈ digits, c.isDigit) : Fraction ('.' :: digits) digits

/-- The digits of an exponent count up to the one with which it reaches 65536. Those behind that
one are ignored. -/
inductive ExponentDigits : List Char → Nat → Prop where
  | all {digits : List Char} (h : numeralValue digits < 65536) :
      ExponentDigits digits (numeralValue digits)
  | upTo {kept ignored : List Char} {last : Char} (hkept : numeralValue kept < 65536)
      (hlast : 65536 ≤ numeralValue (kept ++ [last])) :
      ExponentDigits (kept ++ last :: ignored) (numeralValue (kept ++ [last]))

/-- An exponent is a mark, an optional sign and a numeral. -/
inductive Exponent : List Char → Int → Prop where
  | absent : Exponent [] 0
  | unsigned {mark : Char} {digits : List Char} {n : Nat} (hm : mark = 'e' ∨ mark = 'E')
      (hd : IsNumeral digits) (hn : ExponentDigits digits n) : Exponent (mark :: digits) n
  | positive {mark : Char} {digits : List Char} {n : Nat} (hm : mark = 'e' ∨ mark = 'E')
      (hd : IsNumeral digits) (hn : ExponentDigits digits n) : Exponent (mark :: '+' :: digits) n
  | negative {mark : Char} {digits : List Char} {n : Nat} (hm : mark = 'e' ∨ mark = 'E')
      (hd : IsNumeral digits) (hn : ExponentDigits digits n) :
      Exponent (mark :: '-' :: digits) (-(n : Int))

/-- A literal is a numeral, then possibly a fraction, then possibly an exponent. -/
inductive Literal : List Char → Decimal → Prop where
  | parts {whole fraction digits exponent : List Char} {e : Int} (hw : IsNumeral whole)
      (hf : Fraction fraction digits) (he : Exponent exponent e) :
      Literal (whole ++ (fraction ++ exponent))
        ⟨numeralValue (whole ++ digits), e - digits.length⟩

theorem numeralValue_concat (digits : List Char) (c : Char) :
    numeralValue (digits ++ [c]) = 10 * numeralValue digits + (c.toNat - '0'.toNat) := by
  simp [numeralValue, Nat.ofDigitChars_append, Nat.ofDigitChars_cons]

theorem exponentValue_concat (digits : List Char) (c : Char) :
    exponentValue (digits ++ [c]) =
      if exponentValue digits < 65536 then 10 * exponentValue digits + (c.toNat - '0'.toNat)
      else exponentValue digits := by
  rw [exponentValue, List.foldl_append]
  rfl

theorem exponentDigits_exponentValue (digits : List Char) :
    ExponentDigits digits (exponentValue digits) := by
  induction digits using List.reverseRecOn with
  | nil => exact .all (by decide)
  | append_singleton digits c ih =>
    rw [exponentValue_concat]
    generalize exponentValue digits = n at ih ⊢
    cases ih with
    | all h =>
      rw [if_pos h, ← numeralValue_concat]
      by_cases hlt : numeralValue (digits ++ [c]) < 65536
      · exact .all hlt
      · exact .upTo h (by omega)
    | @upTo kept ignored last hkept hlast =>
      rw [if_neg (by omega), List.append_assoc, List.cons_append]
      exact .upTo hkept hlast

theorem exponentValue_of_lt {digits : List Char} (h : numeralValue digits < 65536) :
    exponentValue digits = numeralValue digits := by
  induction digits using List.reverseRecOn with
  | nil => rfl
  | append_singleton digits c ih =>
    rw [numeralValue_concat] at h ⊢
    have hdigits := ih (by omega)
    rw [exponentValue_concat, hdigits, if_pos (by omega)]

theorem exponentValue_append_of_le {digits : List Char} (h : 65536 ≤ exponentValue digits)
    (ignored : List Char) : exponentValue (digits ++ ignored) = exponentValue digits := by
  induction ignored using List.reverseRecOn with
  | nil => rw [List.append_nil]
  | append_singleton ignored c ih =>
    rw [← List.append_assoc, exponentValue_concat, ih, if_neg (by omega)]

theorem exponentDigits_iff {digits : List Char} {n : Nat} :
    ExponentDigits digits n ↔ exponentValue digits = n := by
  constructor
  · intro h
    cases h with
    | all h => exact exponentValue_of_lt h
    | @upTo kept ignored last hkept hlast =>
      have hvalue : exponentValue (kept ++ [last]) = numeralValue (kept ++ [last]) := by
        rw [exponentValue_concat, exponentValue_of_lt hkept, if_pos hkept, numeralValue_concat]
      rw [← hvalue] at hlast ⊢
      rw [List.append_cons, exponentValue_append_of_le hlast]
  · rintro rfl
    exact exponentDigits_exponentValue digits

theorem exponentValue?_eq_some_iff {digits : List Char} {n : Nat} :
    exponentValue? digits = some n ↔ IsNumeral digits ∧ ExponentDigits digits n := by
  rw [exponentDigits_iff]
  unfold exponentValue?
  split
  next h =>
    rw [← isNumeral_iff] at h
    simp [h]
  next h =>
    rw [← isNumeral_iff] at h
    simp [h]

theorem exponent?_eq_some_iff {text : List Char} {e : Int} :
    exponent? text = some e ↔ Exponent text e := by
  constructor
  · intro h
    unfold exponent? at h
    split at h
    next =>
      cases Option.some.inj h
      exact .absent
    next mark rest =>
      split at h
      next hm =>
        split at h <;> obtain ⟨z, hz, rfl⟩ := Option.map_eq_some_iff.mp h <;>
          obtain ⟨n, hn, hzn⟩ := Option.bind_eq_some_iff.mp hz <;>
          obtain ⟨hd, hv⟩ := exponentValue?_eq_some_iff.mp hn <;>
          cases Option.some.inj hzn
        · exact .negative hm hd hv
        · exact .positive hm hd hv
        · exact .unsigned hm hd hv
      next => simp at h
  · intro h
    cases h with
    | absent => rfl
    | @unsigned mark digits n hm hd hn =>
      have hv := exponentValue?_eq_some_iff.mpr ⟨hd, hn⟩
      obtain ⟨c, rest, rfl⟩ := List.exists_cons_of_ne_nil hd.1
      have hc : c.isDigit := hd.2 c (by simp)
      have hminus : c ≠ '-' := by rintro rfl; simp at hc
      have hplus : c ≠ '+' := by rintro rfl; simp at hc
      rw [exponent?, if_pos hm, hv]
      · rfl
      · exact fun _ heq => hminus (List.cons.inj heq).1
      · exact fun _ heq => hplus (List.cons.inj heq).1
    | @positive mark digits n hm hd hn =>
      rw [exponent?, if_pos hm]
      simp only [exponentValue?_eq_some_iff.mpr ⟨hd, hn⟩]
      rfl
    | @negative mark digits n hm hd hn =>
      rw [exponent?, if_pos hm]
      simp only [exponentValue?_eq_some_iff.mpr ⟨hd, hn⟩]
      rfl

/-- Digits followed by anything else but a digit are what `takeWhile` finds. -/
theorem takeWhile_isDigit_append {digits rest : List Char} (hd : ∀ c ∈ digits, c.isDigit)
    (hr : ∀ c, rest.head? = some c → ¬c.isDigit) :
    (digits ++ rest).takeWhile Char.isDigit = digits ∧
      (digits ++ rest).dropWhile Char.isDigit = rest := by
  rw [List.takeWhile_append_of_pos hd, List.dropWhile_append_of_pos hd]
  cases rest with
  | nil => simp
  | cons c rest => simp [hr c rfl]

theorem Exponent.head {text : List Char} {e : Int} (h : Exponent text e) {c : Char}
    (hc : text.head? = some c) : c = 'e' ∨ c = 'E' := by
  cases h with
  | absent => simp at hc
  | unsigned hm _ _ | positive hm _ _ | negative hm _ _ =>
    cases Option.some.inj hc
    exact hm

theorem Exponent.head_not_digit {text : List Char} {e : Int} (h : Exponent text e) (c : Char)
    (hc : text.head? = some c) : ¬c.isDigit := by
  rcases h.head hc with rfl | rfl <;> decide

theorem fraction_append {text digits rest : List Char} (h : Fraction text digits) {e : Int}
    (he : Exponent rest e) : fraction (text ++ rest) = (digits, rest) := by
  cases h with
  | absent =>
    unfold fraction
    split
    next after heq =>
      obtain rfl : rest = '.' :: after := heq
      exact absurd (he.head rfl) (by decide)
    next => rfl
  | point hd =>
    obtain ⟨htake, hdrop⟩ := takeWhile_isDigit_append hd he.head_not_digit
    simp only [List.cons_append, fraction, htake, hdrop]

theorem Fraction.head {text digits : List Char} (h : Fraction text digits) {c : Char}
    (hc : text.head? = some c) : c = '.' := by
  cases h with
  | absent => simp at hc
  | point _ => exact (Option.some.inj hc).symm

theorem fraction_spec (text : List Char) :
    ∃ written, text = written ++ (fraction text).2 ∧ Fraction written (fraction text).1 := by
  unfold fraction
  split
  next rest =>
    refine ⟨'.' :: rest.takeWhile Char.isDigit, by simp, .point fun c hc => ?_⟩
    exact List.mem_takeWhile_imp hc
  next => exact ⟨[], rfl, .absent⟩

theorem ofLiteral?_eq_some_iff {text : List Char} {d : Decimal} :
    ofLiteral? text = some d ↔ Literal text d := by
  constructor
  · intro h
    obtain ⟨written, hwritten, hf⟩ := fraction_spec (text.dropWhile Char.isDigit)
    simp only [ofLiteral?, List.isEmpty_iff] at h
    split at h
    next => simp at h
    next hwhole =>
      obtain ⟨e, he, rfl⟩ := Option.map_eq_some_iff.mp h
      have hw : IsNumeral (text.takeWhile Char.isDigit) :=
        ⟨hwhole, fun c hc => List.mem_takeWhile_imp hc⟩
      have hparts := Literal.parts hw hf (exponent?_eq_some_iff.mp he)
      rw [← hwritten, List.takeWhile_append_dropWhile] at hparts
      simpa only [digitsValue_eq, numeralValue] using hparts
  · rintro ⟨hw, hf, he⟩
    rename_i whole written digits exponent e
    have hhead : ∀ c, (written ++ exponent).head? = some c → ¬c.isDigit := by
      intro c hc
      rw [List.head?_append] at hc
      cases hwc : written.head? with
      | none => exact he.head_not_digit c (by simpa [hwc] using hc)
      | some x =>
        obtain rfl : x = c := by simpa [hwc] using hc
        cases hf.head hwc
        decide
    obtain ⟨htake, hdrop⟩ := takeWhile_isDigit_append hw.2 hhead
    simp only [ofLiteral?, htake, hdrop, fraction_append hf he, List.isEmpty_iff, hw.1,
      if_false, exponent?_eq_some_iff.mpr he, Option.map_some, digitsValue_eq]
    rfl

end Decimal

namespace Opcode

/-- An operation is written by its name, and `li` also as `loadi`. -/
inductive Mnemonic : List Char → Opcode → Prop where
  | name (op : Opcode) : Mnemonic op.name.toList op
  | loadi : Mnemonic "loadi".toList li

theorem ofMnemonic?_eq_some_iff {text : List Char} {op : Opcode} :
    ofMnemonic? (String.ofList text) = some op ↔ Mnemonic text op := by
  constructor
  · intro h
    unfold ofMnemonic? at h
    split at h
    next heq =>
      cases Option.some.inj h
      obtain rfl : text = "loadi".toList := by simpa using congrArg String.toList (eq_of_beq heq)
      exact .loadi
    next =>
      have hname := List.find?_some h
      obtain rfl : text = op.name.toList := by
        simpa using (congrArg String.toList (eq_of_beq hname)).symm
      exact .name op
  · rintro (_ | _)
    · rw [String.ofList_toList]
      cases op <;> rfl
    · rfl

end Opcode

namespace Register

theorem ofName?_eq_some_iff {text : List Char} {r : Register} :
    ofName? (String.ofList text) = some r ↔ text = r.name.toList := by
  constructor
  · intro h
    have hname := List.find?_some h
    simpa using (congrArg String.toList (eq_of_beq hname)).symm
  · rintro rfl
    rw [String.ofList_toList]
    cases r <;> rfl

theorem not_isNumeral_name (r : Register) : ¬IsNumeral r.name.toList := by
  rw [isNumeral_iff]
  cases r <;> decide

end Register

end RegisterMachine
