import RegisterMachine.Binary32
import Mathlib.Algebra.Order.Field.Rat
import Mathlib.Algebra.Order.Field.Power
import Mathlib.Data.Nat.Log
import Mathlib.Tactic.FieldSimp
import Mathlib.Tactic.Linarith
import Mathlib.Tactic.NormNum
import Mathlib.Tactic.Positivity
import Mathlib.Tactic.Ring

namespace RegisterMachine

/-- The number that a decimal stands for. -/
def Decimal.toRat (d : Decimal) : ℚ :=
  d.digits * 10 ^ d.exponent

namespace Binary32

/-- The number that the bits of a positive float stand for. Infinity counts as the float that
would come after the greatest finite one. -/
def value (bits : Nat) : ℚ :=
  let exponent := bits / 0x800000
  let fraction := bits % 0x800000
  if exponent = 0 then fraction * 2 ^ (-149 : ℤ)
  else (0x800000 + fraction) * 2 ^ ((exponent : ℤ) - 150)

/-- No float is nearer to `x`, and if another one is as near, the last place of this one is even. -/
structure IsNearest (x : ℚ) (bits : Nat) : Prop where
  le_infinity : bits ≤ infinity
  nearest : ∀ other ≤ infinity, |x - value bits| ≤ |x - value other|
  even : ∀ other ≤ infinity, other ≠ bits → |x - value other| = |x - value bits| → bits % 2 = 0

/-- A significand has 24 places, or fewer in the lowest place. One that has just carried is the
first of the next place. -/
theorem value_place {p s : Nat} (hs : s ≤ 0x1000000) (hp : 0x800000 ≤ s ∨ p = 0) :
    value (p * 0x800000 + s) = s * 2 ^ ((p : ℤ) - 149) := by
  by_cases hlow : s < 0x800000
  · obtain rfl : p = 0 := by omega
    have hdiv : (0 * 0x800000 + s) / 0x800000 = 0 := by omega
    have hmod : (0 * 0x800000 + s) % 0x800000 = s := by omega
    simp only [value, hdiv, hmod]
    norm_num
  by_cases hcarry : s = 0x1000000
  · subst hcarry
    have hdiv : (p * 0x800000 + 0x1000000) / 0x800000 = p + 2 := by omega
    have hmod : (p * 0x800000 + 0x1000000) % 0x800000 = 0 := by omega
    have hexp : ((p + 2 : Nat) : ℤ) - 150 = ((p : ℤ) - 149) + 1 := by push_cast; ring
    simp only [value, hdiv, hmod, hexp]
    rw [if_neg (by omega), zpow_add_one₀ two_ne_zero]
    push_cast
    ring
  · have hdiv : (p * 0x800000 + s) / 0x800000 = p + 1 := by omega
    have hmod : (p * 0x800000 + s) % 0x800000 = s - 0x800000 := by omega
    have hexp : ((p + 1 : Nat) : ℤ) - 150 = (p : ℤ) - 149 := by push_cast; ring
    simp only [value, hdiv, hmod, hexp]
    rw [if_neg (by omega), Nat.cast_sub (by omega)]
    push_cast
    ring

theorem exists_place (bits : Nat) :
    ∃ p s, bits = p * 0x800000 + s ∧ s < 0x1000000 ∧ (0x800000 ≤ s ∨ p = 0) := by
  by_cases h : bits < 0x800000
  · exact ⟨0, bits, by omega, by omega, .inr rfl⟩
  · exact ⟨bits / 0x800000 - 1, 0x800000 + bits % 0x800000, by omega, by omega, .inl (by omega)⟩

theorem value_strictMono : StrictMono value := by
  refine strictMono_nat_of_lt_succ fun bits => ?_
  obtain ⟨p, s, rfl, hs, hp⟩ := exists_place bits
  have hsucc := value_place (p := p) (s := s + 1) (by omega) (by omega)
  rw [Nat.add_assoc, hsucc, value_place hs.le hp]
  have hplace : (0 : ℚ) < 2 ^ ((p : ℤ) - 149) := by positivity
  push_cast
  linarith

theorem value_zero : value 0 = 0 := by
  simp [value]

theorem value_infinity : value infinity = 2 ^ 128 := by
  norm_num [value, infinity]

/-- The number lies between the midpoints to both neighbours, and on one of them only if the last
place is even. -/
structure Surrounds (bits : Nat) (x : ℚ) : Prop where
  above : 2 * x ≤ value bits + value (bits + 1)
  above_even : 2 * x = value bits + value (bits + 1) → bits % 2 = 0
  below : ∀ c, c + 1 = bits → value c + value bits ≤ 2 * x
  below_even : ∀ c, c + 1 = bits → value c + value bits = 2 * x → bits % 2 = 0

theorem Surrounds.nearer {bits : Nat} {x : ℚ} (h : Surrounds bits x) {other : Nat}
    (hne : other ≠ bits) :
    |x - value bits| < |x - value other| ∨
      |x - value bits| = |x - value other| ∧ bits % 2 = 0 := by
  rcases Nat.lt_or_gt_of_ne hne with hlt | hgt
  · obtain ⟨c, rfl⟩ : ∃ c, c + 1 = bits := ⟨bits - 1, by omega⟩
    have hc := h.below c rfl
    have hother : value other ≤ value c := value_strictMono.monotone (by omega)
    have hstep : value c < value (c + 1) := value_strictMono (by omega)
    rw [abs_of_pos (a := x - value other) (by linarith)]
    rcases hc.lt_or_eq with hlt | heq
    · exact .inl (abs_lt.mpr ⟨by linarith, by linarith⟩)
    · have hle : |x - value (c + 1)| ≤ x - value other := abs_le.mpr ⟨by linarith, by linarith⟩
      exact hle.lt_or_eq.imp_right (⟨·, h.below_even c rfl heq⟩)
  · have hother : value (bits + 1) ≤ value other := value_strictMono.monotone (by omega)
    have hstep : value bits < value (bits + 1) := value_strictMono (by omega)
    rw [abs_of_neg (a := x - value other) (by linarith [h.above])]
    rcases h.above.lt_or_eq with hlt | heq
    · exact .inl (abs_lt.mpr ⟨by linarith, by linarith⟩)
    · have hle : |x - value bits| ≤ -(x - value other) := abs_le.mpr ⟨by linarith, by linarith⟩
      exact hle.lt_or_eq.imp_right (⟨·, h.above_even heq⟩)

theorem isNearest_infinity {x : ℚ} (h : value infinity ≤ x) : IsNearest x infinity where
  le_infinity := le_rfl
  nearest other hother := by
    have hvalue := value_strictMono.monotone hother
    rw [abs_of_nonneg (by linarith), abs_of_nonneg (by linarith)]
    linarith
  even _ _ _ _ := rfl

theorem Surrounds.isNearest {bits : Nat} {x : ℚ} (h : Surrounds bits x) :
    IsNearest x (min infinity bits) := by
  by_cases hbits : bits ≤ infinity
  · rw [Nat.min_eq_right hbits]
    refine ⟨hbits, fun other _ => ?_, fun other _ hne htie => ?_⟩
    · by_cases hne : other = bits
      · rw [hne]
      · rcases h.nearer hne with hlt | ⟨heq, _⟩
        · exact hlt.le
        · exact heq.le
    · rcases h.nearer hne with hlt | ⟨_, heven⟩
      · exact absurd htie hlt.ne'
      · exact heven
  · rw [Nat.min_eq_left (by omega)]
    apply isNearest_infinity
    have hbelow := h.below (bits - 1) (by omega)
    have hlast : value infinity ≤ value (bits - 1) := value_strictMono.monotone (by omega)
    have hstep : value (bits - 1) < value bits := value_strictMono (by omega)
    linarith

/-- Two floats that are both nearest are both even, and one that lies between them is nearer. -/
theorem IsNearest.le {x : ℚ} {n m : Nat} (hn : IsNearest x n) (hm : IsNearest x m) : m ≤ n := by
  by_contra hle
  have hlt : n < m := Nat.lt_of_not_le hle
  have htie : |x - value m| = |x - value n| :=
    le_antisymm (hm.nearest n hn.le_infinity) (hn.nearest m hm.le_infinity)
  have hn2 := hn.even m hm.le_infinity hlt.ne' htie
  have hm2 := hm.even n hn.le_infinity hlt.ne htie.symm
  have hbetween := hn.nearest (n + 1) (by have := hm.le_infinity; omega)
  have hleft : value n < value (n + 1) := value_strictMono (by omega)
  have hright : value (n + 1) < value m := value_strictMono (by omega)
  rcases abs_cases (x - value m) with ⟨hxm, _⟩ | ⟨hxm, _⟩ <;>
    rcases abs_cases (x - value n) with ⟨hxn, _⟩ | ⟨hxn, _⟩ <;>
    rcases abs_cases (x - value (n + 1)) with ⟨hxs, _⟩ | ⟨hxs, _⟩ <;>
    linarith

theorem IsNearest.unique {x : ℚ} {n m : Nat} (hn : IsNearest x n) (hm : IsNearest x m) :
    n = m :=
  le_antisymm (hm.le hn) (hn.le hm)

/-- The rounded quotient is at most half a unit away, and exactly half only if it is even. -/
theorem roundHalfEven_mul (num : Nat) {den : Nat} (hden : 0 < den) :
    2 * num ≤ (2 * roundHalfEven num den + 1) * den ∧
      2 * roundHalfEven num den * den ≤ 2 * num + den ∧
      (2 * num = (2 * roundHalfEven num den + 1) * den ∨
        2 * roundHalfEven num den * den = 2 * num + den → roundHalfEven num den % 2 = 0) := by
  have hdiv := Nat.div_add_mod num den
  have hmod := Nat.mod_lt num hden
  have hcomm : den * (num / den) = num / den * den := Nat.mul_comm _ _
  simp only [roundHalfEven]
  split
  · simp only [Nat.add_mul, Nat.mul_assoc]
    omega
  split
  · simp only [Nat.add_mul, Nat.mul_add, Nat.mul_assoc]
    omega
  · rcases Nat.mod_two_eq_zero_or_one (num / den) with heven | hodd
    · simp only [heven, Nat.add_mul, Nat.mul_assoc]
      omega
    · simp only [hodd, Nat.add_mul, Nat.mul_add, Nat.mul_assoc]
      omega

theorem roundHalfEven_spec {num den s : Nat} {t : ℚ} (hden : 0 < den) (ht : (num / den : ℚ) = t)
    (hs : roundHalfEven num den = s) :
    2 * t ≤ 2 * s + 1 ∧ 2 * s ≤ 2 * t + 1 ∧
      (2 * t = 2 * s + 1 ∨ 2 * s = 2 * t + 1 → s % 2 = 0) := by
  subst hs
  obtain ⟨habove, hbelow, heven⟩ := roundHalfEven_mul num hden
  have hpos : (0 : ℚ) < den := mod_cast hden
  have hnum : (num : ℚ) = t * den := (div_eq_iff hpos.ne').mp ht
  have habove' : 2 * (t * den) ≤ (2 * roundHalfEven num den + 1) * den := by
    rw [← hnum]
    exact_mod_cast habove
  have hbelow' : (2 * roundHalfEven num den * den : ℚ) ≤ 2 * (t * den) + den := by
    rw [← hnum]
    exact_mod_cast hbelow
  refine ⟨le_of_mul_le_mul_right (by linarith) hpos,
    le_of_mul_le_mul_right (by linarith) hpos, fun htie => heven (htie.imp ?_ ?_)⟩
  · intro heq
    have hmul : 2 * (t * den) = (2 * roundHalfEven num den + 1) * den := by rw [← heq]; ring
    rw [← hnum] at hmul
    exact_mod_cast hmul
  · intro heq
    have hmul : (2 * roundHalfEven num den * den : ℚ) = 2 * (t * den) + den := by rw [heq]; ring
    rw [← hnum] at hmul
    exact_mod_cast hmul

/-- One of the two powers is the one meant, the other is 1. -/
theorem pow_div_pow (base : Nat) (n : ℤ) :
    (Nat.pow base n.toNat : ℚ) / Nat.pow base (-n).toNat = base ^ n := by
  rcases Int.le_total 0 n with h | h
  · obtain ⟨k, rfl⟩ := Int.eq_ofNat_of_zero_le h
    simp
  · obtain ⟨k, hk⟩ := Int.eq_ofNat_of_zero_le (Int.neg_nonneg.mpr h)
    obtain rfl : n = -k := by omega
    simp

theorem twoTo_div (n : ℤ) : (twoTo n : ℚ) / twoTo (-n) = 2 ^ n :=
  mod_cast pow_div_pow 2 n

theorem tenTo_div (n : ℤ) : (tenTo n : ℚ) / tenTo (-n) = 10 ^ n :=
  mod_cast pow_div_pow 10 n

theorem twoTo_pos (n : ℤ) : 0 < twoTo n :=
  Nat.pow_pos (by omega)

theorem tenTo_pos (n : ℤ) : 0 < tenTo n :=
  Nat.pow_pos (by omega)

theorem mul_twoTo_lt_iff {num den : Nat} (hden : 0 < den) (n : ℤ) :
    num * twoTo (-n) < den * twoTo n ↔ (num / den : ℚ) < 2 ^ n := by
  have htwo := twoTo_pos (-n)
  rw [← twoTo_div, div_lt_div_iff₀ (by positivity) (by positivity), mul_comm (twoTo n : ℚ)]
  norm_cast

theorem log2_bounds {n : Nat} (hn : 0 < n) :
    (2 : ℚ) ^ (n.log2 : ℤ) ≤ n ∧ (n : ℚ) < 2 ^ ((n.log2 : ℤ) + 1) := by
  constructor
  · exact_mod_cast Nat.log2_self_le hn.ne'
  · exact_mod_cast Nat.lt_log2_self

/-- The leading one of a ratio is where the logarithms say, or one place lower. -/
theorem ratio_bounds {num den : Nat} (hnum : 0 < num) (hden : 0 < den) :
    (2 : ℚ) ^ ((num.log2 : ℤ) - den.log2 - 1) ≤ num / den ∧
      (num / den : ℚ) < 2 ^ ((num.log2 : ℤ) - den.log2 + 1) := by
  obtain ⟨hnum1, hnum2⟩ := log2_bounds hnum
  obtain ⟨hden1, hden2⟩ := log2_bounds hden
  constructor
  · rw [sub_sub, zpow_sub₀ two_ne_zero]
    gcongr
  · rw [sub_add_eq_add_sub, zpow_sub₀ two_ne_zero]
    gcongr

theorem lastPlace_spec {num den : Nat} (hnum : 0 < num) (hden : 0 < den) :
    -149 ≤ lastPlace num den ∧ (num / den : ℚ) < 2 ^ (lastPlace num den + 24) ∧
      (lastPlace num den = -149 ∨ 2 ^ (lastPlace num den + 23) ≤ (num / den : ℚ)) := by
  obtain ⟨hlow, hhigh⟩ := ratio_bounds hnum hden
  have hleading : ∃ leading : ℤ, lastPlace num den = max (-149) (leading - 23) ∧
      2 ^ leading ≤ (num / den : ℚ) ∧ (num / den : ℚ) < 2 ^ (leading + 1) := by
    unfold lastPlace
    refine ⟨_, rfl, ?_⟩
    simp only [mul_twoTo_lt_iff hden]
    split
    next hlt => exact ⟨hlow, by rwa [sub_add_cancel]⟩
    next hle => exact ⟨not_lt.mp hle, hhigh⟩
  obtain ⟨leading, hplace, hle, hlt⟩ := hleading
  refine ⟨by omega, hlt.trans_le ?_, ?_⟩
  · exact zpow_le_zpow_right₀ one_le_two (by omega)
  · rcases max_choice (-149) (leading - 23) with hmax | hmax
    · exact .inl (hplace.trans hmax)
    · right
      rwa [hplace, hmax, sub_add_cancel]

/-- Behind a carry the floats lie twice as far apart. -/
theorem value_place_succ {p s : Nat} (hs : s ≤ 0x1000000) (hp : 0x800000 ≤ s ∨ p = 0) :
    (s + 1) * 2 ^ ((p : ℤ) - 149) ≤ value (p * 0x800000 + s + 1) := by
  by_cases hcarry : s = 0x1000000
  · have hnext := value_place (p := p + 1) (s := 0x800001) (by omega) (by omega)
    have hbits : p * 0x800000 + s + 1 = (p + 1) * 0x800000 + 0x800001 := by omega
    have hexp : ((p + 1 : Nat) : ℤ) - 149 = ((p : ℤ) - 149) + 1 := by push_cast; ring
    have hplace : (0 : ℚ) < 2 ^ ((p : ℤ) - 149) := by positivity
    rw [hbits, hnext, hexp, zpow_add_one₀ two_ne_zero, hcarry]
    push_cast
    linarith
  · rw [Nat.add_assoc, value_place (by omega) (by omega)]
    push_cast
    exact le_rfl

/-- The float below is one place less, or the significand is the first of its place. -/
theorem value_place_pred {p s c : Nat} (hs : s ≤ 0x1000000) (hp : 0x800000 ≤ s ∨ p = 0)
    (hc : c + 1 = p * 0x800000 + s) :
    value c = (s - 1) * 2 ^ ((p : ℤ) - 149) ∨
      s = 0x800000 ∧ p ≠ 0 ∧ value c < value (p * 0x800000 + s) := by
  by_cases hfirst : 0x800000 < s ∨ p = 0
  · left
    obtain rfl : c = p * 0x800000 + (s - 1) := by omega
    rw [value_place (by omega) (by omega), Nat.cast_sub (by omega), Nat.cast_one]
  · exact .inr ⟨by omega, by omega, value_strictMono (by omega)⟩

/-- A significand rounded in its last place stands for the float around the number. -/
theorem surrounds_of_place {p s : Nat} {t : ℚ} (ht : t < 0x1000000)
    (hp : 0x800000 ≤ t ∨ p = 0) (habove : 2 * t ≤ 2 * s + 1) (hbelow : 2 * s ≤ 2 * t + 1)
    (heven : 2 * t = 2 * s + 1 ∨ 2 * s = 2 * t + 1 → s % 2 = 0) :
    Surrounds (p * 0x800000 + s) (t * 2 ^ ((p : ℤ) - 149)) := by
  have hs : s ≤ 0x1000000 := by
    have hlt : (s : ℚ) < (0x1000000 : Nat) + 1 := by push_cast; linarith
    exact Nat.le_of_lt_succ (mod_cast hlt)
  have hsp : 0x800000 ≤ s ∨ p = 0 := hp.imp_left fun hle => by
    have hlt : ((0x800000 : Nat) : ℚ) < s + 1 := by push_cast; linarith
    exact Nat.le_of_lt_succ (mod_cast hlt)
  have hplace : (0 : ℚ) < 2 ^ ((p : ℤ) - 149) := by positivity
  have hvalue := value_place hs hsp
  have hnext := value_place_succ hs hsp
  have habove' := mul_le_mul_of_nonneg_right habove hplace.le
  have hbelow' := mul_le_mul_of_nonneg_right hbelow hplace.le
  -- at the first significand of a place the number is not below the float
  have hlast : ∀ c, c + 1 = p * 0x800000 + s →
      value c = (s - 1) * 2 ^ ((p : ℤ) - 149) ∨
        value c + value (p * 0x800000 + s) < 2 * (t * 2 ^ ((p : ℤ) - 149)) := by
    intro c hc
    refine (value_place_pred hs hsp hc).imp_right fun ⟨hfirst, hpos, hstep⟩ => ?_
    have hst : (s : ℚ) ≤ t := by
      rw [hfirst]
      exact_mod_cast hp.resolve_right hpos
    have hst' := mul_le_mul_of_nonneg_right hst hplace.le
    linarith
  have hparity : s % 2 = 0 → (p * 0x800000 + s) % 2 = 0 := by omega
  refine ⟨by linarith, fun htie => hparity (heven (.inl ?_)), fun c hc => ?_,
    fun c hc htie => hparity (heven (.inr ?_))⟩
  · refine mul_right_cancel₀ hplace.ne' ?_
    linarith
  · rcases hlast c hc with heq | hlt
    · linarith
    · exact hlt.le
  · rcases hlast c hc with heq | hlt
    · refine mul_right_cancel₀ hplace.ne' ?_
      linarith
    · exact absurd htie hlt.ne

/-- A number below half of the least float is rounded down. -/
theorem isNearest_zero {x : ℚ} (hlt : x < 2 ^ (-150 : ℤ)) : IsNearest x 0 := by
  have hone : value 1 = 2 * 2 ^ (-150 : ℤ) := by norm_num [value]
  have hsurrounds : Surrounds 0 x := by
    refine ⟨?_, fun _ => rfl, fun _ hc => ?_, fun _ _ _ => rfl⟩
    · rw [value_zero, hone]
      linarith
    · omega
  exact hsurrounds.isNearest

/-- A ratio counted in units of its last place. -/
theorem ratio_in_place (num den : Nat) (place : ℤ) :
    ((num * twoTo (-place) : Nat) / (den * twoTo place : Nat) : ℚ) =
      num / den * 2 ^ (-place) := by
  have htwo := twoTo_div (-place)
  rw [neg_neg] at htwo
  push_cast
  rw [mul_div_mul_comm, htwo]

theorem isNearest_ofRatio (num : Nat) {den : Nat} (hden : 0 < den) :
    IsNearest (num / den) (ofRatio num den) := by
  simp only [ofRatio]
  split
  next h =>
    rw [h, Nat.cast_zero, zero_div]
    exact isNearest_zero (by positivity)
  next h =>
    obtain ⟨hmin, hlt, hle⟩ := lastPlace_spec (Nat.pos_of_ne_zero h) hden
    set place := lastPlace num den
    obtain ⟨p, hp⟩ := Int.eq_ofNat_of_zero_le (show 0 ≤ place + 149 by omega)
    have hplace : (p : ℤ) - 149 = place := by omega
    have hden' : 0 < den * twoTo place := Nat.mul_pos hden (twoTo_pos place)
    obtain ⟨habove, hbelow, heven⟩ :=
      roundHalfEven_spec hden' (ratio_in_place num den place) rfl
    have hback : (num / den : ℚ) = num / den * 2 ^ (-place) * 2 ^ ((p : ℤ) - 149) := by
      rw [hplace, mul_assoc, ← zpow_add₀ two_ne_zero, neg_add_cancel, zpow_zero, mul_one]
    have hpos : (0 : ℚ) < 2 ^ (-place) := by positivity
    have hscale (k : ℤ) : (2 : ℚ) ^ (place + k) * 2 ^ (-place) = 2 ^ k := by
      rw [← zpow_add₀ two_ne_zero, add_assoc, add_neg_cancel_comm_assoc]
    rw [hp, Int.toNat_natCast, hback]
    refine (surrounds_of_place ?_ ?_ habove hbelow heven).isNearest
    · have hlt' := mul_lt_mul_of_pos_right hlt hpos
      rw [hscale] at hlt'
      exact hlt'.trans_le (by norm_num)
    · refine hle.symm.imp (fun hle => ?_) (fun hlowest => by omega)
      have hle' := mul_le_mul_of_nonneg_right hle hpos.le
      rw [hscale] at hle'
      exact le_trans (by norm_num) hle'

theorem toRat_lt_of_small {d : Decimal}
    (h : d.digits = 0 ∨ 3 * d.exponent + d.digits.log2 + 1 ≤ -150) :
    d.toRat < 2 ^ (-150 : ℤ) := by
  rcases Nat.eq_zero_or_pos d.digits with hzero | hpos
  · rw [Decimal.toRat, hzero, Nat.cast_zero, zero_mul]
    positivity
  · have hsmall := h.resolve_left hpos.ne'
    obtain ⟨k, hk⟩ := Int.eq_ofNat_of_zero_le (show 0 ≤ -d.exponent by omega)
    have hten : (10 : ℚ) ^ d.exponent ≤ 2 ^ (3 * d.exponent) := by
      have hexp : d.exponent = -k := by omega
      rw [hexp, mul_neg, zpow_neg, zpow_neg, zpow_mul, zpow_natCast, zpow_natCast]
      exact inv_anti₀ (by positivity) (pow_le_pow_left₀ (by norm_num) (by norm_num) k)
    calc d.toRat < 2 ^ ((d.digits.log2 : ℤ) + 1) * 2 ^ (3 * d.exponent) :=
          mul_lt_mul (log2_bounds hpos).2 hten (by positivity) (by positivity)
      _ = 2 ^ ((d.digits.log2 : ℤ) + 1 + 3 * d.exponent) := (zpow_add₀ two_ne_zero _ _).symm
      _ ≤ 2 ^ (-150 : ℤ) := zpow_le_zpow_right₀ one_le_two (by omega)

theorem value_infinity_le_of_large {d : Decimal} (hpos : 0 < d.digits) (h : 39 < d.exponent) :
    value infinity ≤ d.toRat := by
  have hdigits : (1 : ℚ) ≤ d.digits := mod_cast hpos
  calc value infinity ≤ 10 ^ (40 : ℤ) := by rw [value_infinity]; norm_num
    _ ≤ 10 ^ d.exponent := zpow_le_zpow_right₀ (by norm_num) (by omega)
    _ ≤ d.toRat := le_mul_of_one_le_left (by positivity) hdigits

theorem isNearest_ofDecimal (d : Decimal) : IsNearest d.toRat (ofDecimal d).toNat := by
  unfold ofDecimal
  split
  next hsmall => exact isNearest_zero (toRat_lt_of_small hsmall)
  split
  next hsmall hlarge =>
    exact isNearest_infinity (value_infinity_le_of_large (by omega) hlarge)
  next =>
    have hratio := isNearest_ofRatio (d.digits * tenTo d.exponent) (tenTo_pos (-d.exponent))
    have hinf : infinity < 2 ^ 32 := by decide
    rw [BitVec.toNat_ofNat, Nat.mod_eq_of_lt (hratio.le_infinity.trans_lt hinf)]
    rwa [Nat.cast_mul, mul_div_assoc, tenTo_div] at hratio

/-- Halfway between two floats, of which the lower one is even. -/
example : ofDecimal ⟨16777217, 0⟩ = 0x4B800000 := by decide +kernel

/-- The bits of a decimal are those of its nearest float, and no others are. -/
theorem isNearest_iff {d : Decimal} {bits : Nat} :
    IsNearest d.toRat bits ↔ bits = (ofDecimal d).toNat := by
  constructor
  · exact fun h => h.unique (isNearest_ofDecimal d)
  · rintro rfl
    exact isNearest_ofDecimal d

end Binary32

end RegisterMachine
