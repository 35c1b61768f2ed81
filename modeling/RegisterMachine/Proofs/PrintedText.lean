import RegisterMachine.DisplayWidth
import RegisterMachine.Numeral
import RegisterMachine.Proofs.TextLines

namespace RegisterMachine

/-- A character of one column that is no control character. -/
def IsGlyph (c : Char) : Prop :=
  ' '.toNat ≤ c.toNat ∧ charWidth c = 1

instance : DecidablePred IsGlyph := fun _ => inferInstanceAs (Decidable (_ ∧ _))

def IsPrintable (text : List Char) : Prop :=
  ∀ c ∈ text, IsGlyph c

-- The characters of the text are looked at, and not all there are.
instance (text : List Char) : Decidable (IsPrintable text) :=
  decidable_of_iff (text.all fun c => decide (IsGlyph c)) (by simp [IsPrintable])

/-- A property that is checked for one character after the other. -/
theorem forall_mem_of_all {P : Char → Prop} [DecidablePred P] {text : List Char}
    (h : text.all fun c => decide (P c)) : ∀ c ∈ text, P c := by
  simpa using h

namespace IsPrintable

theorem append {before after : List Char} (hbefore : IsPrintable before)
    (hafter : IsPrintable after) : IsPrintable (before ++ after) :=
  List.forall_mem_append.mpr ⟨hbefore, hafter⟩

theorem cons {c : Char} {rest : List Char} (hc : IsGlyph c) (hrest : IsPrintable rest) :
    IsPrintable (c :: rest) :=
  List.forall_mem_cons.mpr ⟨hc, hrest⟩

theorem feed_not_mem {text : List Char} (h : IsPrintable text) : '\n' ∉ text :=
  fun hc => absurd (h _ hc) (by decide)

theorem return_not_mem {text : List Char} (h : IsPrintable text) : '\r' ∉ text :=
  fun hc => absurd (h _ hc) (by decide)

end IsPrintable

theorem dropReturn_eq_self {line : List Char} (h : '\r' ∉ line) : dropReturn line = line :=
  if_neg fun hlast => h (List.mem_of_getLast? hlast)

theorem lines_intercalate {texts : List (List Char)} (h : ∀ t ∈ texts, IsPrintable t)
    (hne : ∀ t ∈ texts, t ≠ []) : lines (['\n'].intercalate texts) = texts := by
  rcases List.eq_nil_or_concat texts with rfl | ⟨initial, last, heq⟩
  · rfl
  · obtain rfl : texts = initial ++ [last] := heq.trans List.concat_eq_append
    have hlast : last ≠ [] := hne last (by simp)
    have hinitial : initial.map dropReturn = initial := by
      refine (List.map_congr_left fun t ht => ?_).trans (List.map_id initial)
      exact dropReturn_eq_self (h t (List.mem_append_left _ ht)).return_not_mem
    have hpieces := List.splitOn_intercalate '\n' (fun t ht => (h t ht).feed_not_mem)
      (List.append_ne_nil_of_right_ne_nil initial (List.cons_ne_nil last []))
    simp only [lines, hpieces, List.dropLast_concat, List.getLast?_concat, hinitial]
    simp [hlast]

/-- The lines of a text that is joined from the lines of its entries. -/
theorem lines_intercalate_map {α : Type} {line : α → String}
    (hprint : ∀ a, IsPrintable (line a).toList) (hne : ∀ a, (line a).toList ≠ [])
    (entries : List α) : lines ("\n".intercalate (entries.map line)).toList =
      entries.map fun a => (line a).toList := by
  rw [String.toList_intercalate, List.map_map]
  apply lines_intercalate
  · intro text htext
    obtain ⟨a, _, rfl⟩ := List.mem_map.mp htext
    exact hprint a
  · intro text htext
    obtain ⟨a, _, rfl⟩ := List.mem_map.mp htext
    exact hne a

theorem lines_append_feed {line : List Char} (hfeed : '\n' ∉ line) (hreturn : '\r' ∉ line)
    (rest : List Char) : lines (line ++ '\n' :: rest) = line :: lines rest := by
  rw [lines_append_cons, List.splitOn_eq_singleton hfeed, List.map_singleton,
    dropReturn_eq_self hreturn, List.singleton_append]

/-- Lines that each end with a line feed are read back, empty ones included. -/
theorem lines_flatMap {texts : List (List Char)} (h : ∀ t ∈ texts, IsPrintable t) :
    lines (texts.flatMap (· ++ ['\n'])) = texts := by
  induction texts with
  | nil => rfl
  | cons first rest ih =>
    obtain ⟨hfirst, hrest⟩ := List.forall_mem_cons.mp h
    rw [List.flatMap_cons, List.append_assoc, List.singleton_append,
      lines_append_feed hfirst.feed_not_mem hfirst.return_not_mem, ih hrest]

theorem forall_mem_toDigits {P : Char → Prop} {b : Nat} (hb : 1 < b)
    (hP : ∀ d < b, P d.digitChar) (n : Nat) : ∀ c ∈ Nat.toDigits b n, P c := by
  induction n using Nat.strongRecOn with
  | ind n ih =>
    intro c hc
    rw [Nat.toDigits_eq_if hb] at hc
    split at hc
    next hn =>
      rw [List.mem_singleton.mp hc]
      exact hP n hn
    next hn =>
      rcases List.mem_append.mp hc with hc | hc
      · exact ih (n / b) (Nat.div_lt_self (by omega) hb) c hc
      · rw [List.mem_singleton.mp hc]
        exact hP (n % b) (Nat.mod_lt n (by omega))

theorem forall_mem_decimal {P : Char → Prop} (hP : ∀ d < 10, P d.digitChar) (n : Nat) :
    ∀ c ∈ (decimal n).toList, P c := by
  rw [toList_decimal]
  exact forall_mem_toDigits (by decide) hP n

theorem forall_mem_hex {P : Char → Prop} (hx : P 'x') (hP : ∀ d < 16, P d.digitChar) (n : Nat) :
    ∀ c ∈ (hex n).toList, P c := by
  rw [toList_hex, List.forall_mem_cons, List.forall_mem_cons]
  exact ⟨hP 0 (by decide), hx, forall_mem_toDigits (by decide) hP n⟩

theorem isPrintable_decimal (n : Nat) : IsPrintable (decimal n).toList :=
  forall_mem_decimal (by decide) n

theorem isPrintable_hex (n : Nat) : IsPrintable (hex n).toList :=
  forall_mem_hex (by decide) (by decide) n

theorem isPrintable_hexWide (width n : Nat) : IsPrintable (hexWide width n).toList := by
  have hzeros : ∀ k, IsPrintable (List.replicate k '0') := by
    intro k c hc
    rw [List.eq_of_mem_replicate hc]
    decide
  have hdigits : IsPrintable (Nat.toDigits 16 n) := forall_mem_toDigits (by decide) (by decide) n
  simp only [hexWide, List.leftpad, String.toList_append, String.toList_ofList]
  exact .append (by decide) ((hzeros _).append hdigits)

def hexDigitValue (c : Char) : Nat :=
  if c.isDigit then c.toNat - '0'.toNat else 10 + (c.toNat - 'a'.toNat)

/-- The value of hexadecimal digits behind others of the value `high`. -/
def hexValue (high : Nat) (digits : List Char) : Nat :=
  digits.foldl (fun value c => 16 * value + hexDigitValue c) high

theorem hexDigitValue_digitChar : ∀ d < 16, hexDigitValue d.digitChar = d := by
  decide

theorem hexValue_toDigits (n : Nat) : hexValue 0 (Nat.toDigits 16 n) = n := by
  induction n using Nat.strongRecOn with
  | ind n ih =>
    rw [Nat.toDigits_eq_if (by decide)]
    split
    next hn => simp [hexValue, hexDigitValue_digitChar n hn]
    next hn =>
      have hhigh := ih (n / 16) (Nat.div_lt_self (by omega) (by decide))
      have hlow := hexDigitValue_digitChar (n % 16) (Nat.mod_lt n (by decide))
      rw [hexValue] at hhigh ⊢
      rw [List.foldl_append, hhigh, List.foldl_cons, List.foldl_nil, hlow, Nat.div_add_mod]

/-- Zeros in front do not change the value. -/
theorem hexValue_replicate_append (k : Nat) (digits : List Char) :
    hexValue 0 (List.replicate k '0' ++ digits) = hexValue 0 digits := by
  induction k with
  | zero => rfl
  | succ k ih => exact ih

theorem zipIdx_map_inj {α β : Type} {f : α × Nat → β}
    (hf : ∀ a b k, f (a, k) = f (b, k) → a = b) {xs ys : List α}
    (h : xs.zipIdx.map f = ys.zipIdx.map f) : xs = ys := by
  apply List.ext_getElem?
  intro k
  have hk := congrArg (fun list => list[k]?) h
  simp only [List.getElem?_map, List.getElem?_zipIdx, Option.map_map, Nat.zero_add] at hk
  exact Option.map_injective (fun a b => hf a b k) hk

theorem hex_inj {m n : Nat} (h : hex m = hex n) : m = n := by
  have hdigits := congrArg String.toList h
  rw [toList_hex, toList_hex, List.cons.injEq, List.cons.injEq] at hdigits
  rw [← hexValue_toDigits m, hdigits.2.2, hexValue_toDigits]

theorem hexWide_inj {width m n : Nat} (h : hexWide width m = hexWide width n) : m = n := by
  have hdigits := congrArg (fun text => hexValue 0 (text.toList.drop 2)) h
  simpa [hexWide, List.leftpad, hexValue_replicate_append, hexValue_toDigits] using hdigits

end RegisterMachine
