import RegisterMachine.Text
import Mathlib.Data.List.TakeWhile

namespace RegisterMachine

theorem trim_append_left {blanks : List Char} (hb : ∀ c ∈ blanks, isBlank c) (text : List Char) :
    trim (blanks ++ text) = trim text := by
  rw [trim, trimLeft, List.dropWhile_append_of_pos hb]
  rfl

theorem trimRight_eq_nil_iff {text : List Char} :
    trimRight text = [] ↔ ∀ c ∈ text, isBlank c := by
  simp [trimRight]

theorem trimRight_append (before after : List Char) :
    trimRight (before ++ after) =
      if trimRight after = [] then trimRight before else before ++ trimRight after := by
  simp only [trimRight, List.reverse_append, List.dropWhile_append, List.isEmpty_iff,
    List.reverse_eq_nil_iff]
  split
  next => rfl
  next => rw [List.reverse_append, List.reverse_reverse]

/-- A text is what remains of it and the blanks behind. -/
theorem exists_trimRight_append (text : List Char) :
    ∃ blanks, (∀ c ∈ blanks, isBlank c) ∧ trimRight text ++ blanks = text := by
  refine ⟨(text.reverse.takeWhile isBlank).reverse, fun c hc => ?_, ?_⟩
  · exact List.mem_takeWhile_imp (List.mem_reverse.mp hc)
  · rw [trimRight, ← List.reverse_append, List.takeWhile_append_dropWhile, List.reverse_reverse]

theorem getLast?_trimRight_append (before after : List Char) :
    (trimRight (before ++ after)).getLast? =
      (trimRight after).getLast?.or (trimRight before).getLast? := by
  rw [trimRight_append]
  split
  next h => simp [h]
  next h =>
    obtain ⟨c, hc⟩ := Option.ne_none_iff_exists'.mp (mt List.getLast?_eq_none_iff.mp h)
    rw [List.getLast?_append, hc, Option.some_or, Option.some_or]

theorem trim_append_right {blanks : List Char} (hb : ∀ c ∈ blanks, isBlank c)
    (text : List Char) : trim (text ++ blanks) = trim text := by
  have hblanks : trimRight blanks = [] := trimRight_eq_nil_iff.mpr hb
  unfold trim trimLeft
  rw [List.dropWhile_append]
  split
  next h => rw [List.isEmpty_iff.mp h, List.dropWhile_eq_nil_iff.mpr hb]
  next => rw [trimRight_append, if_pos hblanks]

theorem dropWhile_isBlank_eq_self {text : List Char}
    (hhead : ∀ c, text.head? = some c → ¬isBlank c) : text.dropWhile isBlank = text := by
  cases text with
  | nil => rfl
  | cons c rest => exact List.dropWhile_cons_of_neg (hhead c rfl)

theorem trimRight_eq_self {text : List Char} (hlast : ∀ c, text.getLast? = some c → ¬isBlank c) :
    trimRight text = text := by
  rw [trimRight, dropWhile_isBlank_eq_self (by simpa using hlast), List.reverse_reverse]

theorem trim_eq_self {text : List Char} (hhead : ∀ c, text.head? = some c → ¬isBlank c)
    (hlast : ∀ c, text.getLast? = some c → ¬isBlank c) : trim text = text := by
  rw [trim, trimLeft, dropWhile_isBlank_eq_self hhead, trimRight_eq_self hlast]

theorem trim_head_not_isBlank {text : List Char} {c : Char} (h : (trim text).head? = some c) :
    ¬isBlank c := by
  obtain ⟨blanks, _, happend⟩ := exists_trimRight_append (trimLeft text)
  have hhead : (text.dropWhile isBlank).head? = some c := by
    rw [← trimLeft, ← happend, List.head?_append, ← trim, h, Option.some_or]
  have hnot := List.head?_dropWhile_not isBlank text
  simpa [hhead] using hnot

theorem trim_last_not_isBlank {text : List Char} {c : Char} (h : (trim text).getLast? = some c) :
    ¬isBlank c := by
  rw [trim, trimRight, List.getLast?_reverse] at h
  have hnot := List.head?_dropWhile_not isBlank (trimLeft text).reverse
  simpa [h] using hnot

theorem trim_trim (text : List Char) : trim (trim text) = trim text :=
  trim_eq_self (fun _ => trim_head_not_isBlank) fun _ => trim_last_not_isBlank

theorem trim_eq_self_of_forall {text : List Char} (h : ∀ c ∈ text, ¬isBlank c) :
    trim text = text :=
  trim_eq_self (fun c hc => h c (List.mem_of_mem_head? hc)) fun c hc =>
    h c (List.mem_of_getLast? hc)

theorem trim_reference {name : List Char} (hblank : ∀ c, name.getLast? = some c → ¬isBlank c) :
    trim ('@' :: name) = '@' :: name := by
  apply trim_eq_self
  · rintro c hc
    cases Option.some.inj hc
    decide
  · intro c hc
    rw [List.getLast?_cons, Option.some.injEq] at hc
    cases hlast : name.getLast? with
    | none =>
      rw [hlast] at hc
      subst hc
      decide
    | some x =>
      rw [hlast] at hc
      subst hc
      exact hblank x hlast

theorem trim_dropReturn (line : List Char) : trim (dropReturn line) = trim line := by
  unfold dropReturn
  split
  next h =>
    obtain ⟨rest, rfl⟩ := List.getLast?_eq_some_iff.mp h
    rw [List.dropLast_concat, trim_append_right (List.forall_mem_singleton.mpr rfl)]
  next => rfl

theorem exists_splitOn_eq_concat (sep : Char) (text : List Char) :
    ∃ initial last, text.splitOn sep = initial ++ [last] := by
  obtain ⟨initial, last, h⟩ :=
    (List.eq_nil_or_concat (text.splitOn sep)).resolve_left (List.splitOn_ne_nil _ _)
  exact ⟨initial, last, by rw [h, List.concat_eq_append]⟩

/-- A line feed ends the line before it, so that the lines of what follows come after. -/
theorem lines_append_cons (before after : List Char) :
    lines (before ++ '\n' :: after) = (before.splitOn '\n').map dropReturn ++ lines after := by
  obtain ⟨initial, last, hlast⟩ := exists_splitOn_eq_concat '\n' after
  simp only [lines, List.splitOn_append_cons_self, hlast, ← List.append_assoc,
    List.dropLast_concat, List.getLast?_concat, List.map_append]

theorem lines_of_not_mem {text : List Char} (h : '\n' ∉ text) (hne : text ≠ []) :
    lines text = [text] := by
  simp [lines, List.splitOn_eq_singleton h, hne]

/-- The pieces between line feeds are the lines, with an empty one more if the last is empty. -/
theorem map_trim_splitOn (text : List Char) :
    ∃ blank, (blank = [] ∨ blank = [[]]) ∧
      (text.splitOn '\n').map trim = (lines text).map trim ++ blank := by
  obtain ⟨initial, last, hlast⟩ := exists_splitOn_eq_concat '\n' text
  have hinitial : (initial.map dropReturn).map trim = initial.map trim := by
    simp [trim_dropReturn]
  simp only [lines, hlast, List.dropLast_concat, List.getLast?_concat, Option.toList_some,
    List.map_append, hinitial]
  by_cases h : last = []
  · exact ⟨[[]], .inr rfl, by simp [h, show trim [] = [] from rfl]⟩
  · exact ⟨[], .inl rfl, by simp [h]⟩

/-- Empty lines apart, the pieces between line feeds are the lines. -/
theorem filter_map_trim_splitOn {p : List Char → Bool} (hp : ¬p []) (text : List Char) :
    ((text.splitOn '\n').map trim).filter p = ((lines text).map trim).filter p := by
  obtain ⟨blank, hblank, hpieces⟩ := map_trim_splitOn text
  rw [hpieces, List.filter_append]
  rcases hblank with rfl | rfl
  · simp
  · simp [hp]

theorem length_splitOn (sep : Char) (text : List Char) :
    (text.splitOn sep).length = text.count sep + 1 := by
  induction text with
  | nil => simp
  | cons c rest ih =>
    rw [List.splitOn_cons_eq_if_modifyHead]
    by_cases hc : c = sep
    · simp [hc, ih]
    · simp [hc, ih]

theorem not_mem_of_mem_splitOn {sep : Char} {text piece : List Char}
    (h : piece ∈ text.splitOn sep) : sep ∉ piece := by
  induction text generalizing piece with
  | nil => simp_all
  | cons c rest ih =>
    rw [List.splitOn_cons_eq_if_modifyHead] at h
    split at h
    next =>
      rcases List.mem_cons.mp h with rfl | h
      · simp
      · exact ih h
    next hc =>
      obtain ⟨first, others, heq⟩ := List.exists_cons_of_ne_nil (List.splitOn_ne_nil sep rest)
      rw [heq, List.modifyHead_cons] at h
      rw [heq] at ih
      rcases List.mem_cons.mp h with rfl | h
      · have hfirst := ih List.mem_cons_self
        have hne : sep ≠ c := fun hsep => hc (by simp [hsep])
        simp [hne, hfirst]
      · exact ih (List.mem_cons_of_mem _ h)

theorem mem_of_mem_intercalate {c : Char} {sep : List Char} {pieces : List (List Char)}
    (h : c ∈ sep.intercalate pieces) : c ∈ sep ∨ ∃ piece ∈ pieces, c ∈ piece := by
  induction pieces with
  | nil => simp at h
  | cons first rest ih =>
    cases rest with
    | nil => exact .inr ⟨first, List.mem_cons_self, by simpa using h⟩
    | cons second rest =>
      rw [List.intercalate_cons_cons, List.append_assoc, List.mem_append, List.mem_append] at h
      rcases h with h | h | h
      · exact .inr ⟨first, List.mem_cons_self, h⟩
      · exact .inl h
      · exact (ih h).imp_right fun ⟨piece, hpiece, hc⟩ =>
          ⟨piece, List.mem_cons_of_mem _ hpiece, hc⟩

theorem mem_intercalate_of_mem {c : Char} {sep piece : List Char} {pieces : List (List Char)}
    (hpiece : piece ∈ pieces) (hc : c ∈ piece) : c ∈ sep.intercalate pieces := by
  induction pieces with
  | nil => cases hpiece
  | cons first rest ih =>
    cases rest with
    | nil => simp_all
    | cons second rest =>
      rw [List.intercalate_cons_cons]
      rcases List.mem_cons.mp hpiece with rfl | hpiece
      · simp [hc]
      · exact List.mem_append_right _ (ih hpiece)

theorem mem_of_mem_splitOn {c sep : Char} {text piece : List Char}
    (hpiece : piece ∈ text.splitOn sep) (hc : c ∈ piece) : c ∈ text := by
  have hmem : c ∈ [sep].intercalate (text.splitOn sep) := mem_intercalate_of_mem hpiece hc
  rwa [List.intercalate_splitOn] at hmem

/-- Blanks before a text do not matter to the pieces between separators without outer blanks. -/
theorem map_trim_splitOn_append_left {sep : Char} (hsep : ¬isBlank sep) {blanks : List Char}
    (hb : ∀ c ∈ blanks, isBlank c) (text : List Char) :
    ((blanks ++ text).splitOn sep).map trim = (text.splitOn sep).map trim := by
  have hfree : sep ∉ blanks := fun h => hsep (hb sep h)
  by_cases h : sep ∈ text
  · obtain ⟨before, after, rfl, hbefore⟩ := List.eq_append_cons_of_mem h
    rw [← List.append_assoc, List.splitOn_append_cons_self, List.splitOn_append_cons_self,
      List.splitOn_eq_singleton (by simp [hfree, hbefore]), List.splitOn_eq_singleton hbefore]
    simp [trim_append_left hb]
  · rw [List.splitOn_eq_singleton (by simp [hfree, h]), List.splitOn_eq_singleton h]
    simp [trim_append_left hb]

theorem map_trim_splitOn_append_right {sep : Char} (hsep : ¬isBlank sep) {blanks : List Char}
    (hb : ∀ c ∈ blanks, isBlank c) (text : List Char) :
    ((text ++ blanks).splitOn sep).map trim = (text.splitOn sep).map trim := by
  have hfree : sep ∉ blanks := fun h => hsep (hb sep h)
  by_cases h : sep ∈ text
  · -- The separator that matters here is the last one.
    obtain ⟨after, before, heq, hafter⟩ := List.eq_append_cons_of_mem (List.mem_reverse.mpr h)
    obtain rfl : text = before.reverse ++ sep :: after.reverse := by
      simpa using congrArg List.reverse heq
    have hlast : sep ∉ after.reverse := by simpa using hafter
    have hlonger : sep ∉ after.reverse ++ blanks := by simp [hafter, hfree]
    rw [List.append_assoc, List.cons_append, List.splitOn_append_cons_self,
      List.splitOn_append_cons_self, List.splitOn_eq_singleton hlonger,
      List.splitOn_eq_singleton hlast]
    simp [trim_append_right hb]
  · rw [List.splitOn_eq_singleton (by simp [hfree, h]), List.splitOn_eq_singleton h]
    simp [trim_append_right hb]

/-- Texts without line feeds and outer blanks, none of them empty, are read back from their join. -/
theorem map_trim_lines_intercalate {texts : List (List Char)} (hfeed : ∀ t ∈ texts, '\n' ∉ t)
    (hne : ∀ t ∈ texts, t ≠ []) (htrim : ∀ t ∈ texts, trim t = t) :
    (lines (['\n'].intercalate texts)).map trim = texts := by
  by_cases hempty : texts = []
  · subst hempty
    rfl
  · obtain ⟨blank, hblank, hpieces⟩ := map_trim_splitOn (['\n'].intercalate texts)
    rw [List.splitOn_intercalate '\n' hfeed hempty, List.map_congr_left htrim,
      List.map_id'] at hpieces
    rcases hblank with rfl | rfl
    · rw [List.append_nil] at hpieces
      exact hpieces.symm
    · exact absurd rfl (hne [] (hpieces ▸ List.mem_append_right _ List.mem_cons_self))

theorem mem_of_mem_trim {c : Char} {text : List Char} (h : c ∈ trim text) : c ∈ text := by
  have hright := List.dropWhile_subset _ (List.mem_reverse.mp h)
  exact List.dropWhile_subset _ (List.mem_reverse.mp hright)

theorem mem_of_mem_dropReturn {c : Char} {line : List Char} (h : c ∈ dropReturn line) :
    c ∈ line := by
  unfold dropReturn at h
  split at h
  next => exact (List.dropLast_subset _) h
  next => exact h

theorem mem_of_mem_lines {c : Char} {line text : List Char} (h : line ∈ lines text)
    (hc : c ∈ line) : c ∈ text := by
  simp only [lines, List.mem_append, List.mem_map, List.mem_filter] at h
  rcases h with ⟨piece, hpiece, rfl⟩ | ⟨hlast, _⟩
  · exact mem_of_mem_splitOn (List.dropLast_subset _ hpiece) (mem_of_mem_dropReturn hc)
  · exact mem_of_mem_splitOn (List.mem_of_getLast? (Option.mem_toList.mp hlast)) hc

theorem not_mem_of_mem_lines {line text : List Char} (h : line ∈ lines text) : '\n' ∉ line := by
  simp only [lines, List.mem_append, List.mem_map, List.mem_filter] at h
  rcases h with ⟨piece, hpiece, rfl⟩ | ⟨hlast, _⟩
  · exact fun hc =>
      not_mem_of_mem_splitOn (List.dropLast_subset _ hpiece) (mem_of_mem_dropReturn hc)
  · exact not_mem_of_mem_splitOn (List.mem_of_getLast? (Option.mem_toList.mp hlast))

end RegisterMachine
