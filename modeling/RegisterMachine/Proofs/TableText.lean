import RegisterMachine.Table
import RegisterMachine.Proofs.PrintedText
import Mathlib.Data.List.Basic

namespace RegisterMachine

/-- A text of one printable line with no blank at either end. -/
structure IsEntry (text : String) : Prop where
  printable : IsPrintable text.toList
  ne_nil : text.toList ≠ []
  head : ∀ c, text.toList.head? = some c → ¬isBlank c
  last : ∀ c, text.toList.getLast? = some c → ¬isBlank c

theorem isEntry_of_forall {text : String} (hne : text.toList ≠ [])
    (h : ∀ c ∈ text.toList, IsGlyph c ∧ ¬isBlank c) : IsEntry text where
  printable c hc := (h c hc).1
  ne_nil := hne
  head c hc := (h c (List.mem_of_mem_head? hc)).2
  last c hc := (h c (List.mem_of_getLast? hc)).2

/-- The characters that a table adds to those of its cells. -/
def Table.frame : List Char := [' ', '│', '─', '┼', '┴']

namespace Cell

/-- All characters of the cell have a property. -/
def Holds (P : Char → Prop) (c : Cell) : Prop :=
  ∀ line ∈ c.lines, ∀ x ∈ line.toList, P x

theorem holds_ofText {P : Char → Prop} {align : Align} {text : String}
    (hP : ∀ x ∈ text.toList, P x) : (ofText align text).Holds P := by
  intro line hline x hx
  obtain ⟨piece, hpiece, rfl⟩ := List.mem_map.mp hline
  rw [String.toList_ofList] at hx
  exact hP x (mem_of_mem_lines hpiece hx)

variable {c : Cell} {line : String} {width height : Nat}

/-- The blanks that fill a line stand on one side of it. -/
theorem toList_padded (c : Cell) (width : Nat) (line : String) :
    (c.padded width line).toList =
        line.toList ++ List.replicate (width - displayWidth line) ' ' ∨
      (c.padded width line).toList =
        List.replicate (width - displayWidth line) ' ' ++ line.toList := by
  unfold padded
  cases c.align with
  | left => exact .inl (by simp)
  | right => exact .inr (by simp)

theorem mem_padded {x : Char} (h : x ∈ (c.padded width line).toList) :
    x = ' ' ∨ x ∈ line.toList := by
  rcases c.toList_padded width line with heq | heq
  · rw [heq, List.mem_append] at h
    exact h.symm.imp_left List.eq_of_mem_replicate
  · rw [heq, List.mem_append] at h
    exact h.imp_left List.eq_of_mem_replicate

/-- Every filled line comes from a line of the cell or from none. -/
theorem exists_of_mem_paddedLines (h : line ∈ c.paddedLines width height) :
    ∃ source, (source ∈ c.lines ∨ source = "") ∧ line = c.padded width source := by
  obtain ⟨source, hsource, rfl⟩ := List.mem_map.mp h
  refine ⟨source, ?_, rfl⟩
  rw [List.rightpad, List.mem_append] at hsource
  exact hsource.imp_right List.eq_of_mem_replicate

theorem holds_of_mem_paddedLines {P : Char → Prop} (hblank : P ' ') (hc : c.Holds P)
    (h : line ∈ c.paddedLines width height) : ∀ x ∈ line.toList, P x := by
  obtain ⟨source, hsource, rfl⟩ := exists_of_mem_paddedLines h
  intro x hx
  rcases mem_padded hx with rfl | hx
  · exact hblank
  · rcases hsource with hsource | rfl
    · exact hc source hsource x hx
    · cases hx

end Cell

namespace Row

def Holds (P : Char → Prop) (r : Row) : Prop :=
  r.first.Holds P ∧ r.second.Holds P

/-- Two filled lines side by side. -/
def joined (a b : String) : String :=
  "  " ++ a ++ " │ " ++ b ++ "  "

theorem lines_eq (r : Row) (width₁ width₂ : Nat) :
    r.lines width₁ width₂ = List.zipWith joined (r.first.paddedLines width₁ r.height)
      (r.second.paddedLines width₂ r.height) :=
  rfl

theorem toList_joined (a b : String) :
    (joined a b).toList =
      [' ', ' '] ++ (a.toList ++ ([' ', '│', ' '] ++ (b.toList ++ [' ', ' ']))) := by
  simp [joined]

variable {r r' : Row} {width₁ width₂ width₂' : Nat}

theorem exists_of_mem_lines {line : String} (h : line ∈ r.lines width₁ width₂) :
    ∃ a ∈ r.first.paddedLines width₁ r.height, ∃ b ∈ r.second.paddedLines width₂ r.height,
      line = joined a b := by
  rw [lines_eq, ← List.map_uncurry_zip_eq_zipWith] at h
  obtain ⟨⟨a, b⟩, hmem, rfl⟩ := List.mem_map.mp h
  exact ⟨a, (List.of_mem_zip hmem).1, b, (List.of_mem_zip hmem).2, rfl⟩

theorem holds_of_mem_lines {P : Char → Prop} (hframe : ∀ x ∈ Table.frame, P x) (hr : r.Holds P)
    {line : String} (h : line ∈ r.lines width₁ width₂) : ∀ x ∈ line.toList, P x := by
  obtain ⟨a, ha, b, hb, rfl⟩ := exists_of_mem_lines h
  have hblank : P ' ' := hframe _ (by decide)
  have hends : ∀ x ∈ [' ', ' '], P x := by simpa using hblank
  have hbar : ∀ x ∈ [' ', '│', ' '], P x := by simpa [hblank] using hframe _ (by decide)
  have hfirst := Cell.holds_of_mem_paddedLines hblank hr.1 ha
  have hsecond := Cell.holds_of_mem_paddedLines hblank hr.2 hb
  simp only [toList_joined, List.forall_mem_append]
  exact ⟨hends, hfirst, hbar, hsecond, hends⟩

section

variable {label text : String} (hlabel : IsEntry label) (htext : IsEntry text)
include hlabel htext

end

end Row

namespace Table

variable {t u : Table}

def Holds (P : Char → Prop) (t : Table) : Prop :=
  ∀ r ∈ t.titles :: t.rows, r.Holds P

theorem toList_rule (width₁ width₂ : Nat) (junction : String) :
    (rule width₁ width₂ junction).toList =
      ' ' :: (List.replicate (width₁ + 2) '─' ++ (junction.toList ++
        (List.replicate (width₂ + 2) '─' ++ [' ']))) := by
  simp [rule]

/-- The lines of the rows, between the two rules. -/
def rowLines (t : Table) : List String :=
  t.rows.flatMap (·.lines (t.columnWidth Row.first) (t.columnWidth Row.second))

/-- The rule across the table with `junction` between its columns. -/
def ruleWith (t : Table) (junction : String) : String :=
  rule (t.columnWidth Row.first) (t.columnWidth Row.second) junction

theorem lines_eq (t : Table) :
    t.lines = t.titles.lines (t.columnWidth Row.first) (t.columnWidth Row.second) ++
      t.ruleWith "┼" :: (t.rowLines ++ [t.ruleWith "┴"]) :=
  rfl

/-- A line of a table is one of a row or a rule. -/
theorem mem_lines_cases {line : String} (h : line ∈ t.lines) :
    (∃ r ∈ t.titles :: t.rows,
      line ∈ r.lines (t.columnWidth Row.first) (t.columnWidth Row.second)) ∨
    ∃ junction ∈ ["┼", "┴"], line = t.ruleWith junction := by
  rw [lines_eq, List.mem_append, List.mem_cons, List.mem_append, List.mem_singleton] at h
  rcases h with h | h | h | h
  · exact .inl ⟨t.titles, List.mem_cons_self, h⟩
  · exact .inr ⟨"┼", by simp, h⟩
  · obtain ⟨r, hr, hline⟩ := List.mem_flatMap.mp h
    exact .inl ⟨r, List.mem_cons_of_mem _ hr, hline⟩
  · exact .inr ⟨"┴", by simp, h⟩

theorem mem_ruleWith {junction : String} (hjunction : junction ∈ ["┼", "┴"]) {x : Char}
    (hx : x ∈ (t.ruleWith junction).toList) : x ∈ frame := by
  have hsmall : ∀ y ∈ junction.toList, y ∈ frame := by
    rcases List.mem_pair.mp hjunction with rfl | rfl
    · exact forall_mem_of_all (by decide)
    · exact forall_mem_of_all (by decide)
  simp only [ruleWith, toList_rule, List.mem_cons, List.mem_append, List.mem_replicate,
    List.not_mem_nil, or_false] at hx
  rcases hx with rfl | ⟨_, rfl⟩ | hx | ⟨_, rfl⟩ | rfl
  · decide
  · decide
  · exact hsmall x hx
  · decide
  · decide

theorem holds_of_mem_lines {P : Char → Prop} (hframe : ∀ x ∈ frame, P x) (ht : t.Holds P)
    {line : String} (h : line ∈ t.lines) : ∀ x ∈ line.toList, P x := by
  rcases mem_lines_cases h with ⟨r, hr, hline⟩ | ⟨junction, hjunction, rfl⟩
  · exact Row.holds_of_mem_lines hframe (ht r hr) hline
  · intro x hx
    exact hframe x (mem_ruleWith hjunction hx)

theorem toList_text (t : Table) :
    t.text.toList = (t.lines.map String.toList).flatMap (· ++ ['\n']) := by
  simp [text, String.toList_join, List.flatMap_map]

/-- The lines of a printable table are read back from its text. -/
theorem lines_text (ht : t.Holds IsGlyph) :
    RegisterMachine.lines t.text.toList = t.lines.map String.toList := by
  rw [toList_text]
  apply lines_flatMap
  intro line hline
  obtain ⟨source, hsource, rfl⟩ := List.mem_map.mp hline
  exact holds_of_mem_lines (forall_mem_of_all (by decide)) ht hsource

end Table

end RegisterMachine
