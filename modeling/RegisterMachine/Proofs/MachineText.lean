import RegisterMachine.Trace
import RegisterMachine.Proofs.WordTables

namespace RegisterMachine.Machine

variable {σ τ : Type}

/-- The row of the display, with the registers beside the stack. -/
def row (m : Machine σ) : Row :=
  ⟨⟨.left, m.registers.registerTable.lines⟩, ⟨.left, (m.stack.table 'S' m.depth).lines⟩⟩

theorem holds_first (m : Machine σ) : m.row.first.Holds fun c => IsGlyph c ∧ c ≠ '[' := by
  intro line hline
  exact Table.holds_of_mem_lines (forall_mem_of_all (by decide)) m.registers.holds_registerTable
    hline

theorem holds_second (m : Machine σ) : m.row.second.Holds IsGlyph := by
  intro line hline
  exact Table.holds_of_mem_lines (forall_mem_of_all (by decide))
    (m.stack.holds_stackTable m.depth) hline

theorem holds_row (m : Machine σ) : m.row.Holds IsGlyph :=
  ⟨fun line hline c hc => (m.holds_first line hline c hc).1, m.holds_second⟩

theorem holds_titles (m : Machine σ) {P : Char → Prop} (hregisters : ∀ c ∈ "Registers".toList, P c)
    (hstack : ∀ c ∈ "Stack".toList, P c) : m.table.titles.Holds P :=
  ⟨Cell.holds_ofText hregisters, Cell.holds_ofText hstack⟩

theorem holds_table (m : Machine σ) : m.table.Holds IsGlyph := by
  intro r hr
  rcases List.mem_cons.mp hr with rfl | hr
  · exact m.holds_titles (forall_mem_of_all (by decide)) (forall_mem_of_all (by decide))
  · rw [List.mem_singleton.mp hr]
    exact m.holds_row

def stateText (running : Bool) : String :=
  if running then "Running" else "Halted"

/-- The line above the table. -/
def heading (m : Machine σ) : String :=
  "Counter: " ++ decimal m.counter.toNat ++ "\t" ++ stateText m.running

theorem text_eq (m : Machine σ) : m.text = m.heading ++ "\n" ++ m.table.text :=
  rfl

theorem toList_heading (m : Machine σ) :
    m.heading.toList = "Counter: ".toList ++ ((decimal m.counter.toNat).toList ++
      '\t' :: (stateText m.running).toList) := by
  simp [heading]

theorem not_mem_heading (m : Machine σ) {x : Char} (hx : x ∈ ['\n', '\r', '[']) :
    x ∉ m.heading.toList := by
  have hdigits := forall_mem_decimal (P := (· ∉ ['\n', '\r', '['])) (by decide) m.counter.toNat
  have hstate : ∀ c ∈ (stateText m.running).toList, c ∉ ['\n', '\r', '['] := by
    cases m.running <;> exact forall_mem_of_all (by decide)
  have hall : ∀ c ∈ m.heading.toList, c ∉ ['\n', '\r', '['] := by
    rw [toList_heading, List.forall_mem_append, List.forall_mem_append, List.forall_mem_cons]
    exact ⟨forall_mem_of_all (by decide), hdigits, by decide, hstate⟩
  exact fun hmem => hall x hmem hx

theorem lines_text (m : Machine σ) :
    lines m.text.toList = m.heading.toList :: m.table.lines.map String.toList := by
  have htext : m.text.toList = m.heading.toList ++ '\n' :: m.table.text.toList := by
    simp [text_eq]
  rw [htext, lines_append_feed (m.not_mem_heading (by simp)) (m.not_mem_heading (by simp)),
    Table.lines_text m.holds_table]

end RegisterMachine.Machine
