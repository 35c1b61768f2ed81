import RegisterMachine.SpaceTable
import RegisterMachine.Proofs.SpaceText
import RegisterMachine.Proofs.TableText

namespace RegisterMachine

namespace Table

/-- A table of words in order, labelled by their indices. -/
def ofWords (heading : String) (label : Nat → String) (words : List Word) : Table where
  titles := ⟨.right heading, .left "Contents"⟩
  rows := words.zipIdx.map fun (w, index) => ⟨.right (label index), .left w.text⟩

end Table

namespace Space

def addressLabel (label : Char) (index : Nat) : String :=
  String.singleton label ++ "[" ++ decimal index ++ "] ="

theorem table_eq (s : Space) (label : Char) (count : Nat) :
    s.table label count = .ofWords "Address" (addressLabel label) (s.words.toList.take count) :=
  rfl

theorem registerTable_eq (s : Space) :
    s.registerTable = .ofWords "Register" (fun index => registerLabel index ++ " =")
      s.words.toList :=
  rfl

end Space

/-- What a table has for a word: an entry with an equals sign behind it. -/
theorem IsEntry.equals {text : String} (h : IsEntry text) : IsEntry (text ++ " =") where
  printable := by
    rw [String.toList_append]
    exact h.printable.append (by decide)
  ne_nil := by simp
  head := by
    rw [String.toList_append, List.head?_append_of_ne_nil _ h.ne_nil]
    exact h.head
  last := by
    intro c hc
    obtain rfl : '=' = c := by simpa using hc
    decide

theorem Word.isEntry_text (w : Word) : IsEntry w.text :=
  isEntry_of_forall (by simp [Word.text]) (forall_mem_hex (by decide) (by decide) _)

namespace Space

theorem isEntry_addressLabel (index : Nat) : IsEntry (addressLabel 'S' index) := by
  have heq : addressLabel 'S' index = "S[" ++ decimal index ++ "]" ++ " =" := by
    simp [addressLabel, ← String.toList_inj]
  rw [heq]
  refine IsEntry.equals (isEntry_of_forall (by simp) ?_)
  simp only [String.toList_append, List.forall_mem_append]
  exact ⟨⟨forall_mem_of_all (by decide), forall_mem_decimal (by decide) index⟩,
    forall_mem_of_all (by decide)⟩

theorem forall_mem_registerLabel {P : Char → Prop} (hdollar : P '$')
    (hdigit : ∀ d < 10, P d.digitChar) (hname : ∀ r : Register, ∀ c ∈ r.name.toList, P c)
    (index : Nat) : ∀ c ∈ (registerLabel index).toList, P c := by
  unfold registerLabel
  split
  next r _ => exact hname r
  next =>
    rw [String.toList_append, List.forall_mem_append]
    exact ⟨List.forall_mem_singleton.mpr hdollar, forall_mem_decimal hdigit index⟩

end Space

namespace Table

variable {heading : String} {label : Nat → String}

theorem holds_ofWords {P : Char → Prop} (hheading : ∀ c ∈ heading.toList, P c)
    (hcontents : ∀ c ∈ "Contents".toList, P c) (hlabel : ∀ index, ∀ c ∈ (label index).toList, P c)
    (hword : ∀ w : Word, ∀ c ∈ w.text.toList, P c) (words : List Word) :
    (ofWords heading label words).Holds P := by
  intro r hr
  rcases List.mem_cons.mp hr with rfl | hr
  · exact ⟨Cell.holds_ofText hheading, Cell.holds_ofText hcontents⟩
  · obtain ⟨⟨w, index⟩, _, rfl⟩ := List.mem_map.mp hr
    exact ⟨Cell.holds_ofText (hlabel index), Cell.holds_ofText (hword w)⟩

end Table

namespace Space

theorem holds_registerTable (s : Space) :
    s.registerTable.Holds fun c => IsGlyph c ∧ c ≠ '[' := by
  have hlabel : ∀ index, ∀ c ∈ (registerLabel index ++ " =").toList, IsGlyph c ∧ c ≠ '[' := by
    intro index
    rw [String.toList_append, List.forall_mem_append]
    refine ⟨forall_mem_registerLabel (by decide) (by decide) ?_ index,
      forall_mem_of_all (by decide)⟩
    intro r
    cases r <;> exact forall_mem_of_all (by decide)
  rw [registerTable_eq]
  exact Table.holds_ofWords (forall_mem_of_all (by decide)) (forall_mem_of_all (by decide)) hlabel
    (fun w => forall_mem_hex (by decide) (by decide) _) _

theorem holds_stackTable (s : Space) (count : Nat) : (s.table 'S' count).Holds IsGlyph := by
  rw [table_eq]
  exact Table.holds_ofWords (forall_mem_of_all (by decide)) (forall_mem_of_all (by decide))
    (fun index => (isEntry_addressLabel index).printable) (fun w => w.isEntry_text.printable) _

end Space

end RegisterMachine
