import RegisterMachine.AssociationList
import RegisterMachine.Listing
import RegisterMachine.Proofs.TextLines

namespace RegisterMachine

/-- A line that is neither empty nor a comment and ends with a colon. -/
def IsLabel (text : List Char) : Prop :=
  text ≠ [] ∧ text.head? ≠ some '#' ∧ text.getLast? = some ':'

def IsOperation (text : List Char) : Prop :=
  text ≠ [] ∧ text.head? ≠ some '#' ∧ text.getLast? ≠ some ':'

instance : DecidablePred IsLabel := fun _ => inferInstanceAs (Decidable (_ ∧ _ ∧ _))

instance : DecidablePred IsOperation := fun _ => inferInstanceAs (Decidable (_ ∧ _ ∧ _))

/-- The label `name` stands behind `k` operations. -/
def LabelledAt (texts : List (List Char)) (name : List Char) (k : Nat) : Prop :=
  ∃ before after, texts = before ++ (name ++ [':']) :: after ∧ IsLabel (name ++ [':']) ∧
    before.countP (IsOperation ·) = k

theorem labelledAt_cons {text : List Char} {texts : List (List Char)} {name : List Char}
    {k : Nat} :
    LabelledAt (text :: texts) name k ↔ text = name ++ [':'] ∧ IsLabel text ∧ k = 0 ∨
      ∃ n, LabelledAt texts name n ∧ k = n + if IsOperation text then 1 else 0 := by
  constructor
  · rintro ⟨before, after, heq, hlabel, rfl⟩
    rcases List.cons_eq_append_iff.mp heq with ⟨rfl, h⟩ | ⟨rest, rfl, rfl⟩
    · obtain ⟨rfl, _⟩ := List.cons.inj h
      exact .inl ⟨rfl, hlabel, rfl⟩
    · refine .inr ⟨_, ⟨rest, after, rfl, hlabel, rfl⟩, ?_⟩
      simp [List.countP_cons]
  · rintro (⟨rfl, hlabel, rfl⟩ | ⟨n, ⟨before, after, rfl, hlabel, rfl⟩, rfl⟩)
    · exact ⟨[], texts, rfl, hlabel, rfl⟩
    · exact ⟨text :: before, after, rfl, hlabel, by simp [List.countP_cons]⟩

@[simp]
theorem not_isLabel_nil : ¬IsLabel [] :=
  fun h => h.1 rfl

@[simp]
theorem not_isOperation_nil : ¬IsOperation [] :=
  fun h => h.1 rfl

theorem IsLabel.not_isOperation {text : List Char} (h : IsLabel text) : ¬IsOperation text :=
  fun hop => hop.2.2 h.2.2

theorem IsLabel.dropLast_append {text : List Char} (h : IsLabel text) :
    text.dropLast ++ [':'] = text := by
  obtain ⟨name, rfl⟩ := List.getLast?_eq_some_iff.mp h.2.2
  rw [List.dropLast_concat]

theorem IsLabel.eq_concat_iff {text name : List Char} (h : IsLabel text) :
    text = name ++ [':'] ↔ text.dropLast = name := by
  constructor
  · rintro rfl
    rw [List.dropLast_concat]
  · rintro rfl
    exact h.dropLast_append.symm

namespace Statement

theorem ofLine?_of_isLabel {line : List Char} (h : IsLabel (trim line)) :
    ofLine? line = some (.label (trim line).dropLast) := by
  obtain ⟨hne, hhead, hlast⟩ := h
  simp [ofLine?, hne, hhead, hlast]

theorem ofLine?_of_isOperation {line : List Char} (h : IsOperation (trim line)) :
    ofLine? line = some (.operation (trim line)) := by
  obtain ⟨hne, hhead, hlast⟩ := h
  simp [ofLine?, hne, hhead, hlast]

theorem ofLine?_eq_none {line : List Char} (hlabel : ¬IsLabel (trim line))
    (hop : ¬IsOperation (trim line)) : ofLine? line = none := by
  simp only [ofLine?]
  split
  next => rfl
  next htext =>
    simp only [Bool.or_eq_true, List.isEmpty_iff, beq_iff_eq, not_or] at htext
    by_cases hlast : (trim line).getLast? = some ':'
    · exact absurd ⟨htext.1, htext.2, hlast⟩ hlabel
    · exact absurd ⟨htext.1, htext.2, hlast⟩ hop

theorem operation_of_ofLine? {line text : List Char}
    (h : ofLine? line = some (.operation text)) : trim line = text ∧ IsOperation text := by
  by_cases hlabel : IsLabel (trim line)
  · rw [ofLine?_of_isLabel hlabel] at h
    cases h
  · by_cases hop : IsOperation (trim line)
    · rw [ofLine?_of_isOperation hop] at h
      cases h
      exact ⟨rfl, hop⟩
    · rw [ofLine?_eq_none hlabel hop] at h
      cases h

end Statement

namespace Line

/-- The statements of the given lines, numbered from `first` on. -/
def numbered (first : Nat) (raw : List (List Char)) : List Line :=
  (raw.zipIdx first).filterMap fun (line, number) =>
    (Statement.ofLine? line).map fun statement => ⟨number, statement⟩

theorem numbered_cons_of_isLabel {line : List Char} (h : IsLabel (trim line)) (first : Nat)
    (raw : List (List Char)) :
    numbered first (line :: raw) =
      ⟨first, .label (trim line).dropLast⟩ :: numbered (first + 1) raw := by
  simp [numbered, Statement.ofLine?_of_isLabel h]

theorem numbered_cons_of_isOperation {line : List Char} (h : IsOperation (trim line))
    (first : Nat) (raw : List (List Char)) :
    numbered first (line :: raw) =
      ⟨first, .operation (trim line)⟩ :: numbered (first + 1) raw := by
  simp [numbered, Statement.ofLine?_of_isOperation h]

theorem numbered_cons_of_neither {line : List Char} (hlabel : ¬IsLabel (trim line))
    (hop : ¬IsOperation (trim line)) (first : Nat) (raw : List (List Char)) :
    numbered first (line :: raw) = numbered (first + 1) raw := by
  simp [numbered, Statement.ofLine?_eq_none hlabel hop]

theorem operations_numbered (first : Nat) (raw : List (List Char)) :
    ((numbered first raw).filterMap operation?).map Prod.fst =
      (raw.map trim).filter (IsOperation ·) := by
  induction raw generalizing first with
  | nil => rfl
  | cons line raw ih =>
    by_cases hlabel : IsLabel (trim line)
    · rw [numbered_cons_of_isLabel hlabel, List.filterMap_cons_none rfl, ih, List.map_cons,
        List.filter_cons_of_neg (by simpa using hlabel.not_isOperation)]
    · by_cases hop : IsOperation (trim line)
      · rw [numbered_cons_of_isOperation hop]
        simp [operation?, hop, ih]
      · rw [numbered_cons_of_neither hlabel hop, ih, List.map_cons,
          List.filter_cons_of_neg (by simpa using hop)]

end Line

namespace Labels

/-- One label more is found where it stands, and the others are found as before. -/
theorem lookup_cons_eq_some_iff {labels : Labels} {name added : List Char} {offset k : Nat}
    (hnone : labels.lookup added = none) :
    ((added, offset) :: labels).lookup name = some k ↔
      labels.lookup name = some k ∨ name = added ∧ k = offset := by
  rw [lookup_cons_eq_ite]
  by_cases h : name = added
  · subst h
    simp [hnone, eq_comm]
  · simp [h]

theorem extend_label {labels out : Labels} {rest : List Line} {number offset : Nat}
    {name : List Char} :
    extend labels (⟨number, .label name⟩ :: rest) offset = .ok out ↔
      labels.lookup name = none ∧ extend ((name, offset) :: labels) rest offset = .ok out := by
  rw [extend]
  split
  next h =>
    obtain ⟨k, hk⟩ := Option.isSome_iff_exists.mp h
    simp [hk]
  next h => simp [Option.not_isSome_iff_eq_none.mp h]

/-- The labels found are those from before and those of the lines, each behind the operations
that come before it. -/
theorem lookup_extend {raw : List (List Char)} {labels out : Labels} {first offset : Nat}
    (h : extend labels (Line.numbered first raw) offset = .ok out) (name : List Char) (k : Nat) :
    out.lookup name = some k ↔ labels.lookup name = some k ∨
      ∃ n, LabelledAt (raw.map trim) name n ∧ k = offset + n := by
  induction raw generalizing labels first offset with
  | nil =>
    cases Except.ok.inj h
    simp [LabelledAt]
  | cons line raw ih =>
    rw [List.map_cons]
    simp only [labelledAt_cons]
    by_cases hlabel : IsLabel (trim line)
    · rw [Line.numbered_cons_of_isLabel hlabel] at h
      obtain ⟨hnone, h⟩ := extend_label.mp h
      rw [ih h, lookup_cons_eq_some_iff hnone]
      simp only [hlabel, hlabel.not_isOperation, hlabel.eq_concat_iff]
      constructor
      · rintro ((hold | ⟨rfl, rfl⟩) | ⟨n, hn, rfl⟩)
        · exact .inl hold
        · exact .inr ⟨0, .inl ⟨rfl, trivial, rfl⟩, rfl⟩
        · exact .inr ⟨n, .inr ⟨n, hn, rfl⟩, rfl⟩
      · rintro (hold | ⟨n, ⟨rfl, _, rfl⟩ | ⟨_, hn, rfl⟩, rfl⟩)
        · exact .inl (.inl hold)
        · exact .inl (.inr ⟨rfl, rfl⟩)
        · exact .inr ⟨n, hn, rfl⟩
    · by_cases hop : IsOperation (trim line)
      · rw [Line.numbered_cons_of_isOperation hop] at h
        rw [ih h]
        simp only [hlabel, hop, false_and, and_false, false_or, if_true]
        refine or_congr_right ⟨?_, ?_⟩
        · rintro ⟨n, hn, rfl⟩
          exact ⟨n + 1, ⟨n, hn, rfl⟩, by omega⟩
        · rintro ⟨_, ⟨n, hn, rfl⟩, rfl⟩
          exact ⟨n, hn, by omega⟩
      · rw [Line.numbered_cons_of_neither hlabel hop] at h
        rw [ih h]
        simp [hlabel, hop]

theorem lookup_cons_eq_none_iff {labels : Labels} {name added : List Char} {offset : Nat} :
    ((added, offset) :: labels).lookup name = none ↔
      name ≠ added ∧ labels.lookup name = none := by
  rw [lookup_cons_eq_ite]
  by_cases h : name = added
  · simp [h]
  · simp [h]

theorem exists_extend_iff {raw : List (List Char)} {labels : Labels} {first offset : Nat} :
    (∃ out, extend labels (Line.numbered first raw) offset = .ok out) ↔
      ((raw.map trim).filter (IsLabel ·)).Nodup ∧
        ∀ text ∈ (raw.map trim).filter (IsLabel ·), labels.lookup text.dropLast = none := by
  induction raw generalizing labels first offset with
  | nil => simp [Line.numbered, extend]
  | cons line raw ih =>
    rw [List.map_cons]
    by_cases hlabel : IsLabel (trim line)
    · rw [Line.numbered_cons_of_isLabel hlabel,
        List.filter_cons_of_pos (by simpa using hlabel), List.nodup_cons]
      simp only [extend_label, exists_and_left, ih, lookup_cons_eq_none_iff, List.forall_mem_cons]
      constructor
      · rintro ⟨hnone, hnodup, hfresh⟩
        exact ⟨⟨fun hmem => (hfresh _ hmem).1 rfl, hnodup⟩, hnone, fun t ht => (hfresh t ht).2⟩
      · rintro ⟨⟨hmem, hnodup⟩, hnone, hfresh⟩
        refine ⟨hnone, hnodup, fun t ht => ⟨fun heq => hmem ?_, hfresh t ht⟩⟩
        have htlabel : IsLabel t := by simpa using (List.mem_filter.mp ht).2
        rwa [← hlabel.dropLast_append, ← heq, htlabel.dropLast_append]
    · rw [List.filter_cons_of_neg (by simpa using hlabel)]
      by_cases hop : IsOperation (trim line)
      · rw [Line.numbered_cons_of_isOperation hop]
        exact ih
      · rw [Line.numbered_cons_of_neither hlabel hop]
        exact ih

end Labels

end RegisterMachine
