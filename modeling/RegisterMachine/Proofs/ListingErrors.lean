import RegisterMachine.Proofs.LabelResolution
import RegisterMachine.Proofs.OperationErrors

namespace RegisterMachine

theorem mem_take_iff_getElem? {α : Type} {xs : List α} {x : α} {bound : Nat} :
    x ∈ xs.take bound ↔ ∃ place < bound, xs[place]? = some x := by
  simp [List.mem_iff_getElem?, List.getElem?_take]

/-- A label that stands on an earlier line too; lines are counted from zero. -/
def RepeatedAt (texts : List (List Char)) (name : List Char) (line : Nat) : Prop :=
  IsLabel (name ++ [':']) ∧ texts[line]? = some (name ++ [':']) ∧
    ∃ earlier < line, texts[earlier]? = some (name ++ [':'])

theorem repeatedAt_take {texts : List (List Char)} {name : List Char} {line bound : Nat} :
    RepeatedAt (texts.take bound) name line ↔ line < bound ∧ RepeatedAt texts name line := by
  simp only [RepeatedAt, List.getElem?_take]
  constructor
  · rintro ⟨hlabel, hline, earlier, hlt, hearlier⟩
    split at hline
    next hbound =>
      rw [if_pos (by omega)] at hearlier
      exact ⟨hbound, hlabel, hline, earlier, hlt, hearlier⟩
    next => cases hline
  · rintro ⟨hbound, hlabel, hline, earlier, hlt, hearlier⟩
    exact ⟨hlabel, by rw [if_pos hbound, hline], earlier, hlt, by rw [if_pos (by omega), hearlier]⟩

theorem nodup_labels_iff {texts : List (List Char)} :
    (texts.filter (IsLabel ·)).Nodup ↔ ∀ line name, ¬RepeatedAt texts name line := by
  constructor
  · rintro hnodup line name ⟨hlabel, hline, earlier, hlt, hearlier⟩
    have heq := label_place_unique hnodup hlabel hearlier hline
    omega
  · intro hnone
    rw [List.Nodup, List.pairwise_filter, List.pairwise_iff_getElem]
    intro earlier line hearlier hline hlt _ hlabel heq
    have hlabel : IsLabel texts[line] := by simpa using hlabel
    apply hnone line texts[line].dropLast
    rw [RepeatedAt, hlabel.dropLast_append]
    exact ⟨hlabel, List.getElem?_eq_getElem hline, earlier, hlt,
      by rw [List.getElem?_eq_getElem hearlier, heq]⟩

namespace Labels

theorem extend_label_eq_error_iff {labels : Labels} {rest : List Line} {number offset : Nat}
    {name : List Char} {e : AssemblyError} :
    extend labels (⟨number, .label name⟩ :: rest) offset = .error e ↔
      labels.lookup name ≠ none ∧ e = ⟨number, .duplicateLabel (String.ofList name)⟩ ∨
      labels.lookup name = none ∧ extend ((name, offset) :: labels) rest offset = .error e := by
  rw [extend]
  cases labels.lookup name with
  | none => simp
  | some k => simp [eq_comm]

/-- The labels are not collected exactly if one of them was found above its line or was known
before; the first such line is the error. -/
theorem extend_eq_error_iff {raw : List (List Char)} {labels : Labels} {first offset : Nat}
    {e : AssemblyError} :
    extend labels (Line.numbered first raw) offset = .error e ↔
      ∃ place line, raw[place]? = some line ∧ IsLabel (trim line) ∧
        (∃ found, extend labels (Line.numbered first (raw.take place)) offset = .ok found ∧
          found.lookup (trim line).dropLast ≠ none) ∧
        e = ⟨first + place, .duplicateLabel (String.ofList (trim line).dropLast)⟩ := by
  -- By induction on the lines: the labels found so far and the number of the next line vary.
  induction raw generalizing labels first offset with
  | nil => simp [Line.numbered, extend]
  | cons line raw ih =>
    rw [exists_getElem?_cons]
    simp only [List.take_zero, List.take_succ_cons]
    by_cases hlabel : IsLabel (trim line)
    · simp only [Line.numbered_cons_of_isLabel hlabel, extend_label_eq_error_iff, extend_label, ih,
        hlabel, and_assoc, exists_and_left, true_and, Nat.add_assoc, Nat.add_comm 1]
      have hempty : extend labels (Line.numbered first []) offset = .ok labels := rfl
      refine or_congr ?_ ?_
      · simp only [hempty, Except.ok.injEq, exists_eq_left', Nat.add_zero]
      · by_cases hnone : labels.lookup (trim line).dropLast = none
        · simp only [hnone, true_and]
        · simp only [hnone, false_and, and_false, exists_false]
    · by_cases hop : IsOperation (trim line)
      · simp only [Line.numbered_cons_of_isOperation hop, extend, hlabel, false_and, false_or, ih,
          Nat.add_assoc, Nat.add_comm 1]
      · simp only [Line.numbered_cons_of_neither hlabel hop, hlabel, false_and, false_or, ih,
          Nat.add_assoc, Nat.add_comm 1]

theorem lookup_extend_ne_none_iff {raw : List (List Char)} {found : Labels} {first offset : Nat}
    (h : extend [] (Line.numbered first raw) offset = .ok found) (name : List Char) :
    found.lookup name ≠ none ↔ IsLabel (name ++ [':']) ∧ name ++ [':'] ∈ raw.map trim := by
  rw [Option.ne_none_iff_exists']
  simp only [lookup_extend h, List.lookup_nil, reduceCtorEq, false_or]
  constructor
  · rintro ⟨k, n, ⟨before, after, heq, hlabel, _⟩, _⟩
    exact ⟨hlabel, by simp [heq]⟩
  · rintro ⟨hlabel, hmem⟩
    obtain ⟨before, after, heq⟩ := List.append_of_mem hmem
    exact ⟨_, _, ⟨before, after, heq, hlabel, rfl⟩, rfl⟩

/-- The labels above a line are collected and one of them is `text` exactly if none of them is
repeated and `text` stands above the line. -/
theorem extend_take_iff {raw : List (List Char)} {first offset place : Nat} {text : List Char}
    (hlabel : IsLabel text) :
    (∃ found, extend [] (Line.numbered first (raw.take place)) offset = .ok found ∧
        found.lookup text.dropLast ≠ none) ↔
      (∀ earlier < place, ∀ other, ¬RepeatedAt (raw.map trim) other earlier) ∧
        ∃ earlier < place, (raw.map trim)[earlier]? = some text := by
  have hcollected : (∃ found, extend [] (Line.numbered first (raw.take place)) offset = .ok found) ↔
      ∀ earlier < place, ∀ other, ¬RepeatedAt (raw.map trim) other earlier := by
    rw [exists_extend_iff, List.map_take, nodup_labels_iff]
    simp only [repeatedAt_take, List.lookup_nil, implies_true, and_true, not_and]
    exact ⟨fun h line hlt other => h line other hlt, fun h line other hlt => h line hlt other⟩
  have habove : text ∈ (raw.take place).map trim ↔
      ∃ earlier < place, (raw.map trim)[earlier]? = some text := by
    rw [List.map_take, mem_take_iff_getElem?]
  rw [← hcollected, ← habove, ← exists_and_right]
  refine exists_congr fun found => and_congr_right fun hfound => ?_
  rw [lookup_extend_ne_none_iff hfound, hlabel.dropLast_append]
  exact and_iff_right hlabel

theorem ofLines_eq_error_iff {listing : String} {e : AssemblyError} :
    ofLines (Line.ofListing listing.toList) = .error e ↔
      ∃ line name, RepeatedAt (Listing.texts listing) name line ∧
        (∀ earlier < line, ∀ other, ¬RepeatedAt (Listing.texts listing) other earlier) ∧
        e = ⟨line + 1, .duplicateLabel (String.ofList name)⟩ := by
  refine Iff.trans extend_eq_error_iff ?_
  constructor
  · rintro ⟨place, line, hline, hlabel, hfound, rfl⟩
    obtain ⟨hnone, habove⟩ := (extend_take_iff hlabel).mp hfound
    have htext : (Listing.texts listing)[place]? = some (trim line) := by
      rw [Listing.texts, List.getElem?_map, hline, Option.map_some]
    refine ⟨place, (trim line).dropLast, ?_, hnone, by rw [Nat.add_comm]⟩
    rw [RepeatedAt, hlabel.dropLast_append]
    exact ⟨hlabel, htext, habove⟩
  · rintro ⟨place, name, ⟨hlabel, htext, habove⟩, hnone, rfl⟩
    rw [Listing.texts, List.getElem?_map, Option.map_eq_some_iff] at htext
    obtain ⟨line, hline, htrim⟩ := htext
    refine ⟨place, line, hline, ?_⟩
    rw [htrim]
    refine ⟨hlabel, (extend_take_iff hlabel).mpr ⟨hnone, habove⟩, ?_⟩
    rw [List.dropLast_concat, Nat.add_comm 1]

end Labels

theorem mapError_eq_error_iff {ε ε' α : Type} {f : ε → ε'} {x : Except ε α} {e : ε'} :
    x.mapError f = .error e ↔ ∃ cause, x = .error cause ∧ e = f cause := by
  cases x with
  | ok a => simp [Except.mapError]
  | error cause => simp [Except.mapError, eq_comm]

namespace Line

/-- The operations fail with the first line that holds one which fails. -/
theorem mapM_operations_eq_error_iff {α : Type} {f : List Char → Except Cause α}
    {raw : List (List Char)} {first : Nat} {e : AssemblyError} :
    (((numbered first raw).filterMap operation?).mapM fun operation =>
        (f operation.1).mapError fun cause => AssemblyError.mk operation.2 cause) = .error e ↔
      ∃ place text, (raw.map trim)[place]? = some text ∧ IsOperation text ∧
        (∀ earlier ∈ (raw.map trim).take place, IsOperation earlier → ∃ a, f earlier = .ok a) ∧
        ∃ cause, f text = .error cause ∧ e = ⟨first + place, cause⟩ := by
  induction raw generalizing first with
  | nil => simp [numbered, pure, Except.pure]
  | cons line raw ih =>
    rw [List.map_cons, exists_getElem?_cons]
    simp only [List.take_zero, List.take_succ_cons, List.forall_mem_cons]
    by_cases hop : IsOperation (trim line)
    · have hnumbered : (numbered first (line :: raw)).filterMap operation? =
          (trim line, first) :: (numbered (first + 1) raw).filterMap operation? := by
        rw [numbered_cons_of_isOperation hop]
        rfl
      rw [hnumbered, mapM_cons_eq_error_iff, ih]
      simp only [mapError_eq_error_iff, mapError_eq_ok_iff, hop, true_and, true_implies,
        List.not_mem_nil, false_implies, implies_true, Nat.add_zero, Nat.add_assoc, Nat.add_comm 1]
      refine or_congr_right ?_
      by_cases hfirst : ∃ a, f (trim line) = .ok a
      · simp only [hfirst, true_and]
      · simp only [hfirst, false_and, and_false, exists_false]
    · have hnumbered : (numbered first (line :: raw)).filterMap operation? =
          (numbered (first + 1) raw).filterMap operation? := by
        by_cases hlabel : IsLabel (trim line)
        · rw [numbered_cons_of_isLabel hlabel, List.filterMap_cons_none rfl]
        · rw [numbered_cons_of_neither hlabel hop]
      rw [hnumbered, ih]
      simp only [hop, false_and, false_or, false_implies, true_and, Nat.add_assoc, Nat.add_comm 1]

end Line

namespace Listing

/-- The line on which an operation stands, counted from zero over all lines. -/
def OperationLine (listing : String) (text : List Char) (line : Nat) : Prop :=
  (texts listing)[line]? = some text ∧ IsOperation text

end Listing

namespace Program

theorem mapM_ofOperation_eq_error_iff {listing : String} {labels : Labels} {e : AssemblyError} :
    (((Line.ofListing listing.toList).filterMap Line.operation?).mapM fun operation =>
        (Instruction.ofOperation labels operation.1).mapError fun cause =>
          AssemblyError.mk operation.2 cause) = .error e ↔
      ∃ line text cause, Listing.OperationLine listing text line ∧
        (∀ earlier < line, ∀ other, Listing.OperationLine listing other earlier →
          ∃ i, Instruction.ofOperation labels other = .ok i) ∧
        Instruction.ofOperation labels text = .error cause ∧ e = ⟨line + 1, cause⟩ := by
  refine Iff.trans Line.mapM_operations_eq_error_iff ?_
  simp only [Listing.OperationLine, Listing.texts, mem_take_iff_getElem?]
  constructor
  · rintro ⟨line, text, htext, hop, hfirst, cause, hcause, rfl⟩
    refine ⟨line, text, cause, ⟨htext, hop⟩, ?_, hcause, by rw [Nat.add_comm]⟩
    rintro earlier hlt other ⟨hother, hop⟩
    exact hfirst other ⟨earlier, hlt, hother⟩ hop
  · rintro ⟨line, text, cause, ⟨htext, hop⟩, hfirst, hcause, rfl⟩
    refine ⟨line, text, htext, hop, ?_, cause, hcause, by rw [Nat.add_comm]⟩
    rintro other ⟨earlier, hlt, hother⟩ hop
    exact hfirst earlier hlt other ⟨hother, hop⟩

/-- A listing fails with its labels, or else with the first operation that fails. -/
theorem ofListing_eq_error_iff_labels {listing : String} {e : AssemblyError} :
    ofListing listing = .error e ↔
      Labels.ofLines (Line.ofListing listing.toList) = .error e ∨
      ∃ labels, Labels.ofLines (Line.ofListing listing.toList) = .ok labels ∧
        ∃ line text cause, Listing.OperationLine listing text line ∧
          (∀ earlier < line, ∀ other, Listing.OperationLine listing other earlier →
            ∃ i, Instruction.ofOperation labels other = .ok i) ∧
          Instruction.ofOperation labels text = .error cause ∧ e = ⟨line + 1, cause⟩ := by
  rw [ofListing, ofLines, bind_eq_error_iff]
  refine or_congr_right (exists_congr fun labels => and_congr_right fun _ => ?_)
  rw [bind_eq_error_iff, ← mapM_ofOperation_eq_error_iff]
  constructor
  · rintro (h | ⟨_, _, h⟩)
    · exact h
    · cases h
  · exact .inl

end Program

namespace Listing

theorem ofOperation_eq_error_iff_fails {listing : String} {labels : Labels}
    (hsmall : (operations listing).length < 0x100000000)
    (h : Labels.ofLines (Line.ofListing listing.toList) = .ok labels) {text : List Char}
    {cause : Cause} :
    Instruction.ofOperation labels text = .error cause ↔
      Operation.Fails (LabelledAt (texts listing)) text cause := by
  rw [Instruction.ofOperation_eq_error_iff (Labels.lookup_lt hsmall h),
    Labels.lookup_eq_labelledAt h]

theorem exists_ofOperation_iff {listing : String} {labels : Labels}
    (hsmall : (operations listing).length < 0x100000000)
    (h : Labels.ofLines (Line.ofListing listing.toList) = .ok labels) {text : List Char} :
    (∃ i, Instruction.ofOperation labels text = .ok i) ↔
      ∃ op values, Reads listing text op values := by
  simp only [ofOperation_eq_ok_iff_encodes hsmall h]
  constructor
  · rintro ⟨i, op, values, hreads, _⟩
    exact ⟨op, values, hreads⟩
  · rintro ⟨op, values, hreads⟩
    obtain ⟨i, hi⟩ := exists_carries
      (fun _ _ hk => Nat.lt_of_le_of_lt (LabelledAt.le hk) hsmall) hreads
    exact ⟨i, op, values, hreads, hi⟩

/-- The error of a listing. A repeated label goes before every operation, and among labels as
among operations the first that is wrong goes before the others. -/
inductive Reports (listing : String) : AssemblyError → Prop where
  | label {name : List Char} {line : Nat} (hrepeated : RepeatedAt (texts listing) name line)
      (hfirst : ∀ earlier < line, ∀ other, ¬RepeatedAt (texts listing) other earlier) :
      Reports listing ⟨line + 1, .duplicateLabel (String.ofList name)⟩
  | operation {text : List Char} {line : Nat} {cause : Cause}
      (hlabels : ∀ line name, ¬RepeatedAt (texts listing) name line)
      (hline : OperationLine listing text line)
      (hfirst : ∀ earlier < line, ∀ other, OperationLine listing other earlier →
        ∃ op values, Reads listing other op values)
      (hfails : Operation.Fails (LabelledAt (texts listing)) text cause) :
      Reports listing ⟨line + 1, cause⟩

theorem reports_of_ofListing {listing : String} {e : AssemblyError}
    (hsmall : (operations listing).length < 0x100000000)
    (h : Program.ofListing listing = .error e) : Reports listing e := by
  rcases Program.ofListing_eq_error_iff_labels.mp h with h | ⟨found, hfound, h⟩
  · obtain ⟨line, name, hrepeated, hfirst, rfl⟩ := Labels.ofLines_eq_error_iff.mp h
    exact .label hrepeated hfirst
  · obtain ⟨line, text, cause, hline, hfirst, hcause, rfl⟩ := h
    have hlabels := nodup_labels_iff.mp (Labels.exists_ofLines_iff.mp ⟨found, hfound⟩)
    refine .operation hlabels hline (fun earlier hlt other hother => ?_) ?_
    · exact (exists_ofOperation_iff hsmall hfound).mp (hfirst earlier hlt other hother)
    · exact (ofOperation_eq_error_iff_fails hsmall hfound).mp hcause

theorem ofListing_of_reports {listing : String} {e : AssemblyError}
    (hsmall : (operations listing).length < 0x100000000) (h : Reports listing e) :
    Program.ofListing listing = .error e := by
  rw [Program.ofListing_eq_error_iff_labels]
  cases h with
  | label hrepeated hfirst =>
    exact .inl (Labels.ofLines_eq_error_iff.mpr ⟨_, _, hrepeated, hfirst, rfl⟩)
  | operation hlabels hline hfirst hfails =>
    obtain ⟨found, hfound⟩ := Labels.exists_ofLines_iff.mpr (nodup_labels_iff.mpr hlabels)
    refine .inr ⟨found, hfound, _, _, _, hline, fun earlier hlt other hother => ?_, ?_, rfl⟩
    · exact (exists_ofOperation_iff hsmall hfound).mpr (hfirst earlier hlt other hother)
    · exact (ofOperation_eq_error_iff_fails hsmall hfound).mpr hfails

theorem message_tooManyArguments (line given : Nat) (op : Opcode) :
    (AssemblyError.mk line (.tooManyArguments op given)).message =
      "Error on line " ++ decimal line ++ ": " ++ (op.name ++ " takes at most " ++
        (if op.isLong then "2" else "3") ++ " arguments but was given " ++ decimal given ++
        ".") := by
  have hmax : decimal op.maxArguments = if op.isLong then "2" else "3" := by
    unfold Opcode.maxArguments
    split <;> decide +kernel
  rw [← hmax]
  rfl

/-- A listing that does not assemble is refused with its first error, and one with too many
arguments is told how many its operation takes. -/
theorem refused_with_first_error {listing : String} {e : AssemblyError}
    (hsmall : (operations listing).length < 0x100000000) :
    (Program.ofListing listing = .error e ↔ Reports listing e) ∧
    ∀ line op given, e = ⟨line, .tooManyArguments op given⟩ →
      e.message = "Error on line " ++ decimal line ++ ": " ++ (op.name ++ " takes at most " ++
        (if op.isLong then "2" else "3") ++ " arguments but was given " ++ decimal given ++
        ".") := by
  refine ⟨⟨reports_of_ofListing hsmall, ofListing_of_reports hsmall⟩, ?_⟩
  rintro line op given rfl
  exact message_tooManyArguments line given op

theorem refused_with_first_error_repeated :
    let repeated := "bogus\na:\n\nli 5\n a:"
    let wide := "# head\n\nstart:\r\nnoop\nli 70000i , $65536\nbogus"
    (operations repeated).length < 0x100000000 ∧ (operations wide).length < 0x100000000 ∧
      Reports repeated ⟨5, .duplicateLabel "a"⟩ ∧ Reports wide ⟨5, .argumentTooWide 65536⟩ :=
  ⟨by decide, by decide, (refused_with_first_error (by decide)).1.mp (by decide +kernel),
    (refused_with_first_error (by decide)).1.mp (by decide +kernel)⟩

end Listing

end RegisterMachine
