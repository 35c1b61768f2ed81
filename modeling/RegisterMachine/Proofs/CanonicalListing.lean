import RegisterMachine.Proofs.ListingGrammar

namespace RegisterMachine

namespace Argument

/-- A number written as an index. -/
def indexText (v : Nat) : List Char :=
  '$' :: Nat.toDigits 10 v

theorem isNumeral_toDigits (n : Nat) :
    IsNumeral (Nat.toDigits 10 n) ∧ numeralValue (Nat.toDigits 10 n) = n :=
  decimalValue?_eq_some_iff.mp (decimalValue?_toDigits n)

theorem denotes_indexText {offset : List Char → Nat → Prop} {v : Nat} (hv : v < 0x100000000) :
    Denotes offset (indexText v) v := by
  obtain ⟨hdigits, hvalue⟩ := isNumeral_toDigits v
  have hdenotes : Denotes offset (indexText v) (numeralValue (Nat.toDigits 10 v)) :=
    .index hdigits (by rw [hvalue]; exact hv)
  rwa [hvalue] at hdenotes

theorem not_isBlank_of_isDigit {c : Char} (h : c.isDigit) : ¬isBlank c := by
  have hbounds : 48 ≤ c.toNat ∧ c.toNat ≤ 57 := by
    simpa [Char.isDigit, UInt32.le_iff_toNat_le] using h
  simp only [isBlank, Bool.or_eq_true, Bool.and_eq_true, decide_eq_true_eq, beq_iff_eq]
  omega

theorem not_isBlank_of_mem_indexText {v : Nat} {c : Char} (h : c ∈ indexText v) :
    ¬isBlank c := by
  rcases List.mem_cons.mp h with rfl | h
  · decide
  · exact not_isBlank_of_isDigit ((isNumeral_toDigits v).1.2 c h)

theorem comma_not_mem_indexText (v : Nat) : ',' ∉ indexText v := by
  intro h
  rcases List.mem_cons.mp h with h | h
  · exact absurd h (by decide)
  · exact absurd ((isNumeral_toDigits v).1.2 ',' h) (by decide)

theorem trim_indexText (v : Nat) : trim (indexText v) = indexText v :=
  trim_eq_self_of_forall fun _ => not_isBlank_of_mem_indexText

theorem isDigit_getLast_indexText {v : Nat} {c : Char} (h : (indexText v).getLast? = some c) :
    c.isDigit := by
  obtain ⟨hne, hdigits⟩ := (isNumeral_toDigits v).1
  have hlast : (indexText v).getLast? = (Nat.toDigits 10 v).getLast? :=
    List.getLast?_cons_of_ne_nil hne
  exact hdigits c (List.mem_of_getLast? (hlast ▸ h))

end Argument

theorem intercalate_comma_blank (first : List Char) (rest : List (List Char)) :
    [',', ' '].intercalate (first :: rest) =
      [','].intercalate (first :: rest.map (' ' :: ·)) := by
  induction rest generalizing first with
  | nil => rfl
  | cons second rest ih =>
    rw [List.intercalate_cons_cons, ih, List.map_cons, List.intercalate_cons_cons]
    cases rest <;> simp

theorem suffix_intercalate (sep last : List Char) (before : List (List Char)) :
    last <:+ sep.intercalate (before ++ [last]) := by
  induction before with
  | nil => simp
  | cons first rest ih =>
    obtain ⟨second, others, heq⟩ := List.exists_cons_of_ne_nil
      (List.append_ne_nil_of_right_ne_nil rest (List.cons_ne_nil last []))
    rw [heq] at ih
    rw [List.cons_append, heq, List.intercalate_cons_cons]
    exact ih.trans (List.suffix_append _ _)

namespace Opcode

theorem not_isBlank_of_mem_name (op : Opcode) : ∀ c ∈ op.name.toList, ¬isBlank c := by
  have hall : op.name.toList.all (!isBlank ·) = true := by
    cases op <;> rfl
  simpa using hall

theorem exists_head_name (op : Opcode) :
    ∃ c rest, op.name.toList = c :: rest ∧ c ≠ '#' := by
  cases op <;> exact ⟨_, _, rfl, by decide⟩

end Opcode

namespace Instruction

/-- The operation that an instruction comes from, with all its arguments written as indices. An
instruction whose operation code is not known comes from none. -/
def operationText (i : Instruction) : String :=
  match i.opcode? with
  | some op => op.name ++ " " ++ ", ".intercalate ((i.arguments op).map fun v => "$" ++ decimal v)
  | none => ""

variable {i : Instruction} {op : Opcode}

theorem toList_operationText (h : i.opcode? = some op) :
    i.operationText.toList = op.name.toList ++
      ([' '] ++ [',', ' '].intercalate ((i.arguments op).map Argument.indexText)) := by
  have hindex : Argument.indexText = fun v => '$' :: Nat.toDigits 10 v := rfl
  simp [operationText, h, String.toList_intercalate, Function.comp_def, hindex]

theorem exists_arguments_eq_concat (i : Instruction) (op : Opcode) :
    ∃ before, i.arguments op = before ++ [i.arg2.toNat] := by
  unfold arguments
  split
  next => exact ⟨[_], rfl⟩
  next => exact ⟨[_, _], rfl⟩

theorem length_arguments (i : Instruction) (op : Opcode) :
    (i.arguments op).length = op.maxArguments := by
  unfold arguments Opcode.maxArguments
  split <;> rfl

theorem carries_arguments (h : i.opcode? = some op) : i.Carries op (i.arguments op) := by
  refine ⟨h, ?_⟩
  rw [List.rightpad, length_arguments, Nat.sub_self, List.replicate_zero, List.append_nil]

theorem fits_arguments (i : Instruction) (op : Opcode) : op.Fits (i.arguments op) := by
  have hbound0 := i.arg0.isLt
  have hbound1 := i.arg1.isLt
  have hbound2 := i.arg2.isLt
  unfold Opcode.Fits arguments
  split
  next =>
    simp
    omega
  next =>
    simp
    omega

theorem lt_of_mem_arguments {v : Nat} (h : v ∈ i.arguments op) : v < 0x100000000 := by
  have hlong := i.longArg.isLt
  have hbound0 := i.arg0.isLt
  have hbound1 := i.arg1.isLt
  have hbound2 := i.arg2.isLt
  unfold arguments at h
  split at h
  next =>
    simp at h
    omega
  next =>
    simp at h
    omega

theorem parts_operationText (h : i.opcode? = some op) :
    Operation.Parts i.operationText.toList op.name.toList
      ((i.arguments op).map Argument.indexText) := by
  have hne : i.arguments op ≠ [] := by
    obtain ⟨before, heq⟩ := exists_arguments_eq_concat i op
    simp [heq]
  obtain ⟨first, rest, heq⟩ := List.exists_cons_of_ne_nil hne
  have hcomma : ∀ piece ∈ Argument.indexText first ::
      (rest.map Argument.indexText).map (' ' :: ·), ',' ∉ piece := by
    intro piece hpiece
    simp only [List.map_map, List.mem_cons, List.mem_map, Function.comp_apply] at hpiece
    rcases hpiece with rfl | ⟨v, _, rfl⟩
    · exact Argument.comma_not_mem_indexText first
    · simpa using Argument.comma_not_mem_indexText v
  have htrim : ∀ v, trim (' ' :: Argument.indexText v) = Argument.indexText v := by
    intro v
    have hblank : ∀ c ∈ [' '], isBlank c := List.forall_mem_singleton.mpr rfl
    exact (trim_append_left hblank _).trans (Argument.trim_indexText v)
  have hparts := Operation.Parts.pieces op.not_isBlank_of_mem_name (List.cons_ne_nil ' ' [])
    (List.forall_mem_singleton.mpr rfl) (List.cons_ne_nil _ _) hcomma
  rw [toList_operationText h, heq, List.map_cons, intercalate_comma_blank]
  simpa [Argument.trim_indexText, htrim, Function.comp_def] using hparts

theorem reads_operationText {offset : List Char → Nat → Prop} (h : i.opcode? = some op) :
    Operation.Reads offset i.operationText.toList op (i.arguments op) := by
  refine ⟨_, _, parts_operationText h, .name op, ?_, fits_arguments i op⟩
  rw [List.forall₂_map_left_iff, List.forall₂_same]
  exact fun v hv => Argument.denotes_indexText (lt_of_mem_arguments hv)

theorem suffix_operationText (h : i.opcode? = some op) :
    Argument.indexText i.arg2.toNat <:+ i.operationText.toList := by
  obtain ⟨before, heq⟩ := exists_arguments_eq_concat i op
  rw [toList_operationText h, heq, List.map_append, List.map_singleton]
  have hlast := suffix_intercalate [',', ' '] (Argument.indexText i.arg2.toNat)
    (before.map Argument.indexText)
  exact (hlast.trans (List.suffix_append _ _)).trans (List.suffix_append _ _)

theorem isDigit_getLast_operationText (h : i.opcode? = some op) {c : Char}
    (hc : i.operationText.toList.getLast? = some c) : c.isDigit := by
  obtain ⟨before, heq⟩ := suffix_operationText h
  have hne : Argument.indexText i.arg2.toNat ≠ [] := List.cons_ne_nil _ _
  rw [← heq, List.getLast?_append_of_ne_nil _ hne] at hc
  exact Argument.isDigit_getLast_indexText hc

theorem exists_head_operationText (h : i.opcode? = some op) :
    ∃ c rest, i.operationText.toList = c :: rest ∧ c ≠ '#' ∧ ¬isBlank c := by
  obtain ⟨c, rest, hname, hc⟩ := op.exists_head_name
  refine ⟨c, _, by rw [toList_operationText h, hname, List.cons_append], hc, ?_⟩
  exact op.not_isBlank_of_mem_name c (hname ▸ List.mem_cons_self)

theorem isOperation_operationText (h : i.opcode? = some op) :
    IsOperation i.operationText.toList := by
  obtain ⟨c, rest, heq, hc, _⟩ := exists_head_operationText h
  refine ⟨by simp [heq], by simpa [heq] using hc, fun hlast => ?_⟩
  exact absurd (isDigit_getLast_operationText h hlast) (by decide)

theorem trim_operationText (h : i.opcode? = some op) :
    trim i.operationText.toList = i.operationText.toList := by
  obtain ⟨c, rest, heq, _, hc⟩ := exists_head_operationText h
  refine trim_eq_self (fun d hd => ?_) fun d hd => ?_
  · obtain rfl : c = d := by simpa [heq] using hd
    exact hc
  · exact Argument.not_isBlank_of_isDigit (isDigit_getLast_operationText h hd)

theorem feed_not_mem_operationText (h : i.opcode? = some op) : '\n' ∉ i.operationText.toList := by
  rw [toList_operationText h, List.mem_append, List.mem_append]
  rintro (hname | hblank | harguments)
  · exact op.not_isBlank_of_mem_name _ hname (by decide)
  · exact absurd hblank (by decide)
  · rcases mem_of_mem_intercalate harguments with hsep | ⟨piece, hpiece, hc⟩
    · exact absurd hsep (by decide)
    · obtain ⟨v, _, rfl⟩ := List.mem_map.mp hpiece
      exact Argument.not_isBlank_of_mem_indexText hc (by decide)

end Instruction

namespace Program

/-- The listing of a program, one operation on a line. -/
def listing (p : Program) : String :=
  "\n".intercalate (p.toList.map Instruction.operationText)

/-- All operation codes of the program are known. -/
def Known (p : Program) : Prop :=
  ∀ i ∈ p.toList, i.opcode?.isSome

instance (p : Program) : Decidable p.Known :=
  inferInstanceAs (Decidable (∀ i ∈ p.toList, i.opcode?.isSome))

theorem Known.exists_opcode {p : Program} (h : p.Known) {i : Instruction} (hi : i ∈ p.toList) :
    ∃ op, i.opcode? = some op :=
  Option.isSome_iff_exists.mp (h i hi)

/-- The lines of the listing of a program are the operations of its instructions. -/
theorem texts_listing {p : Program} (h : p.Known) :
    Listing.texts p.listing = p.toList.map (·.operationText.toList) := by
  rw [Listing.texts, listing, String.toList_intercalate, List.map_map]
  refine map_trim_lines_intercalate ?_ ?_ ?_ <;> intro text htext <;>
    obtain ⟨i, hi, rfl⟩ := List.mem_map.mp htext <;>
    obtain ⟨op, hop⟩ := h.exists_opcode hi
  · exact Instruction.feed_not_mem_operationText hop
  · exact (Instruction.isOperation_operationText hop).1
  · exact Instruction.trim_operationText hop

theorem isOperation_of_mem_texts {p : Program} (h : p.Known) {text : List Char}
    (htext : text ∈ Listing.texts p.listing) : IsOperation text := by
  rw [texts_listing h] at htext
  obtain ⟨i, hi, rfl⟩ := List.mem_map.mp htext
  obtain ⟨op, hop⟩ := h.exists_opcode hi
  exact Instruction.isOperation_operationText hop

theorem operations_listing {p : Program} (h : p.Known) :
    Listing.operations p.listing = p.toList.map (·.operationText.toList) := by
  rw [Listing.operations, ← texts_listing h, List.filter_eq_self]
  exact fun text htext => decide_eq_true (isOperation_of_mem_texts h htext)

theorem labels_listing {p : Program} (h : p.Known) : Listing.labels p.listing = [] := by
  rw [Listing.labels, List.filter_eq_nil_iff]
  intro text htext hlabel
  exact (of_decide_eq_true hlabel).not_isOperation (isOperation_of_mem_texts h htext)

theorem known_of_ofListing {listing : String} {p : Program} (h : ofListing listing = .ok p) :
    p.Known := by
  obtain ⟨labels, _, hall⟩ := ofListing_eq_ok_iff_labels.mp h
  intro i hi
  obtain ⟨text, htext⟩ := forall_of_forall₂ hall.flip i hi
  obtain ⟨_, _, op, values, _, _, _, hvalues⟩ := Instruction.ofOperation_eq_ok_iff_parts.mp htext
  rw [(Instruction.ofValues_carries hvalues).2.1, Option.isSome_some]

theorem ofListing_listing {p : Program} (hsize : p.size < 0x100000000) (h : p.Known) :
    ofListing p.listing = .ok p := by
  have hoperations := operations_listing h
  have hlength : (Listing.operations p.listing).length = p.size := by
    rw [hoperations, List.length_map]
    rfl
  rw [Listing.ofListing_eq_ok_iff (by rw [hlength]; exact hsize), labels_listing h, hoperations]
  refine ⟨List.nodup_nil, ?_⟩
  rw [List.forall₂_map_left_iff, List.forall₂_same]
  intro i hi
  obtain ⟨op, hop⟩ := h.exists_opcode hi
  exact ⟨op, _, Instruction.reads_operationText hop, Instruction.carries_arguments hop⟩

/-- Every program that a listing assembles to has known operation codes only, and every such program
is what its own listing assembles to. -/
theorem assembly_reaches_known_programs :
    (∀ listing p, ofListing listing = .ok p → p.Known) ∧
    ∀ p : Program, p.size < 0x100000000 → p.Known → ofListing p.listing = .ok p :=
  ⟨fun _ _ => known_of_ofListing, fun _ => ofListing_listing⟩

example : listing (.ofList [.long .li 0xFFFFFFFF 7, .short .addi 1 2 0xFFFF, .bare .ret]) =
    "li $4294967295, $7\naddi $1, $2, $65535\nret $0, $0, $0" := by
  decide +kernel

/-- A long argument of 32 bits is kept although no integer literal is that large. -/
theorem assembly_reaches_known_programs_wide :
    ofListing (listing (.ofList [.long .jmp 0xFFFFFFFF 7, .short .addi 1 2 0xFFFF])) =
      .ok (.ofList [.long .jmp 0xFFFFFFFF 7, .short .addi 1 2 0xFFFF]) :=
  assembly_reaches_known_programs.2 _ (by decide) (by decide)

end Program

end RegisterMachine
