import RegisterMachine.Proofs.RelabelledText

namespace RegisterMachine

/-- New names for the given ones, different names for different ones. -/
structure IsRenaming (f : List Char → List Char) (names : List (List Char)) : Prop where
  isName : ∀ name ∈ names, IsName (f name)
  injective : ∀ a ∈ names, ∀ b ∈ names, f a = f b → a = b

def Labels.relabelled (f : List Char → List Char) (labels : Labels) : Labels :=
  labels.map fun entry => (f entry.1, entry.2)

def Cause.relabelled (f : List Char → List Char) : Cause → Cause
  | unknownLabel reference =>
    unknownLabel (String.ofList (Argument.relabelled f reference.toList))
  | duplicateLabel name => duplicateLabel (String.ofList (f name.toList))
  | cause => cause

/-- The same error on the same line, with another name in it. -/
def AssemblyError.relabelled (f : List Char → List Char) (e : AssemblyError) : AssemblyError :=
  { e with cause := e.cause.relabelled f }

variable {f : List Char → List Char}

namespace Labels

variable {names : List (List Char)} {labels : Labels}

theorem lookup_relabelled (hf : ∀ a ∈ names, ∀ b ∈ names, f a = f b → a = b)
    (hlabels : ∀ entry ∈ labels, entry.1 ∈ names) {name : List Char} (hname : name ∈ names) :
    (labels.relabelled f).lookup (f name) = labels.lookup name := by
  induction labels with
  | nil => rfl
  | cons entry labels ih =>
    obtain ⟨hentry, hrest⟩ := List.forall_mem_cons.mp hlabels
    have hiff : f name = f entry.1 ↔ name = entry.1 :=
      ⟨hf name hname entry.1 hentry, congrArg f⟩
    rw [relabelled, List.map_cons, lookup_cons_eq_ite, lookup_cons_eq_ite, ← relabelled, ih hrest]
    simp only [hiff]

theorem mem_names_of_extend {lines : List Line} {offset : Nat} {out : Labels}
    (hlabels : ∀ entry ∈ labels, entry.1 ∈ names)
    (hlines : ∀ line ∈ lines, ∀ name ∈ line.statement.names, name ∈ names)
    (h : extend labels lines offset = .ok out) : ∀ entry ∈ out, entry.1 ∈ names := by
  induction lines generalizing labels offset with
  | nil =>
    cases Except.ok.inj h
    exact hlabels
  | cons line lines ih =>
    obtain ⟨hline, hrest⟩ := List.forall_mem_cons.mp hlines
    obtain ⟨number, statement⟩ := line
    cases statement with
    | label name =>
      have hname : name ∈ names := hline name (List.mem_singleton.mpr rfl)
      have hmore : ∀ entry ∈ (name, offset) :: labels, entry.1 ∈ names :=
        List.forall_mem_cons.mpr ⟨hname, hlabels⟩
      exact ih hmore hrest (extend_label.mp h).2
    | operation text => exact ih hlabels hrest h

/-- By induction on the lines: the labels found so far are always among the names, and on these the
renaming is one-to-one, so that the same line is the first with a repeated label. -/
theorem extend_relabelled (hf : ∀ a ∈ names, ∀ b ∈ names, f a = f b → a = b) {lines : List Line}
    (hlabels : ∀ entry ∈ labels, entry.1 ∈ names)
    (hlines : ∀ line ∈ lines, ∀ name ∈ line.statement.names, name ∈ names) (offset : Nat) :
    extend (labels.relabelled f) (lines.map (Line.relabelled f)) offset =
      ((extend labels lines offset).map (relabelled f)).mapError (AssemblyError.relabelled f) := by
  induction lines generalizing labels offset with
  | nil => rfl
  | cons line lines ih =>
    obtain ⟨hline, hrest⟩ := List.forall_mem_cons.mp hlines
    obtain ⟨number, statement⟩ := line
    cases statement with
    | label name =>
      have hname : name ∈ names := hline name (List.mem_singleton.mpr rfl)
      have hmore : ∀ entry ∈ (name, offset) :: labels, entry.1 ∈ names :=
        List.forall_mem_cons.mpr ⟨hname, hlabels⟩
      rw [List.map_cons, Line.relabelled, Statement.relabelled, extend, extend,
        lookup_relabelled hf hlabels hname]
      split
      next => simp [Except.map, Except.mapError, AssemblyError.relabelled, Cause.relabelled]
      next => exact ih hmore hrest offset
    | operation text => exact ih hlabels hrest (offset + 1)

end Labels

namespace Argument

theorem relabelled_complaint {text : List Char} (h : text.head? ≠ some '@') :
    (complaint text).relabelled f = complaint text := by
  rw [complaint, if_neg h]
  split_ifs <;> rfl

/-- Only a text behind `@` looks at the labels. -/
theorem read_of_head_ne {text : List Char} (h : text.head? ≠ some '@') (labels labels' : Labels) :
    read labels' text = read labels text := by
  unfold read
  cases htext : ofText text with
  | error cause => rfl
  | ok a =>
    cases a with
    | label name =>
      rw [text_of_label htext] at h
      exact absurd rfl h
    | register _ | integer _ | float _ => rfl

theorem read_relabelled {labels : Labels} {text : List Char}
    (h : ∀ name, reference? text = some name →
      (labels.relabelled f).lookup (f name) = labels.lookup name) :
    read (labels.relabelled f) (relabelled f text) =
      (read labels text).mapError (Cause.relabelled f) := by
  rcases relabelled_cases f text with ⟨name, rfl, href, hrel⟩ | ⟨hhead, _, hrel⟩
  · have hlookup := h name href
    rw [hrel]
    change value (labels.relabelled f) (.label (f name)) =
      (value labels (.label name)).mapError (Cause.relabelled f)
    rw [value, value, hlookup]
    cases labels.lookup name with
    | none => simp [Except.mapError, Cause.relabelled, hrel]
    | some offset => rfl
  · rw [hrel, read_of_head_ne hhead labels]
    cases hread : read labels text with
    | error cause => rw [cause_of_read hread, Except.mapError, relabelled_complaint hhead]
    | ok w => rfl

end Argument

namespace Instruction

theorem ofValues_relabelled (op : Opcode) (values : List (BitVec 32)) :
    (ofValues op values).mapError (Cause.relabelled f) = ofValues op values := by
  cases h : ofValues op values with
  | error cause =>
    rcases ofValues_eq_error_iff.mp h with ⟨_, rfl⟩ | ⟨_, _, _, rfl⟩ <;> rfl
  | ok i => rfl

theorem ofOperation_relabelled {labels : Labels} {text : List Char}
    (hnames : ∀ name ∈ (Statement.operation text).names, IsName (f name))
    (hlookup : ∀ name ∈ (Statement.operation text).names,
      (labels.relabelled f).lookup (f name) = labels.lookup name) :
    ofOperation (labels.relabelled f) (Operation.relabelled f text) =
      (ofOperation labels text).mapError (Cause.relabelled f) := by
  have hparts : Operation.Parts text (splitAtBlank text).1 (Operation.arguments text) :=
    Operation.parts_iff.mpr ⟨rfl, rfl⟩
  have hparts' := Operation.parts_relabelled hnames
  by_cases hm : ∃ op, Opcode.Mnemonic (splitAtBlank text).1 op
  · obtain ⟨op, hm⟩ := hm
    have hread : List.Forall₂ (fun old new => Argument.read (labels.relabelled f) new =
        (Argument.read labels old).mapError (Cause.relabelled f)) (Operation.arguments text)
        ((Operation.arguments text).map (Argument.relabelled f)) := by
      refine List.forall₂_map_right_iff.mpr (List.forall₂_same.mpr fun arg harg => ?_)
      exact Argument.read_relabelled fun name href =>
        hlookup name (List.mem_filterMap.mpr ⟨arg, harg, href⟩)
    rw [ofOperation_of_mnemonic hparts' hm, ofOperation_of_mnemonic hparts hm,
      mapM_of_forall₂ hread, mapError_bind]
    simp only [ofValues_relabelled]
  · rw [ofOperation_of_no_mnemonic hparts' (not_exists.mp hm),
      ofOperation_of_no_mnemonic hparts (not_exists.mp hm)]
    rfl

end Instruction

namespace Program

theorem ofLines_of_labels {lines : List Line} {labels : Labels}
    (h : Labels.ofLines lines = .ok labels) :
    ofLines lines = ((lines.filterMap Line.operation?).mapM fun operation =>
      (Instruction.ofOperation labels operation.1).mapError fun cause =>
        AssemblyError.mk operation.2 cause) >>= fun instructions => .ok (ofList instructions) := by
  rw [ofLines, h]
  rfl

theorem operations_relabelled {labels : Labels} {lines : List Line}
    (h : ∀ number text, ⟨number, .operation text⟩ ∈ lines →
      Instruction.ofOperation (labels.relabelled f) (Operation.relabelled f text) =
        (Instruction.ofOperation labels text).mapError (Cause.relabelled f)) :
    List.Forall₂ (fun old new : List Char × Nat =>
      ((Instruction.ofOperation (labels.relabelled f) new.1).mapError fun cause =>
          AssemblyError.mk new.2 cause) =
        ((Instruction.ofOperation labels old.1).mapError fun cause =>
          AssemblyError.mk old.2 cause).mapError (AssemblyError.relabelled f))
      (lines.filterMap Line.operation?)
      ((lines.map (Line.relabelled f)).filterMap Line.operation?) := by
  induction lines with
  | nil => exact .nil
  | cons line lines ih =>
    have hrest := ih fun number text hmem => h number text (List.mem_cons_of_mem line hmem)
    obtain ⟨number, statement⟩ := line
    cases statement with
    | label name => exact hrest
    | operation text =>
      refine .cons ?_ hrest
      rw [h number text List.mem_cons_self]
      cases Instruction.ofOperation labels text <;> rfl

theorem ofLines_relabelled {names : List (List Char)} (h : IsRenaming f names) {lines : List Line}
    (hlines : ∀ line ∈ lines, ∀ name ∈ line.statement.names, name ∈ names) :
    ofLines (lines.map (Line.relabelled f)) =
      (ofLines lines).mapError (AssemblyError.relabelled f) := by
  have hnone : ∀ entry ∈ ([] : Labels), entry.1 ∈ names := by simp
  have hextend : Labels.ofLines (lines.map (Line.relabelled f)) =
      ((Labels.ofLines lines).map (Labels.relabelled f)).mapError (AssemblyError.relabelled f) :=
    Labels.extend_relabelled h.injective hnone hlines 0
  cases hfound : Labels.ofLines lines with
  | error e =>
    rw [ofLines, ofLines, hextend, hfound]
    rfl
  | ok labels =>
    have hfound' : Labels.ofLines (lines.map (Line.relabelled f)) = .ok (labels.relabelled f) := by
      rw [hextend, hfound]
      rfl
    -- A name that is looked up need not be a label, but it is one of the names as the labels are.
    have hlabels := Labels.mem_names_of_extend hnone hlines hfound
    have hoperations := operations_relabelled fun number text hmem =>
      have hnames := hlines _ hmem
      Instruction.ofOperation_relabelled (fun name hname => h.isName name (hnames name hname))
        fun name hname => Labels.lookup_relabelled h.injective hlabels (hnames name hname)
    rw [ofLines_of_labels hfound', ofLines_of_labels hfound, mapM_of_forall₂ hoperations,
      mapError_bind]
    rfl

end Program

namespace Listing

/-- The names of labels do not matter: a listing with other names in it becomes the same program,
or is refused with the same error on the same line, the name in it replaced like the others. -/
theorem label_names_without_influence {listing : String} (h : IsRenaming f (names listing)) :
    names (relabelled f listing) = (names listing).map f ∧
      Program.ofListing (relabelled f listing) =
        (Program.ofListing listing).mapError (AssemblyError.relabelled f) := by
  refine ⟨names_relabelled h.isName, ?_⟩
  rw [Program.ofListing, Line.ofListing_relabelled h.isName]
  exact Program.ofLines_relabelled h fun line hline name hname =>
    List.mem_flatMap.mpr ⟨line, hline, hname⟩

theorem label_names_without_influence_literal :
    let f := fun name => if name = "halt".toList then "0i".toList else "halt".toList
    let listing := "halt:\n jmp @halt\ncall\t@li 1i , $0"
    let renamed := "0i:\n jmp @0i\ncall\t@halt , $0"
    IsRenaming f (names listing) ∧ relabelled f listing = renamed ∧
      Program.ofListing listing = .error ⟨3, .unknownLabel "@li 1i"⟩ ∧
      Program.ofListing renamed = .error ⟨3, .unknownLabel "@halt"⟩ := by
  intro f listing renamed
  have hf : IsRenaming f (names listing) := ⟨by decide +kernel, by decide +kernel⟩
  have hrenamed : relabelled f listing = renamed := by decide +kernel
  have herror : Program.ofListing listing = .error ⟨3, .unknownLabel "@li 1i"⟩ := by
    decide +kernel
  refine ⟨hf, hrenamed, herror, ?_⟩
  rw [← hrenamed, (label_names_without_influence hf).2, herror]
  decide +kernel

end Listing

end RegisterMachine
