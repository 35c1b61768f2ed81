import RegisterMachine.Proofs.LabelOffsets
import RegisterMachine.Proofs.OperationErrors

namespace RegisterMachine

def AllBlank (text : List Char) : Prop :=
  ∀ c ∈ text, isBlank c

/-- Blanks that keep what is before them apart from what is behind. -/
def IsGap (text : List Char) : Prop :=
  text ≠ [] ∧ AllBlank text

def IsWord (text : List Char) : Prop :=
  text ≠ [] ∧ ∀ c ∈ text, ¬isBlank c

-- The characters are those of the text: a search through all characters would not come to an end.
instance : DecidablePred AllBlank := fun text => List.decidableBAll (isBlank ·) text

instance : DecidablePred IsGap := fun _ => inferInstanceAs (Decidable (_ ∧ _))

instance : DecidablePred IsWord := fun text =>
  @instDecidableAnd _ _ inferInstance (List.decidableBAll (¬isBlank ·) text)

namespace Listing

/-- A line that is empty up to blanks, or a comment. -/
def IsSilent (line : List Char) : Prop :=
  trim line = [] ∨ (trim line).head? = some '#'

instance : DecidablePred IsSilent := fun _ => inferInstanceAs (Decidable (_ ∨ _))

/-- One change of the blanks of a line. Inside a line they change only if it is an operation:
behind the mnemonic, where some must remain, and around a comma of the arguments. -/
inductive Respaced : List Char → List Char → Prop where
  | ends {lead lead' body trail trail' : List Char} (hlead : AllBlank lead)
      (hlead' : AllBlank lead') (htrail : AllBlank trail) (htrail' : AllBlank trail') :
      Respaced (lead ++ (body ++ trail)) (lead' ++ (body ++ trail'))
  | gap {lead mnemonic run run' rest : List Char} (hlead : AllBlank lead)
      (hm : IsWord mnemonic) (hrun : IsGap run) (hrun' : IsGap run')
      (hop : IsOperation (trim (lead ++ (mnemonic ++ (run ++ rest))))) :
      Respaced (lead ++ (mnemonic ++ (run ++ rest))) (lead ++ (mnemonic ++ (run' ++ rest)))
  | comma {lead mnemonic before left left' right right' after : List Char}
      (hlead : AllBlank lead) (hm : IsWord mnemonic) (hleft : AllBlank left)
      (hleft' : AllBlank left') (hright : AllBlank right) (hright' : AllBlank right')
      (hrun : (before ++ left).head?.any isBlank) (hrun' : (before ++ left').head?.any isBlank)
      (hop : IsOperation
        (trim (lead ++ (mnemonic ++ (before ++ left ++ ',' :: (right ++ after)))))) :
      Respaced (lead ++ (mnemonic ++ (before ++ left ++ ',' :: (right ++ after))))
        (lead ++ (mnemonic ++ (before ++ left' ++ ',' :: (right' ++ after))))

/-- One change of the layout. The lines are the pieces between line feeds, and the function says
which number each of them has afterwards. -/
inductive Edit : List (List Char) → List (List Char) → (Nat → Nat) → Prop where
  | insert {before after : List (List Char)} {line : List Char} (hline : IsSilent line) :
      Edit (before ++ after) (before ++ line :: after)
        fun n => if n ≤ before.length then n else n + 1
  | delete {before after : List (List Char)} {line : List Char} (hline : IsSilent line) :
      Edit (before ++ line :: after) (before ++ after)
        fun n => if n ≤ before.length then n else n - 1
  | carriage {before after : List (List Char)} {line : List Char} (hfeed : after ≠ []) :
      Edit (before ++ line :: after) (before ++ (line ++ ['\r']) :: after) id
  | respace {before after : List (List Char)} {line line' : List Char}
      (h : Respaced line line') : Edit (before ++ line :: after) (before ++ line' :: after) id

/-- Any number of changes of the layout, one after the other. -/
inductive Relaid (listing : String) : String → (Nat → Nat) → Prop where
  | same : Relaid listing listing id
  | edit {middle last : String} {renumber renumber' : Nat → Nat}
      (h : Relaid listing middle renumber)
      (hedit : Edit (middle.toList.splitOn '\n') (last.toList.splitOn '\n') renumber') :
      Relaid listing last (renumber' ∘ renumber)

end Listing

namespace Operation

theorem ofOperation_congr {text text' : List Char}
    (hmnemonic : (splitAtBlank text).1 = (splitAtBlank text').1)
    (hargs : arguments text = arguments text') (labels : Labels) :
    Instruction.ofOperation labels text = Instruction.ofOperation labels text' := by
  obtain ⟨mnemonic, args, hparts⟩ := exists_parts text
  obtain ⟨rfl, rfl⟩ := parts_iff.mp hparts
  have hparts' : Parts text' (splitAtBlank text).1 (arguments text) :=
    parts_iff.mpr ⟨hmnemonic.symm, hargs.symm⟩
  by_cases hm : ∃ op, Opcode.Mnemonic (splitAtBlank text).1 op
  · obtain ⟨op, hm⟩ := hm
    rw [Instruction.ofOperation_of_mnemonic hparts hm,
      Instruction.ofOperation_of_mnemonic hparts' hm]
  · rw [Instruction.ofOperation_of_no_mnemonic hparts (not_exists.mp hm),
      Instruction.ofOperation_of_no_mnemonic hparts' (not_exists.mp hm)]

/-- Texts behind a mnemonic that hold the same arguments and end with the same character, blanks
apart. -/
structure SameTail (tail tail' : List Char) : Prop where
  head : tail.head?.any isBlank
  head' : tail'.head?.any isBlank
  last : (trimRight tail).getLast? = (trimRight tail').getLast?
  pieces : (tail.splitOn ',').map trim = (tail'.splitOn ',').map trim

theorem getLast?_trimRight_of_allBlank {text : List Char} (h : AllBlank text) :
    (trimRight text).getLast? = none := by
  rw [trimRight_eq_nil_iff.mpr h, List.getLast?_nil]

theorem any_head?_append {text : List Char} (h : text.head?.any isBlank) (rest : List Char) :
    (text ++ rest).head?.any isBlank := by
  cases text with
  | nil => simp at h
  | cons c others => exact h

theorem any_head?_gap {run : List Char} (h : IsGap run) : run.head?.any isBlank := by
  obtain ⟨c, others, rfl⟩ := List.exists_cons_of_ne_nil h.1
  exact h.2 c List.mem_cons_self

theorem sameTail_gap {run run' : List Char} (hrun : IsGap run) (hrun' : IsGap run')
    (rest : List Char) : SameTail (run ++ rest) (run' ++ rest) where
  head := any_head?_append (any_head?_gap hrun) rest
  head' := any_head?_append (any_head?_gap hrun') rest
  last := by
    rw [getLast?_trimRight_append, getLast?_trimRight_append,
      getLast?_trimRight_of_allBlank hrun.2, getLast?_trimRight_of_allBlank hrun'.2]
  pieces := by
    rw [map_trim_splitOn_append_left not_isBlank_comma hrun.2,
      map_trim_splitOn_append_left not_isBlank_comma hrun'.2]

theorem getLast?_trimRight_comma {right : List Char} (hright : AllBlank right)
    (before after : List Char) :
    (trimRight (before ++ ',' :: (right ++ after))).getLast? =
      (trimRight after).getLast?.or (some ',') := by
  have hcomma : (trimRight [',']).getLast? = some ',' := by decide
  rw [← List.singleton_append, getLast?_trimRight_append, getLast?_trimRight_append,
    getLast?_trimRight_append, getLast?_trimRight_of_allBlank hright, hcomma]
  cases (trimRight after).getLast? <;> rfl

theorem map_trim_splitOn_comma {left right : List Char} (hleft : AllBlank left)
    (hright : AllBlank right) (before after : List Char) :
    ((before ++ left ++ ',' :: (right ++ after)).splitOn ',').map trim =
      (before.splitOn ',').map trim ++ (after.splitOn ',').map trim := by
  rw [List.splitOn_append_cons_self, List.map_append,
    map_trim_splitOn_append_right not_isBlank_comma hleft,
    map_trim_splitOn_append_left not_isBlank_comma hright]

theorem sameTail_comma {before left left' right right' : List Char} (hleft : AllBlank left)
    (hleft' : AllBlank left') (hright : AllBlank right) (hright' : AllBlank right')
    (hrun : (before ++ left).head?.any isBlank) (hrun' : (before ++ left').head?.any isBlank)
    (after : List Char) :
    SameTail (before ++ left ++ ',' :: (right ++ after))
      (before ++ left' ++ ',' :: (right' ++ after)) where
  head := any_head?_append hrun _
  head' := any_head?_append hrun' _
  last := by rw [getLast?_trimRight_comma hright, getLast?_trimRight_comma hright']
  pieces := by rw [map_trim_splitOn_comma hleft hright, map_trim_splitOn_comma hleft' hright']

theorem trim_operation {lead mnemonic : List Char} (hlead : AllBlank lead) (hm : IsWord mnemonic)
    (tail : List Char) : trim (lead ++ (mnemonic ++ tail)) = mnemonic ++ trimRight tail := by
  have hleft : (mnemonic ++ tail).dropWhile isBlank = mnemonic ++ tail := by
    obtain ⟨c, others, rfl⟩ := List.exists_cons_of_ne_nil hm.1
    exact List.dropWhile_cons_of_neg (hm.2 c List.mem_cons_self)
  have hright : trimRight mnemonic = mnemonic :=
    trimRight_eq_self fun c hc => hm.2 c (List.mem_of_getLast? hc)
  rw [trim_append_left hlead, trim, trimLeft, hleft, trimRight_append, hright]
  split
  next h => rw [h, List.append_nil]
  next => rfl

theorem parts_of_tail {mnemonic tail : List Char} (hm : IsWord mnemonic)
    (htail : tail.head?.any isBlank) :
    (splitAtBlank (mnemonic ++ trimRight tail)).1 = mnemonic ∧
      arguments (mnemonic ++ trimRight tail) =
        if (trimRight tail).getLast? = none then [] else (tail.splitOn ',').map trim := by
  obtain ⟨blanks, hblanks, happend⟩ := exists_trimRight_append tail
  have hhead : ∀ c, (trimRight tail).head? = some c → isBlank c := by
    intro c hc
    rw [← happend, List.head?_append, hc] at htail
    exact htail
  have hsplit := splitAtBlank_mnemonic hm.2 (trimRight tail) hhead
  have hpieces := map_trim_splitOn_append_right not_isBlank_comma hblanks (trimRight tail)
  rw [happend] at hpieces
  refine ⟨by rw [hsplit], ?_⟩
  simp only [arguments, hsplit, hpieces, List.getLast?_eq_none_iff]

theorem SameTail.isOperation {lead mnemonic tail tail' : List Char} (h : SameTail tail tail')
    (hlead : AllBlank lead) (hm : IsWord mnemonic)
    (hop : IsOperation (trim (lead ++ (mnemonic ++ tail)))) :
    IsOperation (trim (lead ++ (mnemonic ++ tail'))) := by
  rw [trim_operation hlead hm] at hop ⊢
  obtain ⟨c, others, rfl⟩ := List.exists_cons_of_ne_nil hm.1
  refine ⟨by simp, by simpa using hop.2.1, ?_⟩
  have hlast := hop.2.2
  rwa [List.getLast?_append, h.last, ← List.getLast?_append] at hlast

theorem SameTail.ofOperation_eq {lead mnemonic tail tail' : List Char} (h : SameTail tail tail')
    (hlead : AllBlank lead) (hm : IsWord mnemonic) (labels : Labels) :
    Instruction.ofOperation labels (trim (lead ++ (mnemonic ++ tail))) =
      Instruction.ofOperation labels (trim (lead ++ (mnemonic ++ tail'))) := by
  rw [trim_operation hlead hm, trim_operation hlead hm]
  obtain ⟨hmnemonic, hargs⟩ := parts_of_tail hm h.head
  obtain ⟨hmnemonic', hargs'⟩ := parts_of_tail hm h.head'
  apply ofOperation_congr
  · rw [hmnemonic, hmnemonic']
  · rw [hargs, hargs', h.last, h.pieces]

end Operation

namespace Statement

/-- Statements that say the same: the same label, or operations that become the same instruction
or fail with the same cause wherever the labels are. -/
inductive Alike : Statement → Statement → Prop where
  | label (name : List Char) : Alike (.label name) (.label name)
  | operation {text text' : List Char}
      (h : ∀ labels, Instruction.ofOperation labels text =
        Instruction.ofOperation labels text') :
      Alike (.operation text) (.operation text')

theorem alike_refl (s : Statement) : Alike s s := by
  cases s with
  | label name => exact .label name
  | operation text => exact .operation fun _ => rfl

theorem ofLine?_congr {line line' : List Char} (h : trim line = trim line') :
    ofLine? line = ofLine? line' := by
  simp only [ofLine?, h]

theorem alike_of_trim {line line' : List Char} (h : trim line = trim line') :
    Option.Rel Alike (ofLine? line) (ofLine? line') := by
  rw [ofLine?_congr h]
  cases ofLine? line' with
  | none => exact .none
  | some s => exact .some (alike_refl s)

theorem alike_of_sameTail {lead mnemonic tail tail' : List Char}
    (h : Operation.SameTail tail tail') (hlead : AllBlank lead) (hm : IsWord mnemonic)
    (hop : IsOperation (trim (lead ++ (mnemonic ++ tail)))) :
    Option.Rel Alike (ofLine? (lead ++ (mnemonic ++ tail)))
      (ofLine? (lead ++ (mnemonic ++ tail'))) := by
  rw [ofLine?_of_isOperation hop, ofLine?_of_isOperation (h.isOperation hlead hm hop)]
  exact .some (.operation (h.ofOperation_eq hlead hm))

theorem alike_of_respaced {line line' : List Char} (h : Listing.Respaced line line') :
    Option.Rel Alike (ofLine? line) (ofLine? line') := by
  cases h with
  | ends hlead hlead' htrail htrail' =>
    apply alike_of_trim
    rw [trim_append_left hlead, trim_append_right htrail, trim_append_left hlead',
      trim_append_right htrail']
  | gap hlead hm hrun hrun' hop =>
    exact alike_of_sameTail (Operation.sameTail_gap hrun hrun' _) hlead hm hop
  | comma hlead hm hleft hleft' hright hright' hrun hrun' hop =>
    exact alike_of_sameTail
      (Operation.sameTail_comma hleft hleft' hright hright' hrun hrun' _) hlead hm hop

theorem ofLine?_of_isSilent {line : List Char} (h : Listing.IsSilent line) :
    ofLine? line = none := by
  unfold ofLine?
  rcases h with h | h
  · simp [h]
  · simp [h]

end Statement

namespace Line

variable {renumber : Nat → Nat}

/-- Lines that say the same under another number. -/
def Alike (renumber : Nat → Nat) (a b : Line) : Prop :=
  b.number = renumber a.number ∧ a.statement.Alike b.statement

theorem numbered_append (first : Nat) (raw raw' : List (List Char)) :
    numbered first (raw ++ raw') = numbered first raw ++ numbered (first + raw.length) raw' := by
  rw [numbered, List.zipIdx_append, List.filterMap_append]
  rfl

theorem numbered_cons (first : Nat) (line : List Char) (raw : List (List Char)) :
    numbered first (line :: raw) =
      ((Statement.ofLine? line).map (Line.mk first)).toList ++ numbered (first + 1) raw := by
  cases h : Statement.ofLine? line with
  | none => simp [numbered, h]
  | some statement => simp [numbered, h]

theorem numbered_cons_of_isSilent {line : List Char} (h : Listing.IsSilent line) (first : Nat)
    (raw : List (List Char)) : numbered first (line :: raw) = numbered (first + 1) raw := by
  rw [numbered_cons, Statement.ofLine?_of_isSilent h]
  rfl

theorem numbered_cons_alike {line line' : List Char} {raw raw' : List (List Char)}
    {first first' : Nat}
    (hline : Option.Rel Statement.Alike (Statement.ofLine? line) (Statement.ofLine? line'))
    (hnumber : renumber first = first')
    (hraw : List.Forall₂ (Alike renumber) (numbered (first + 1) raw)
      (numbered (first' + 1) raw')) :
    List.Forall₂ (Alike renumber) (numbered first (line :: raw))
      (numbered first' (line' :: raw')) := by
  rw [numbered_cons, numbered_cons]
  generalize Statement.ofLine? line = said at hline ⊢
  generalize Statement.ofLine? line' = said' at hline ⊢
  cases hline with
  | none => exact hraw
  | some h => exact .cons ⟨hnumber.symm, h⟩ hraw

/-- The same lines, counted from another number on. -/
theorem numbered_alike {raw : List (List Char)} {first first' : Nat}
    (h : ∀ k < raw.length, renumber (first + k) = first' + k) :
    List.Forall₂ (Alike renumber) (numbered first raw) (numbered first' raw) := by
  induction raw generalizing first first' with
  | nil => exact .nil
  | cons line raw ih =>
    refine numbered_cons_alike (Statement.alike_of_trim rfl) (h 0 (by simp)) (ih fun k hk => ?_)
    have hnext := h (k + 1) (by simpa using hk)
    rw [Nat.add_right_comm, Nat.add_assoc, hnext]
    omega

theorem alike_of_edit {raw raw' : List (List Char)} (h : Listing.Edit raw raw' renumber) :
    List.Forall₂ (Alike renumber) (numbered 1 raw) (numbered 1 raw') := by
  cases h with
  | insert hline =>
    rw [numbered_append, numbered_append, numbered_cons_of_isSilent hline]
    refine List.rel_append (numbered_alike fun k hk => ?_) (numbered_alike fun k hk => ?_)
    · rw [if_pos (by omega)]
    · rw [if_neg (by omega)]
      omega
  | delete hline =>
    rw [numbered_append, numbered_append, numbered_cons_of_isSilent hline]
    refine List.rel_append (numbered_alike fun k hk => ?_) (numbered_alike fun k hk => ?_)
    · rw [if_pos (by omega)]
    · rw [if_neg (by omega)]
      omega
  | carriage _ =>
    rw [numbered_append, numbered_append]
    refine List.rel_append (numbered_alike fun _ _ => rfl) ?_
    refine numbered_cons_alike (Statement.alike_of_trim ?_) rfl (numbered_alike fun _ _ => rfl)
    rw [trim_append_right (List.forall_mem_singleton.mpr rfl)]
  | respace h =>
    rw [numbered_append, numbered_append]
    refine List.rel_append (numbered_alike fun _ _ => rfl) ?_
    exact numbered_cons_alike (Statement.alike_of_respaced h) rfl (numbered_alike fun _ _ => rfl)

theorem numbered_congr {raw raw' : List (List Char)} (h : raw.map trim = raw'.map trim)
    (first : Nat) : numbered first raw = numbered first raw' := by
  induction raw generalizing raw' first with
  | nil => rw [List.map_eq_nil_iff.mp h.symm]
  | cons line raw ih =>
    cases raw' with
    | nil => cases h
    | cons line' raw' =>
      obtain ⟨hline, hraw⟩ := List.cons.inj h
      rw [numbered_cons, numbered_cons, Statement.ofLine?_congr hline, ih hraw]

/-- The lines that say something can be taken from all the pieces between line feeds. -/
theorem ofListing_eq_numbered (text : List Char) :
    ofListing text = numbered 1 (text.splitOn '\n') := by
  obtain ⟨blank, hblank, hpieces⟩ := map_trim_splitOn text
  have hlast : numbered (1 + (lines text).length) blank = [] := by
    rcases hblank with rfl | rfl
    · rfl
    · exact numbered_cons_of_isSilent (.inl rfl) _ []
  have htrim : blank.map trim = blank := by
    rcases hblank with rfl | rfl <;> rfl
  have hmap : (text.splitOn '\n').map trim = (lines text ++ blank).map trim := by
    rw [List.map_append, htrim, hpieces]
  rw [numbered_congr hmap, numbered_append, hlast, List.append_nil]
  rfl

end Line

/-- The same error under another number of its line. -/
def AssemblyError.renumbered (renumber : Nat → Nat) (e : AssemblyError) : AssemblyError :=
  { e with line := renumber e.line }

theorem mapError_bind {ε ε' α β : Type} (k : ε → ε') (x : Except ε α) (f : α → Except ε β) :
    (x >>= f).mapError k = x.mapError k >>= fun a => (f a).mapError k := by
  cases x <;> rfl

theorem mapM_of_forall₂ {ε α β γ : Type} {k : ε → ε} {f : α → Except ε γ} {g : β → Except ε γ}
    {xs : List α} {ys : List β}
    (h : List.Forall₂ (fun x y => g y = (f x).mapError k) xs ys) :
    ys.mapM g = (xs.mapM f).mapError k := by
  induction h with
  | nil => rfl
  | cons hxy _ ih =>
    rw [List.mapM_cons, List.mapM_cons, hxy, ih, mapError_bind]
    simp only [mapError_bind]
    rfl

namespace Labels

theorem extend_alike {renumber : Nat → Nat} {lines lines' : List Line}
    (h : List.Forall₂ (Line.Alike renumber) lines lines') (labels : Labels) (offset : Nat) :
    extend labels lines' offset =
      (extend labels lines offset).mapError (AssemblyError.renumbered renumber) := by
  induction h generalizing labels offset with
  | nil => rfl
  | @cons line line' lines lines' hline _ ih =>
    obtain ⟨number, statement⟩ := line
    obtain ⟨number', statement'⟩ := line'
    obtain ⟨rfl, halike⟩ := hline
    cases halike with
    | label name =>
      rw [extend, extend]
      split
      next => rfl
      next => exact ih _ _
    | operation _ =>
      rw [extend, extend]
      exact ih _ _

end Labels

namespace Program

theorem operations_alike {renumber : Nat → Nat} {lines lines' : List Line}
    (h : List.Forall₂ (Line.Alike renumber) lines lines') (labels : Labels) :
    List.Forall₂ (fun a b : List Char × Nat =>
      ((Instruction.ofOperation labels b.1).mapError fun cause => AssemblyError.mk b.2 cause) =
        ((Instruction.ofOperation labels a.1).mapError fun cause =>
          AssemblyError.mk a.2 cause).mapError (AssemblyError.renumbered renumber))
      (lines.filterMap Line.operation?) (lines'.filterMap Line.operation?) := by
  induction h with
  | nil => exact .nil
  | @cons line line' lines lines' hline _ ih =>
    obtain ⟨number, statement⟩ := line
    obtain ⟨number', statement'⟩ := line'
    obtain ⟨rfl, halike⟩ := hline
    cases halike with
    | label name => exact ih
    | operation heq =>
      refine .cons ?_ ih
      rw [heq labels]
      cases Instruction.ofOperation labels _ <;> rfl

theorem ofLines_alike {renumber : Nat → Nat} {lines lines' : List Line}
    (h : List.Forall₂ (Line.Alike renumber) lines lines') :
    ofLines lines' = (ofLines lines).mapError (AssemblyError.renumbered renumber) := by
  rw [ofLines, ofLines, mapError_bind, Labels.ofLines, Labels.ofLines, Labels.extend_alike h]
  refine congrArg _ (funext fun labels => ?_)
  rw [mapError_bind, mapM_of_forall₂ (operations_alike h labels)]
  rfl

end Program

namespace Listing

theorem Relaid.edit_lines {listing middle last : String} {raw raw' : List (List Char)}
    {renumber renumber' : Nat → Nat} (h : Relaid listing middle renumber)
    (hmiddle : middle.toList.splitOn '\n' = raw) (hlast : last.toList.splitOn '\n' = raw')
    (hedit : Edit raw raw' renumber') : Relaid listing last (renumber' ∘ renumber) := by
  subst hmiddle hlast
  exact .edit h hedit

theorem ofListing_of_edit {listing edited : String} {renumber : Nat → Nat}
    (h : Edit (listing.toList.splitOn '\n') (edited.toList.splitOn '\n') renumber) :
    Program.ofListing edited =
      (Program.ofListing listing).mapError (AssemblyError.renumbered renumber) := by
  rw [Program.ofListing, Program.ofListing, Line.ofListing_eq_numbered,
    Line.ofListing_eq_numbered]
  exact Program.ofLines_alike (Line.alike_of_edit h)

/-- The layout does not matter: a listing laid out otherwise becomes the same program, or is
refused with the same error on the line that its line has become. -/
theorem layout_without_influence {listing relaid : String} {renumber : Nat → Nat}
    (h : Relaid listing relaid renumber) :
    Program.ofListing relaid =
      (Program.ofListing listing).mapError (AssemblyError.renumbered renumber) := by
  induction h with
  | same => cases Program.ofListing listing <;> rfl
  | edit _ hedit ih =>
    rw [ofListing_of_edit hedit, ih]
    cases Program.ofListing listing <;> rfl

theorem layout_without_influence_respaced :
    let listing := "start:\nli 5i,$3\nbogus x"
    let relaid := "# head\nstart:\r\nli\t 5i , $3\nbogus x"
    ∃ renumber, Relaid listing relaid renumber ∧
      Program.ofListing listing = .error ⟨3, .unknownMnemonic "bogus"⟩ ∧
      Program.ofListing relaid = .error ⟨4, .unknownMnemonic "bogus"⟩ := by
  intro listing relaid
  have hhead : Relaid listing "# head\nstart:\nli 5i,$3\nbogus x" _ :=
    Relaid.same.edit_lines (by decide +kernel) (by decide +kernel)
      (@Edit.insert [] ["start:".toList, "li 5i,$3".toList, "bogus x".toList] "# head".toList
        (by decide))
  have hreturn : Relaid listing "# head\nstart:\r\nli 5i,$3\nbogus x" _ :=
    hhead.edit_lines (by decide +kernel) (by decide +kernel)
      (@Edit.carriage ["# head".toList] ["li 5i,$3".toList, "bogus x".toList] "start:".toList
        (by decide))
  have hgap : Relaid listing "# head\nstart:\r\nli\t 5i,$3\nbogus x" _ :=
    hreturn.edit_lines (by decide +kernel) (by decide +kernel)
      (@Edit.respace ["# head".toList, "start:\r".toList] ["bogus x".toList] _ _
        (@Respaced.gap [] "li".toList " ".toList "\t ".toList "5i,$3".toList (by decide)
          (by decide) (by decide) (by decide) (by decide)))
  have hcomma : Relaid listing relaid _ :=
    hgap.edit_lines (by decide +kernel) (by decide +kernel)
      (@Edit.respace ["# head".toList, "start:\r".toList] ["bogus x".toList] _ _
        (@Respaced.comma [] "li".toList "\t 5i".toList [] " ".toList [] " ".toList "$3".toList
          (by decide) (by decide) (by decide) (by decide) (by decide) (by decide) (by decide)
          (by decide) (by decide)))
  have herror : Program.ofListing listing = .error ⟨3, .unknownMnemonic "bogus"⟩ := by
    decide +kernel
  refine ⟨_, hcomma, herror, ?_⟩
  rw [layout_without_influence hcomma, herror]
  rfl

end Listing

end RegisterMachine
