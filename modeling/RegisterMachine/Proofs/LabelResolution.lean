import RegisterMachine.Proofs.ListingGrammar

namespace RegisterMachine

theorem forall₂_getElem? {α β : Type} {r : α → β → Prop} {xs : List α} {ys : List β}
    (h : List.Forall₂ r xs ys) {j : Nat} {x : α} (hx : xs[j]? = some x) :
    ∃ y, ys[j]? = some y ∧ r x y := by
  induction h generalizing j with
  | nil => simp at hx
  | cons hxy _ ih =>
    cases j with
    | zero =>
      cases Option.some.inj hx
      exact ⟨_, rfl, hxy⟩
    | succ j => exact ih hx

theorem labelledAt_iff_getElem? {texts : List (List Char)} {name : List Char} {k : Nat} :
    LabelledAt texts name k ↔ ∃ place, texts[place]? = some (name ++ [':']) ∧
      IsLabel (name ++ [':']) ∧ (texts.take place).countP (IsOperation ·) = k := by
  constructor
  · rintro ⟨before, after, rfl, hlabel, rfl⟩
    exact ⟨before.length, by simp, hlabel, by simp⟩
  · rintro ⟨place, hplace, hlabel, rfl⟩
    obtain ⟨hlt, heq⟩ := List.getElem?_eq_some_iff.mp hplace
    refine ⟨texts.take place, texts.drop (place + 1), ?_, hlabel, rfl⟩
    rw [← heq, List.getElem_cons_drop, List.take_append_drop]

/-- Labels that are all different stand on one line each. -/
theorem label_place_unique {texts : List (List Char)} (hnodup : (texts.filter (IsLabel ·)).Nodup)
    {text : List Char} (hlabel : IsLabel text) {a b : Nat} (ha : texts[a]? = some text)
    (hb : texts[b]? = some text) : a = b := by
  have hlt : ∀ {a b : Nat}, texts[a]? = some text → texts[b]? = some text → ¬a < b := by
    intro a b ha hb hab
    obtain ⟨hbound, heq⟩ := List.getElem?_eq_some_iff.mp ha
    rw [← List.take_append_drop a texts, ← List.getElem_cons_drop hbound, heq,
      List.filter_append, List.filter_cons_of_pos (by simpa using hlabel)] at hnodup
    have hmem : text ∈ texts.drop (a + 1) := by
      apply List.mem_of_getElem? (i := b - (a + 1))
      rwa [List.getElem?_drop, show a + 1 + (b - (a + 1)) = b by omega]
    have hfresh := (List.nodup_cons.mp (List.nodup_append.mp hnodup).2.1).1
    exact hfresh (List.mem_filter.mpr ⟨hmem, by simpa using hlabel⟩)
  rcases Nat.lt_trichotomy a b with h | h | h
  · exact absurd h (hlt ha hb)
  · exact h
  · exact absurd h (hlt hb ha)

/-- The element of a filtered list behind those of the first `place` elements. -/
theorem getElem?_filter_countP {α : Type} (p : α → Bool) (xs : List α) (place : Nat) :
    (xs.filter p)[(xs.take place).countP p]? = (xs.drop place).find? p := by
  have hsplit : xs.filter p = (xs.take place).filter p ++ (xs.drop place).filter p := by
    rw [← List.filter_append, List.take_append_drop]
  rw [hsplit, List.countP_eq_length_filter, List.getElem?_append_right (Nat.le_refl _),
    Nat.sub_self, ← List.head?_eq_getElem?, List.head?_filter]

/-- The operation that has the offset of a label as its index is the first one after the label. -/
theorem operation_at_offset {texts : List (List Char)} {text : List Char} (hlabel : IsLabel text)
    {place : Nat} (hplace : texts[place]? = some text) :
    (texts.filter (IsOperation ·))[(texts.take place).countP (IsOperation ·)]? =
      (texts.drop (place + 1)).find? (IsOperation ·) := by
  obtain ⟨hlt, heq⟩ := List.getElem?_eq_some_iff.mp hplace
  rw [getElem?_filter_countP, List.drop_eq_getElem_cons hlt, heq,
    List.find?_cons_of_neg (by simpa using hlabel.not_isOperation)]

namespace Argument

theorem denotes_label_iff {offset : List Char → Nat → Prop} {name : List Char} {v : Nat} :
    Denotes offset ('@' :: name) v ↔ offset name v := by
  constructor
  · generalize htext : '@' :: name = text
    intro h
    cases h with
    | label h =>
      obtain rfl := (List.cons.inj htext).2
      exact h
    | index _ _ | register _ => exact absurd (List.cons.inj htext).1 (by decide)
    | integer hd _ =>
      obtain ⟨c, tail, heq, hc⟩ := head_isDigit_of_numeral hd ['i']
      rw [← htext] at heq
      obtain rfl := (List.cons.inj heq).1
      exact absurd hc (by decide)
    | float hd =>
      obtain ⟨c, tail, heq, hc⟩ := head_isDigit_of_literal hd ['f']
      rw [← htext] at heq
      obtain rfl := (List.cons.inj heq).1
      exact absurd hc (by decide)
  · exact .label

end Argument

theorem Instruction.Carries.argument {i : Instruction} {op : Opcode} {values : List Nat}
    (h : i.Carries op values) {place v : Nat} (hv : values[place]? = some v) :
    (i.arguments op)[place]? = some v := by
  have hlt := (List.getElem?_eq_some_iff.mp hv).1
  rw [h.2, List.rightpad, List.getElem?_append_left hlt, hv]

theorem labelledAt_append {xs ys : List (List Char)} {name : List Char} {k : Nat} :
    LabelledAt (xs ++ ys) name k ↔ LabelledAt xs name k ∨
      ∃ n, LabelledAt ys name n ∧ k = n + xs.countP (IsOperation ·) := by
  induction xs generalizing k with
  | nil => simp [LabelledAt]
  | cons x xs ih =>
    simp only [List.cons_append, labelledAt_cons, ih, List.countP_cons, decide_eq_true_eq]
    constructor
    · rintro (h | ⟨n, h | ⟨n', h, rfl⟩, rfl⟩)
      · exact .inl (.inl h)
      · exact .inl (.inr ⟨n, h, rfl⟩)
      · exact .inr ⟨n', h, by omega⟩
    · rintro ((h | ⟨n, h, rfl⟩) | ⟨n, h, rfl⟩)
      · exact .inl h
      · exact .inr ⟨n, .inl h, rfl⟩
      · exact .inr ⟨_, .inr ⟨n, h, rfl⟩, by omega⟩

theorem not_labelledAt {texts : List (List Char)} (h : ∀ text ∈ texts, ¬IsLabel text)
    (name : List Char) (k : Nat) : ¬LabelledAt texts name k := by
  rintro ⟨before, after, rfl, hlabel, _⟩
  exact h _ (by simp) hlabel

namespace Listing

/-- A label that an operation of an assembled listing uses has a line, and the instruction holds
its offset in the place of the argument. -/
theorem exists_label_of_argument {listing : String} {p : Program}
    (hall : List.Forall₂ (Encodes listing) (operations listing) p.toList) {j : Nat}
    {text mnemonic name : List Char} {args : List (List Char)} {place : Nat}
    (htext : (operations listing)[j]? = some text) (hparts : Operation.Parts text mnemonic args)
    (harg : args[place]? = some ('@' :: name)) :
    ∃ i op k, p.toList[j]? = some i ∧ i.opcode? = some op ∧
      (i.arguments op)[place]? = some k ∧ LabelledAt (texts listing) name k := by
  obtain ⟨i, hi, op, values, ⟨mnemonic', args', hparts', _, hdenotes, _⟩, hcarries⟩ :=
    forall₂_getElem? hall htext
  have hargs : args' = args := hparts'.eq_arguments.2.symm.trans hparts.eq_arguments.2
  subst hargs
  obtain ⟨v, hv, hdenotes⟩ := forall₂_getElem? hdenotes harg
  exact ⟨i, op, v, hi, hcarries.1, hcarries.argument hv, Argument.denotes_label_iff.mp hdenotes⟩

def jumpTo (name : List Char) : List Char :=
  "jmp @".toList ++ (name ++ ", 0i".toList)

theorem parts_jumpTo {name : List Char} (hcomma : ',' ∉ name)
    (hblank : ∀ c, name.getLast? = some c → ¬isBlank c) :
    Operation.Parts (jumpTo name) "jmp".toList ['@' :: name, "0i".toList] := by
  have hmnemonic : ∀ c ∈ ['j', 'm', 'p'], ¬isBlank c := by
    intro c hc
    have hcases : c = 'j' ∨ c = 'm' ∨ c = 'p' := by simpa using hc
    rcases hcases with rfl | rfl | rfl <;> decide
  have hblanks : ∀ c ∈ [' '], isBlank c := List.forall_mem_singleton.mpr rfl
  have hpieces : ∀ piece ∈ ['@' :: name, " 0i".toList], ',' ∉ piece := by
    simpa using hcomma
  have hparts := Operation.Parts.pieces hmnemonic (by simp) hblanks (by simp) hpieces
  rw [List.map_cons, trim_reference hblank] at hparts
  exact hparts

theorem reads_jumpTo {listing : String} {name : List Char} {k : Nat}
    (hlabel : LabelledAt (texts listing) name k) (hcomma : ',' ∉ name)
    (hblank : ∀ c, name.getLast? = some c → ¬isBlank c) :
    Reads listing (jumpTo name) .jmp [k, 0] := by
  have hzero : Argument.Denotes (LabelledAt (texts listing)) "0i".toList 0 :=
    .integer (show IsNumeral ['0'] by simp [IsNumeral]) (by decide)
  refine ⟨_, _, parts_jumpTo hcomma hblank, .name .jmp, ?_, ?_⟩
  · exact .cons (.label hlabel) (.cons hzero .nil)
  · simp [Opcode.Fits, Opcode.isLong]

theorem carries_jump {k : Nat} (hk : k < 0x100000000) :
    (Instruction.long .jmp (BitVec.ofNat 32 k) 0).Carries .jmp [k, 0] := by
  refine ⟨Instruction.opcode?_long .., ?_⟩
  simp [Instruction.arguments, Opcode.isLong, Opcode.maxArguments, List.rightpad,
    Nat.mod_eq_of_lt hk]

theorem not_mem_of_mem_texts {listing : String} {text : List Char} (h : text ∈ texts listing) :
    '\n' ∉ text := by
  obtain ⟨line, hline, rfl⟩ := List.mem_map.mp h
  exact fun hc => not_mem_of_mem_lines hline (mem_of_mem_trim hc)

theorem texts_of_toList {listing joined : String} {rest : List Char}
    (hjoined : joined.toList = listing.toList ++ '\n' :: rest) :
    texts joined = (listing.toList.splitOn '\n').map trim ++ (lines rest).map trim := by
  rw [texts, hjoined, lines_append_cons, List.map_append, List.map_map]
  simp [Function.comp_def, trim_dropReturn]

/-- One line more at the end of a listing: what comes before it may get an empty line more. -/
theorem texts_append_line {listing extended : String} {line : List Char}
    (hextended : extended.toList = listing.toList ++ '\n' :: line) (hfeed : '\n' ∉ line)
    (hne : line ≠ []) (htrim : trim line = line) :
    ∃ blank, (blank = [] ∨ blank = [[]]) ∧ texts extended = texts listing ++ blank ++ [line] := by
  obtain ⟨blank, hblank, hpieces⟩ := map_trim_splitOn listing.toList
  refine ⟨blank, hblank, ?_⟩
  rw [texts_of_toList hextended, lines_of_not_mem hfeed hne, hpieces, List.map_singleton, htrim]
  rfl

/-- An operation more at the end of a listing adds its instruction to the program. -/
theorem ofListing_append_operation {listing extended : String} {p : Program} {line : List Char}
    (hextended : extended.toList = listing.toList ++ '\n' :: line) (hfeed : '\n' ∉ line)
    (htrim : trim line = line) (hop : IsOperation line)
    (hsmall : (operations listing).length < 0xFFFFFFFF)
    (hp : Program.ofListing listing = .ok p) {i : Instruction} (hi : Encodes listing line i) :
    Program.ofListing extended = .ok (p.push i) := by
  obtain ⟨blank, hblank, htexts⟩ := texts_append_line hextended hfeed hop.1 htrim
  obtain ⟨hnodup, hall⟩ := (ofListing_eq_ok_iff (by omega)).mp hp
  have hline : ¬IsLabel line := fun hlabel => hlabel.not_isOperation hop
  have hlabels : labels extended = labels listing := by
    rcases hblank with rfl | rfl <;> simp [labels, htexts, hline]
  have hoperations : operations extended = operations listing ++ [line] := by
    rcases hblank with rfl | rfl <;> simp [operations, htexts, hop]
  have hlabelled : LabelledAt (texts extended) = LabelledAt (texts listing) := by
    have hnone : ∀ text ∈ blank ++ [line], ¬IsLabel text := by
      rcases hblank with rfl | rfl <;> simpa using hline
    funext name k
    rw [htexts, List.append_assoc, labelledAt_append]
    simp [not_labelledAt hnone]
  have hencodes : Encodes extended = Encodes listing := by
    unfold Encodes Reads
    rw [hlabelled]
  rw [ofListing_eq_ok_iff (by rw [hoperations, List.length_append, List.length_singleton]; omega),
    hlabels, hoperations, hencodes]
  refine ⟨hnodup, ?_⟩
  have hpush : (p.push i).toList = p.toList ++ [i] := Array.toList_push
  rw [hpush]
  exact List.rel_append hall (.cons hi .nil)

theorem getLast?_jumpTo (name : List Char) : (jumpTo name).getLast? = some 'i' := by
  simp [jumpTo, List.getLast?_append, List.getLast?_cons]

theorem isOperation_jumpTo (name : List Char) : IsOperation (jumpTo name) := by
  refine ⟨by simp [jumpTo], by simp [jumpTo], ?_⟩
  rw [getLast?_jumpTo]
  decide

theorem trim_jumpTo (name : List Char) : trim (jumpTo name) = jumpTo name := by
  apply trim_eq_self
  · intro c hc
    obtain rfl : 'j' = c := Option.some.inj hc
    decide
  · intro c hc
    rw [getLast?_jumpTo] at hc
    obtain rfl : 'i' = c := Option.some.inj hc
    decide

theorem feed_not_mem_jumpTo {name : List Char} (h : '\n' ∉ name) : '\n' ∉ jumpTo name := by
  simpa [jumpTo] using h

/-- The line on which a label stands, counted from zero over all lines. -/
def LabelLine (listing : String) (name : List Char) (line : Nat) : Prop :=
  (texts listing)[line]? = some (name ++ [':']) ∧ IsLabel (name ++ [':'])

def operationsBefore (listing : String) (line : Nat) : Nat :=
  ((texts listing).take line).countP (IsOperation ·)

theorem labelledAt_iff_labelLine {listing : String} {name : List Char} {k : Nat} :
    LabelledAt (texts listing) name k ↔
      ∃ line, LabelLine listing name line ∧ operationsBefore listing line = k := by
  simp only [labelledAt_iff_getElem?, LabelLine, operationsBefore, and_assoc]

theorem encodes_after_label {listing : String} {p : Program}
    (hall : List.Forall₂ (Encodes listing) (operations listing) p.toList) {name : List Char}
    {line : Nat} (hline : LabelLine listing name line) {next : List Char}
    (hnext : ((texts listing).drop (line + 1)).find? (IsOperation ·) = some next) :
    (operations listing)[operationsBefore listing line]? = some next ∧
      ∃ i, p.toList[operationsBefore listing line]? = some i ∧ Encodes listing next i := by
  rw [← operation_at_offset hline.2 hline.1] at hnext
  exact ⟨hnext, forall₂_getElem? hall hnext⟩

theorem ofListing_append_jump {listing : String} {p : Program}
    (hsmall : (operations listing).length < 0xFFFFFFFF)
    (hp : Program.ofListing listing = .ok p) {name : List Char} {line : Nat}
    (hline : LabelLine listing name line) (hcomma : ',' ∉ name)
    (hblank : ∀ c, name.getLast? = some c → ¬isBlank c) :
    Program.ofListing (listing ++ "\njmp @" ++ String.ofList name ++ ", 0i") =
      .ok (p.push (.long .jmp (BitVec.ofNat 32 (operationsBefore listing line)) 0)) := by
  have hlabelled := labelledAt_iff_labelLine.mpr ⟨line, hline, rfl⟩
  have hfeed : '\n' ∉ name := fun hc =>
    not_mem_of_mem_texts (List.mem_of_getElem? hline.1) (List.mem_append_left _ hc)
  have hoffset : operationsBefore listing line < 0x100000000 := by
    have hle : operationsBefore listing line ≤ (operations listing).length := hlabelled.le
    omega
  apply ofListing_append_operation _ (feed_not_mem_jumpTo hfeed) (trim_jumpTo name)
    (isOperation_jumpTo name) hsmall hp
  · exact ⟨_, _, reads_jumpTo hlabelled hcomma hblank, carries_jump hoffset⟩
  · simp [jumpTo]

/-- A label that is used stands on one line and is worth the number of operations before it, which
is the index of the first instruction after it; and every label that can be written as an argument
can be used. -/
theorem label_arguments_resolve {listing : String} {p : Program}
    (hp : Program.ofListing listing = .ok p)
    (hsmall : (operations listing).length < 0xFFFFFFFF) :
    (∀ (j place : Nat) (text mnemonic name : List Char) (args : List (List Char)),
      (operations listing)[j]? = some text →
      Operation.Parts text mnemonic args → args[place]? = some ('@' :: name) →
      ∃ line, LabelLine listing name line ∧
        (∀ other, LabelLine listing name other → other = line) ∧
        (∃ (i : Instruction) (op : Opcode), p.toList[j]? = some i ∧ i.opcode? = some op ∧
          (i.arguments op)[place]? = some (operationsBefore listing line)) ∧
        operationsBefore listing line ≤ p.size ∧
        ∀ next, ((texts listing).drop (line + 1)).find? (IsOperation ·) = some next →
          (operations listing)[operationsBefore listing line]? = some next ∧
            ∃ i, p.toList[operationsBefore listing line]? = some i ∧ Encodes listing next i) ∧
    ∀ name line, LabelLine listing name line → ',' ∉ name →
      (∀ c, name.getLast? = some c → ¬isBlank c) →
      Program.ofListing (listing ++ "\njmp @" ++ String.ofList name ++ ", 0i") =
        .ok (p.push (.long .jmp (BitVec.ofNat 32 (operationsBefore listing line)) 0)) := by
  obtain ⟨hnodup, hall⟩ := (ofListing_eq_ok_iff (by omega)).mp hp
  refine ⟨?_, fun name line => ofListing_append_jump hsmall hp⟩
  intro j place text mnemonic name args htext hparts harg
  obtain ⟨i, op, k, hi, hop, hk, hlabelled⟩ := exists_label_of_argument hall htext hparts harg
  have hle : k ≤ (operations listing).length := hlabelled.le
  obtain ⟨line, hline, rfl⟩ := labelledAt_iff_labelLine.mp hlabelled
  refine ⟨line, hline, ?_, ⟨i, op, hi, hop, hk⟩, ?_, ?_⟩
  · exact fun other hother => label_place_unique hnodup hline.2 hother.1 hline.1
  · have hlength : (operations listing).length = p.size := hall.length_eq
    omega
  · exact fun next hnext => encodes_after_label hall hline hnext

theorem label_arguments_resolve_exit :
    (∃ line, LabelLine "jmp @exit\nnoop\nexit:\nhalt" "exit".toList line ∧
      operationsBefore "jmp @exit\nnoop\nexit:\nhalt" line ≤ 3) ∧
    Program.ofListing ("jmp @exit\nnoop\nexit:\nhalt" ++ "\njmp @" ++
        String.ofList "exit".toList ++ ", 0i") =
      .ok (Program.push (.ofList [.long .jmp 2 0, .bare .noop, .bare .halt])
        (.long .jmp 2 0)) := by
  have hp : Program.ofListing "jmp @exit\nnoop\nexit:\nhalt" =
      .ok (.ofList [.long .jmp 2 0, .bare .noop, .bare .halt]) := by
    decide +kernel
  have h := label_arguments_resolve hp (by decide)
  have hparts : Operation.Parts "jmp @exit".toList "jmp".toList ["@exit".toList] :=
    Operation.parts_iff.mpr ⟨by decide, by decide⟩
  obtain ⟨line, hline, _, _, hle, _⟩ := h.1 0 0 _ _ "exit".toList _ (by decide) hparts rfl
  have hblank : ∀ c, "exit".toList.getLast? = some c → ¬isBlank c := by
    intro c hc
    obtain rfl : 't' = c := Option.some.inj hc
    decide
  refine ⟨⟨line, hline, hle⟩, ?_⟩
  exact h.2 "exit".toList 2 (by unfold LabelLine; decide) (by decide) hblank

end Listing

end RegisterMachine
