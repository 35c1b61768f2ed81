import RegisterMachine.Proofs.ListingErrors

namespace RegisterMachine

namespace Operation

/-- Whether the argument at a place is a label. -/
def isReference (text : List Char) (place : Nat) : Bool :=
  (arguments text)[place]?.any (·.head? == some '@')

/-- What the value of the argument at a place gains if `shift` instructions more stand before. -/
def gain (shift : Nat) (text : List Char) (place : Nat) : Nat :=
  if isReference text place then shift else 0

end Operation

namespace Instruction

/-- The instruction of the operation `text` with `shift` added to its labels; the other fields
stay as they are. -/
def relocate (shift : Nat) (text : List Char) (i : Instruction) : Instruction :=
  let gain := Operation.gain shift text
  match i.opcode? with
  | none => i
  | some op =>
    if op.isLong then
      long op (i.longArg + BitVec.ofNat 32 (gain 0)) (i.arg2 + BitVec.ofNat 16 (gain 1))
    else
      short op (i.arg0 + BitVec.ofNat 16 (gain 0)) (i.arg1 + BitVec.ofNat 16 (gain 1))
        (i.arg2 + BitVec.ofNat 16 (gain 2))

/-- The arguments after the move, as numbers of any size. -/
def movedArguments (shift : Nat) (text : List Char) (i : Instruction) (op : Opcode) : List Nat :=
  (i.arguments op).mapIdx fun place v => v + Operation.gain shift text place

/-- The first argument that after the move is too wide for its field of 16 bits. -/
def tooWide? (shift : Nat) (text : List Char) (i : Instruction) : Option Nat :=
  i.opcode?.bind fun op => (op.shortValues (i.movedArguments shift text op)).find? (0xFFFF < ·)

theorem tooWide?_eq {shift : Nat} {text : List Char} {i : Instruction} {op : Opcode}
    (hop : i.opcode? = some op) :
    i.tooWide? shift text =
      (op.shortValues (i.movedArguments shift text op)).find? (0xFFFF < ·) := by
  rw [tooWide?, hop, Option.bind_some]

theorem toNat_add_ofNat {n : Nat} {a : BitVec 16} (h : a.toNat + n ≤ 0xFFFF) :
    (a + BitVec.ofNat 16 n).toNat = a.toNat + n := by
  rw [BitVec.toNat_add, BitVec.toNat_ofNat]
  omega

/-- Moved arguments that all have room in their fields are those of the relocated instruction. -/
theorem arguments_relocate {shift : Nat} {text : List Char} {i : Instruction} {op : Opcode}
    (hop : i.opcode? = some op) (hwide : i.tooWide? shift text = none)
    (hbound : ∀ v ∈ i.movedArguments shift text op, v < 0x100000000) :
    (i.relocate shift text).opcode? = some op ∧
      (i.relocate shift text).arguments op = i.movedArguments shift text op := by
  rw [tooWide?_eq hop] at hwide
  by_cases hlong : op.isLong
  · have hmoved : i.movedArguments shift text op =
        [i.longArg.toNat + Operation.gain shift text 0,
          i.arg2.toNat + Operation.gain shift text 1] := by
      simp [movedArguments, arguments, hlong]
    rw [hmoved] at hwide hbound ⊢
    have h0 : (i.longArg + BitVec.ofNat 32 (Operation.gain shift text 0)).toNat =
        i.longArg.toNat + Operation.gain shift text 0 := by
      have hlt := hbound _ List.mem_cons_self
      rw [BitVec.toNat_add, BitVec.toNat_ofNat]
      omega
    have h1 : i.arg2.toNat + Operation.gain shift text 1 ≤ 0xFFFF := by
      simpa [Opcode.shortValues, hlong] using hwide
    simp only [relocate, hop, hlong, if_true, opcode?_long, arguments, longArg_long, arg2_long]
    rw [h0, toNat_add_ofNat h1]
    exact ⟨trivial, rfl⟩
  · have hmoved : i.movedArguments shift text op =
        [i.arg0.toNat + Operation.gain shift text 0, i.arg1.toNat + Operation.gain shift text 1,
          i.arg2.toNat + Operation.gain shift text 2] := by
      simp [movedArguments, arguments, hlong]
    rw [hmoved] at hwide ⊢
    obtain ⟨h0, h1, h2⟩ : i.arg0.toNat + Operation.gain shift text 0 ≤ 0xFFFF ∧
        i.arg1.toNat + Operation.gain shift text 1 ≤ 0xFFFF ∧
        i.arg2.toNat + Operation.gain shift text 2 ≤ 0xFFFF := by
      simpa [Opcode.shortValues, hlong] using hwide
    simp only [relocate, hop, hlong, if_false, opcode?_short, arguments, arg0_short, arg1_short,
      arg2_short, Bool.false_eq_true]
    rw [toNat_add_ofNat h0, toNat_add_ofNat h1, toNat_add_ofNat h2]
    exact ⟨trivial, rfl⟩

end Instruction

namespace Opcode

theorem fits_iff {op : Opcode} {values : List Nat} :
    op.Fits values ↔ values.length ≤ op.maxArguments ∧
      (op.shortValues values).find? (0xFFFF < ·) = none := by
  unfold Fits maxArguments shortValues
  split
  next =>
    refine and_congr_right fun hlength => ?_
    rcases values with _ | ⟨a, _ | ⟨b, _ | ⟨c, rest⟩⟩⟩
    · simp
    · simp
    · simp
    · simp at hlength
  next => simp

/-- Zeros that fill up the values are never too wide. -/
theorem find?_shortValues_rightpad (op : Opcode) (values : List Nat) (n : Nat) :
    (op.shortValues (values.rightpad n 0)).find? (0xFFFF < ·) =
      (op.shortValues values).find? (0xFFFF < ·) := by
  unfold shortValues List.rightpad
  split
  next =>
    cases values with
    | nil => simp
    | cons a rest => simp [List.find?_append]
  next => simp [List.find?_append]

end Opcode

namespace Argument

/-- Only the value of a label follows its offset. -/
theorem Denotes.shift {offset offset' : List Char → Nat → Prop} {n : Nat}
    (hoffset : ∀ name k, offset name k → offset' name (k + n)) {text : List Char} {v : Nat}
    (h : Denotes offset text v) :
    Denotes offset' text (v + if text.head? = some '@' then n else 0) := by
  have hdigit : ∀ c : Char, c.isDigit → c ≠ '@' := by
    rintro c hc rfl
    exact absurd hc (by decide)
  cases h with
  | label h => exact .label (hoffset _ _ h)
  | index hd hv => exact .index hd hv
  | register r => exact .register r
  | @integer digits hd hv =>
    obtain ⟨c, tail, heq, hc⟩ := head_isDigit_of_numeral hd ['i']
    rw [if_neg (by simpa [heq] using hdigit c hc)]
    exact .integer hd hv
  | @float literal d bits hd hn =>
    obtain ⟨c, tail, heq, hc⟩ := head_isDigit_of_literal hd ['f']
    rw [if_neg (by simpa [heq] using hdigit c hc)]
    exact .float hd hn

end Argument

theorem forall₂_mapIdx {α β : Type} {r s : α → β → Prop} {f : Nat → β → β} {xs : List α}
    {ys : List β} (h : List.Forall₂ r xs ys)
    (hf : ∀ place x y, xs[place]? = some x → r x y → s x (f place y)) :
    List.Forall₂ s xs (ys.mapIdx f) := by
  induction h generalizing f with
  | nil => exact .nil
  | cons hxy _ ih =>
    rw [List.mapIdx_cons]
    exact .cons (hf 0 _ _ rfl hxy) (ih fun place x y hx => hf (place + 1) x y hx)

theorem forall₂_zipWith {α β : Type} {r s : α → β → Prop} {f : α → β → β} {xs : List α}
    {ys : List β} (h : List.Forall₂ r xs ys)
    (hf : ∀ (k : Nat) x y, xs[k]? = some x → ys[k]? = some y → r x y → s x (f x y)) :
    List.Forall₂ s xs (List.zipWith f xs ys) := by
  induction h with
  | nil => exact .nil
  | cons hxy _ ih =>
    exact .cons (hf 0 _ _ rfl rfl hxy) (ih fun k x y hx hy => hf (k + 1) x y hx hy)

theorem exists_getElem?_of_filter {α : Type} {p : α → Bool} {xs : List α} {k : Nat} {x : α}
    (h : (xs.filter p)[k]? = some x) :
    ∃ place, xs[place]? = some x ∧ p x ∧ (xs.take place).countP p = k := by
  induction xs generalizing k with
  | nil => simp at h
  | cons a xs ih =>
    by_cases ha : p a
    · rw [List.filter_cons_of_pos ha] at h
      cases k with
      | zero =>
        cases Option.some.inj h
        exact ⟨0, rfl, ha, rfl⟩
      | succ k =>
        obtain ⟨place, hplace, hx, hcount⟩ := ih h
        exact ⟨place + 1, hplace, hx, by simp [ha, hcount]⟩
    · rw [List.filter_cons_of_neg ha] at h
      obtain ⟨place, hplace, hx, hcount⟩ := ih h
      exact ⟨place + 1, hplace, hx, by simp [ha, hcount]⟩

namespace Operation

variable {offset offset' : List Char → Nat → Prop} {shift : Nat} {text : List Char}
  {values : List Nat}

theorem denotes_moved (hoffset : ∀ name k, offset name k → offset' name (k + shift))
    (h : List.Forall₂ (Argument.Denotes offset) (arguments text) values) :
    List.Forall₂ (Argument.Denotes offset') (arguments text)
      (values.mapIdx fun place v => v + gain shift text place) := by
  refine forall₂_mapIdx h fun place arg v harg hv => ?_
  have hgain : gain shift text place = if arg.head? = some '@' then shift else 0 := by
    simp [gain, isReference, harg]
  rw [hgain]
  exact hv.shift hoffset

/-- The arguments that are not given gain nothing. -/
theorem gain_of_length_le {place : Nat} (h : (arguments text).length ≤ place) :
    gain shift text place = 0 := by
  simp [gain, isReference, List.getElem?_eq_none h]

end Operation

namespace Instruction

theorem movedArguments_of_carries (shift : Nat) {text : List Char} {values : List Nat}
    {i : Instruction} {op : Opcode} (h : i.Carries op values)
    (hlength : (Operation.arguments text).length = values.length) :
    i.movedArguments shift text op =
      (values.mapIdx fun place v => v + Operation.gain shift text place).rightpad
        op.maxArguments 0 := by
  have hzeros : ∀ m, ((List.replicate m 0).mapIdx fun place v =>
      v + Operation.gain shift text (place + values.length)) = List.replicate m 0 := by
    intro m
    have hgain : ∀ place, Operation.gain shift text (place + values.length) = 0 := fun place =>
      Operation.gain_of_length_le (by omega)
    exact List.ext_getElem? fun place => by simp [hgain]
  rw [movedArguments, h.2, List.rightpad, List.rightpad, List.mapIdx_append, hzeros,
    List.length_mapIdx]

end Instruction

namespace Listing

variable {first second : String}

theorem texts_append (first second : String) :
    texts (first ++ "\n" ++ second) = (first.toList.splitOn '\n').map trim ++ texts second := by
  have hlist : (first ++ "\n" ++ second).toList = first.toList ++ '\n' :: second.toList := by simp
  exact texts_of_toList hlist

theorem labels_append (first second : String) :
    labels (first ++ "\n" ++ second) = labels first ++ labels second := by
  rw [labels, texts_append, List.filter_append, filter_map_trim_splitOn (by simp)]
  rfl

theorem operations_append (first second : String) :
    operations (first ++ "\n" ++ second) = operations first ++ operations second := by
  rw [operations, texts_append, List.filter_append, filter_map_trim_splitOn (by simp)]
  rfl

/-- The labels of the first listing keep their offsets, those of the second move behind it. -/
theorem labelledAt_texts_append {name : List Char} {k : Nat} :
    LabelledAt (texts (first ++ "\n" ++ second)) name k ↔ LabelledAt (texts first) name k ∨
      ∃ n, LabelledAt (texts second) name n ∧ k = n + (operations first).length := by
  obtain ⟨blank, hblank, hpieces⟩ := map_trim_splitOn first.toList
  have hnone : ∀ text ∈ blank, ¬IsLabel text := by
    rcases hblank with rfl | rfl <;> simp
  have hcount : ((first.toList.splitOn '\n').map trim).countP (IsOperation ·) =
      (operations first).length := by
    rw [List.countP_eq_length_filter, filter_map_trim_splitOn (by simp)]
    rfl
  rw [texts_append, labelledAt_append, hcount]
  refine or_congr_left ?_
  rw [hpieces, labelledAt_append]
  simp [not_labelledAt hnone, texts]

theorem Encodes.append_left {text : List Char} {i : Instruction} (h : Encodes first text i)
    (second : String) : Encodes (first ++ "\n" ++ second) text i := by
  obtain ⟨op, values, ⟨mnemonic, args, hparts, hm, hdenotes, hfits⟩, hcarries⟩ := h
  refine ⟨op, values, ⟨mnemonic, args, hparts, hm, hdenotes.imp fun arg v hv => ?_, hfits⟩,
    hcarries⟩
  simpa using hv.shift (n := 0) fun name k hk => labelledAt_texts_append.mpr (.inl hk)

/-- What an operation of the second listing says behind the first. -/
theorem Encodes.values_moved {text : List Char} {i : Instruction} (h : Encodes second text i)
    (first : String) :
    ∃ mnemonic args op values, Operation.Parts text mnemonic args ∧
      Opcode.Mnemonic mnemonic op ∧ args.length ≤ op.maxArguments ∧
      List.Forall₂ (Argument.Denotes (LabelledAt (texts (first ++ "\n" ++ second)))) args values ∧
      i.opcode? = some op ∧
      i.movedArguments (operations first).length text op = values.rightpad op.maxArguments 0 ∧
      i.tooWide? (operations first).length text =
        (op.shortValues values).find? (0xFFFF < ·) := by
  obtain ⟨op, values, ⟨mnemonic, args, hparts, hm, hdenotes, hfits⟩, hcarries⟩ := h
  obtain ⟨rfl, rfl⟩ := Operation.parts_iff.mp hparts
  have hlength := hdenotes.length_eq
  have hmoved := Instruction.movedArguments_of_carries (operations first).length hcarries hlength
  refine ⟨_, _, op, _, hparts, hm, ?_, Operation.denotes_moved ?_ hdenotes, hcarries.1, hmoved, ?_⟩
  · rw [hlength]
    exact (Opcode.fits_iff.mp hfits).1
  · exact fun name k hk => labelledAt_texts_append.mpr (.inr ⟨k, hk, rfl⟩)
  · rw [Instruction.tooWide?_eq hcarries.1, hmoved, Opcode.find?_shortValues_rightpad]

theorem Encodes.append_right {text : List Char} {i : Instruction} (h : Encodes second text i)
    (hsmall : (operations first).length + (operations second).length < 0x100000000)
    (hwide : i.tooWide? (operations first).length text = none) :
    Encodes (first ++ "\n" ++ second) text (i.relocate (operations first).length text) := by
  obtain ⟨mnemonic, args, op, values, hparts, hm, hlength, hdenotes, hop, hmoved, hfind⟩ :=
    h.values_moved first
  have hoffset : ∀ name k, LabelledAt (texts (first ++ "\n" ++ second)) name k →
      k < 0x100000000 := by
    intro name k hk
    have hle : k ≤ (operations (first ++ "\n" ++ second)).length := hk.le
    rw [operations_append, List.length_append] at hle
    omega
  have hbound : ∀ v ∈ i.movedArguments (operations first).length text op, v < 0x100000000 := by
    intro v hv
    rw [hmoved, List.rightpad, List.mem_append] at hv
    rcases hv with hv | hv
    · obtain ⟨arg, harg⟩ := forall_of_forall₂ (List.Forall₂.flip hdenotes) v hv
      exact Argument.Denotes.lt hoffset harg
    · rw [List.eq_of_mem_replicate hv]
      decide
  obtain ⟨hcode, hargs⟩ := Instruction.arguments_relocate hop hwide hbound
  rw [hwide] at hfind
  have hfits : op.Fits values := Opcode.fits_iff.mpr ⟨hdenotes.length_eq ▸ hlength, hfind.symm⟩
  exact ⟨op, values, ⟨mnemonic, args, hparts, hm, hdenotes, hfits⟩, hcode, hargs.trans hmoved⟩

theorem Encodes.fails_append_right {text : List Char} {i : Instruction} {v : Nat}
    (h : Encodes second text i) (hwide : i.tooWide? (operations first).length text = some v) :
    Operation.Fails (LabelledAt (texts (first ++ "\n" ++ second))) text
      (.argumentTooWide (BitVec.ofNat 32 v)) := by
  obtain ⟨mnemonic, args, op, values, hparts, hm, hlength, hdenotes, _, _, hfind⟩ :=
    h.values_moved first
  exact .width hparts hm hdenotes hlength (hfind.symm.trans hwide)

theorem OperationLine.getElem?_operations {listing : String} {text : List Char} {line : Nat}
    (h : OperationLine listing text line) :
    (operations listing)[operationsBefore listing line]? = some text := by
  obtain ⟨hlt, heq⟩ := List.getElem?_eq_some_iff.mp h.1
  rw [operations, operationsBefore, getElem?_filter_countP, List.drop_eq_getElem_cons hlt, heq]
  exact List.find?_cons_of_pos (by simpa using h.2)

theorem OperationLine.operationsBefore_lt {listing : String} {text : List Char}
    {earlier line : Nat} (h : OperationLine listing text earlier) (hlt : earlier < line) :
    operationsBefore listing earlier < operationsBefore listing line := by
  have hnext : operationsBefore listing (earlier + 1) = operationsBefore listing earlier + 1 := by
    simp [operationsBefore, List.take_add_one, h.1, h.2]
  have hle : operationsBefore listing (earlier + 1) ≤ operationsBefore listing line :=
    (List.take_sublist_take_left hlt).countP_le
  omega

theorem exists_operationLine {listing : String} {text : List Char} {k : Nat}
    (h : (operations listing)[k]? = some text) :
    ∃ line, OperationLine listing text line ∧ operationsBefore listing line = k := by
  obtain ⟨line, hline, hop, hcount⟩ := exists_getElem?_of_filter h
  exact ⟨line, ⟨hline, by simpa using hop⟩, hcount⟩

/-- The first `bound` operations of a listing with the program `q` have room for their labels
after a move by `shift`. -/
def RoomBefore (listing : String) (q : Program) (shift bound : Nat) : Prop :=
  ∀ pair ∈ ((operations listing).zip q.toList).take bound, pair.2.tooWide? shift pair.1 = none

instance (listing : String) (q : Program) (shift bound : Nat) :
    Decidable (RoomBefore listing q shift bound) :=
  inferInstanceAs (Decidable (∀ pair ∈ _, _))

theorem RoomBefore.tooWide?_eq_none {listing : String} {q : Program} {shift bound k : Nat}
    (h : RoomBefore listing q shift bound) (hk : k < bound) {text : List Char} {i : Instruction}
    (htext : (operations listing)[k]? = some text) (hi : q.toList[k]? = some i) :
    i.tooWide? shift text = none := by
  have hpair : ((operations listing).zip q.toList)[k]? = some (text, i) :=
    List.getElem?_zip_eq_some.mpr ⟨htext, hi⟩
  exact h (text, i) (mem_take_iff_getElem?.mpr ⟨k, hk, hpair⟩)

theorem nodup_labels_append (hfirst : (labels first).Nodup) (hsecond : (labels second).Nodup)
    (hdisjoint : ∀ text ∈ labels first, text ∉ labels second) :
    (labels (first ++ "\n" ++ second)).Nodup := by
  rw [labels_append, List.nodup_append]
  refine ⟨hfirst, hsecond, fun a ha b hb hab => ?_⟩
  subst hab
  exact hdisjoint a ha hb

theorem ofListing_append {p q : Program}
    (hp : Program.ofListing first = .ok p) (hq : Program.ofListing second = .ok q)
    (hdisjoint : ∀ text ∈ labels first, text ∉ labels second)
    (hsmall : (operations first).length + (operations second).length < 0x100000000)
    (hroom : RoomBefore second q p.size q.size) :
    Program.ofListing (first ++ "\n" ++ second) = .ok (.ofList (p.toList ++
      List.zipWith (Instruction.relocate p.size) (operations second) q.toList)) := by
  obtain ⟨hnodup, hall⟩ := (ofListing_eq_ok_iff (by omega)).mp hp
  obtain ⟨hnodup', hall'⟩ := (ofListing_eq_ok_iff (by omega)).mp hq
  have hsize : p.size = (operations first).length := hall.length_eq.symm
  rw [hsize] at hroom ⊢
  rw [ofListing_eq_ok_iff (by rwa [operations_append, List.length_append]), operations_append]
  refine ⟨nodup_labels_append hnodup hnodup' hdisjoint, List.rel_append ?_ ?_⟩
  · exact hall.imp fun text i hi => hi.append_left second
  · refine forall₂_zipWith hall' fun k text i htext hi hencodes => ?_
    have hlt : k < q.size := (List.getElem?_eq_some_iff.mp hi).1
    exact hencodes.append_right hsmall (hroom.tooWide?_eq_none hlt htext hi)

theorem ofListing_append_eq_error {p q : Program}
    (hp : Program.ofListing first = .ok p) (hq : Program.ofListing second = .ok q)
    (hdisjoint : ∀ text ∈ labels first, text ∉ labels second)
    (hsmall : (operations first).length + (operations second).length < 0x100000000)
    {text : List Char} {i : Instruction} {line v : Nat} (hline : OperationLine second text line)
    (hi : q.toList[operationsBefore second line]? = some i)
    (hwide : i.tooWide? p.size text = some v)
    (hroom : RoomBefore second q p.size (operationsBefore second line)) :
    Program.ofListing (first ++ "\n" ++ second) =
      .error ⟨first.toList.count '\n' + 1 + line + 1, .argumentTooWide (BitVec.ofNat 32 v)⟩ := by
  obtain ⟨hnodup, hall⟩ := (ofListing_eq_ok_iff (by omega)).mp hp
  obtain ⟨hnodup', hall'⟩ := (ofListing_eq_ok_iff (by omega)).mp hq
  have hsize : p.size = (operations first).length := hall.length_eq.symm
  rw [hsize] at hroom hwide
  have hlength : ((first.toList.splitOn '\n').map trim).length = first.toList.count '\n' + 1 := by
    rw [List.length_map, length_splitOn]
  refine ofListing_of_reports (by rwa [operations_append, List.length_append]) ?_
  refine .operation ?_ ⟨?_, hline.2⟩ ?_ ?_
  · exact nodup_labels_iff.mp (nodup_labels_append hnodup hnodup' hdisjoint)
  · rw [texts_append, List.getElem?_append_right (by omega), hlength, Nat.add_sub_cancel_left]
    exact hline.1
  · -- An earlier line is one of the first listing, or one of the second whose labels have room.
    rintro earlier hlt other ⟨hother, hop⟩
    rw [texts_append] at hother
    by_cases hpart : earlier < first.toList.count '\n' + 1
    · rw [List.getElem?_append_left (by omega)] at hother
      have hmem : other ∈ operations first := by
        rw [operations, texts, ← filter_map_trim_splitOn (by simp)]
        exact List.mem_filter.mpr ⟨List.mem_of_getElem? hother, decide_eq_true hop⟩
      obtain ⟨j, hj⟩ := forall_of_forall₂ hall other hmem
      obtain ⟨op, values, hreads, _⟩ := hj.append_left second
      exact ⟨op, values, hreads⟩
    · rw [List.getElem?_append_right (by omega), hlength] at hother
      have hearlier : OperationLine second other (earlier - (first.toList.count '\n' + 1)) :=
        ⟨hother, hop⟩
      obtain ⟨j, hj, hencodes⟩ := forall₂_getElem? hall' hearlier.getElem?_operations
      have hnone := hroom.tooWide?_eq_none (hearlier.operationsBefore_lt (by omega))
        hearlier.getElem?_operations hj
      obtain ⟨op, values, hreads, _⟩ := hencodes.append_right hsmall hnone
      exact ⟨op, values, hreads⟩
  · obtain ⟨j, hj, hencodes⟩ := forall₂_getElem? hall' hline.getElem?_operations
    cases Option.some.inj (hi.symm.trans hj)
    exact hencodes.fails_append_right hwide

/-- A listing behind another is relocated: the instructions of the first stay as they are, those
of the second follow with their labels moved by as many instructions. If a label has then no room
in its field, the first operation where this is so is the error. -/
theorem relocated_behind {p q : Program}
    (hp : Program.ofListing first = .ok p) (hq : Program.ofListing second = .ok q)
    (hdisjoint : ∀ text ∈ labels first, text ∉ labels second)
    (hsmall : (operations first).length + (operations second).length < 0x100000000) :
    (RoomBefore second q p.size q.size →
      Program.ofListing (first ++ "\n" ++ second) = .ok (.ofList (p.toList ++
        List.zipWith (Instruction.relocate p.size) (operations second) q.toList))) ∧
    ∀ k text i v, ((operations second).zip q.toList)[k]? = some (text, i) →
      i.tooWide? p.size text = some v → RoomBefore second q p.size k →
      ∃ line, OperationLine second text line ∧ operationsBefore second line = k ∧
        Program.ofListing (first ++ "\n" ++ second) = .error
          ⟨first.toList.count '\n' + 1 + line + 1, .argumentTooWide (BitVec.ofNat 32 v)⟩ := by
  refine ⟨ofListing_append hp hq hdisjoint hsmall, ?_⟩
  intro k text i v hpair hwide hroom
  obtain ⟨htext, hi⟩ := List.getElem?_zip_eq_some.mp hpair
  obtain ⟨line, hline, rfl⟩ := exists_operationLine htext
  exact ⟨line, hline, rfl, ofListing_append_eq_error hp hq hdisjoint hsmall hline hi hwide hroom⟩

/-- A listing of `n` operations that do nothing. -/
def idle : Nat → String
  | 0 => ""
  | n + 1 => idle n ++ "\n" ++ "noop"

theorem operations_idle (n : Nat) : operations (idle n) = List.replicate n "noop".toList := by
  induction n with
  | zero => decide
  | succ n ih =>
    rw [idle, operations_append, ih, List.replicate_succ']
    rfl

theorem labels_idle (n : Nat) : labels (idle n) = [] := by
  induction n with
  | zero => decide
  | succ n ih =>
    rw [idle, labels_append, ih]
    decide

theorem encodes_noop (listing : String) : Encodes listing "noop".toList (.bare .noop) := by
  have hword : "noop".toList.all (!isBlank ·) := by decide
  have hparts : Operation.Parts "noop".toList "noop".toList [] := .alone (by simpa using hword)
  have hfits : Opcode.noop.Fits [] := Opcode.fits_iff.mpr (by decide)
  exact ⟨.noop, [], ⟨_, _, hparts, .name .noop, .nil, hfits⟩, by decide, by decide⟩

theorem ofListing_idle {n : Nat} (hn : n < 0x100000000) :
    Program.ofListing (idle n) = .ok (.ofList (List.replicate n (.bare .noop))) := by
  have hlength : (operations (idle n)).length < 0x100000000 := by
    rwa [operations_idle, List.length_replicate]
  rw [ofListing_eq_ok_iff hlength, labels_idle, operations_idle]
  refine ⟨List.nodup_nil, List.forall₂_iff_get.mpr ⟨by simp [Program.toList, Program.ofList], ?_⟩⟩
  intro k hk hk'
  simpa [Program.toList, Program.ofList] using encodes_noop (idle n)

/-- A label right behind the first 65536 operations has no room in a field of 16 bits. -/
theorem relocated_behind_idle :
    let near := "a:\n li 5i, $3\n cond @a, $3\r"
    let far := "# data\r\nb:\n addi @b, $1\n\n cond @b , @b"
    Program.ofListing (near ++ "\n" ++ far) = .ok (.ofList
      [.long .li 5 3, .long .cond 0 3, .short .addi 2 1 0, .long .cond 2 2]) ∧
    ∃ line, OperationLine far "addi @b, $1".toList line ∧ operationsBefore far line = 0 ∧
      Program.ofListing (idle 0x10000 ++ "\n" ++ far) =
        .error ⟨(idle 0x10000).toList.count '\n' + 1 + line + 1, .argumentTooWide 0x10000⟩ := by
  intro near far
  have hnear : Program.ofListing near = .ok (.ofList [.long .li 5 3, .long .cond 0 3]) := by
    decide +kernel
  have hfar : Program.ofListing far = .ok (.ofList [.short .addi 0 1 0, .long .cond 0 0]) := by
    decide +kernel
  have hsize : ∀ n, (Program.ofList (List.replicate n (.bare .noop))).size = n := by
    simp [Program.size, Program.ofList]
  constructor
  · have hjoined := (relocated_behind hnear hfar (by decide +kernel) (by decide +kernel)).1
    exact (hjoined (by decide +kernel)).trans (by decide +kernel)
  · have hshort : (operations far).length = 2 := by decide +kernel
    have hjoined := (relocated_behind (ofListing_idle (n := 0x10000) (by decide)) hfar
      (by rw [labels_idle]; decide)
      (by rw [operations_idle, List.length_replicate, hshort]; decide)).2
    rw [hsize] at hjoined
    exact hjoined 0 _ (.short .addi 0 1 0) 0x10000 (by decide +kernel) (by decide +kernel)
      (by decide +kernel)

end Listing

end RegisterMachine
