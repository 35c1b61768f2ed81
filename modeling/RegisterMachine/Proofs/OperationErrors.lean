import RegisterMachine.Proofs.OperationGrammar

namespace RegisterMachine

theorem bind_eq_error_iff {ε α β : Type} {x : Except ε α} {f : α → Except ε β} {e : ε} :
    (x >>= f) = .error e ↔ x = .error e ∨ ∃ a, x = .ok a ∧ f a = .error e := by
  cases x with
  | error e' => simp [bind, Except.bind]
  | ok a => simp [bind, Except.bind]

theorem mapM_cons_eq_error_iff {ε α β : Type} {f : α → Except ε β} {x : α} {xs : List α} {e : ε} :
    (x :: xs).mapM f = .error e ↔
      f x = .error e ∨ (∃ y, f x = .ok y) ∧ xs.mapM f = .error e := by
  rw [List.mapM_cons, bind_eq_error_iff]
  refine or_congr_right ?_
  rw [← exists_and_right]
  refine exists_congr fun y => and_congr_right fun _ => ?_
  rw [bind_eq_error_iff]
  simp [pure, Except.pure]

theorem exists_getElem?_cons {α : Type} {a : α} {xs : List α} {p : Nat → α → Prop} :
    (∃ place x, (a :: xs)[place]? = some x ∧ p place x) ↔
      p 0 a ∨ ∃ place x, xs[place]? = some x ∧ p (place + 1) x := by
  constructor
  · rintro ⟨place, x, hx, hp⟩
    cases place with
    | zero =>
      cases Option.some.inj hx
      exact .inl hp
    | succ place => exact .inr ⟨place, x, hx, hp⟩
  · rintro (hp | ⟨place, x, hx, hp⟩)
    · exact ⟨0, a, rfl, hp⟩
    · exact ⟨place + 1, x, hx, hp⟩

theorem mapM_eq_error_iff {ε α β : Type} {f : α → Except ε β} {xs : List α} {e : ε} :
    xs.mapM f = .error e ↔ ∃ place x, xs[place]? = some x ∧
      (∀ earlier ∈ xs.take place, ∃ y, f earlier = .ok y) ∧ f x = .error e := by
  induction xs with
  | nil => simp [pure, Except.pure]
  | cons a xs ih =>
    rw [mapM_cons_eq_error_iff, ih, exists_getElem?_cons]
    by_cases hfirst : ∃ y, f a = .ok y
    · simp [hfirst]
    · simp [hfirst]

namespace Argument

def ledByDigit (text : List Char) : Bool :=
  text.head?.any Char.isDigit

/-- What is said of a text that stands for no number. Its first character decides, and where this
is a digit the last one. -/
def complaint (text : List Char) : Cause :=
  if text.head? = some '@' then .unknownLabel (String.ofList text)
  else if text.head? = some '$' then .badRegister (String.ofList text.tail)
  else if ledByDigit text ∧ text.getLast? = some 'i' then .badInteger (String.ofList text)
  else if ledByDigit text ∧ text.getLast? = some 'f' then .badFloat (String.ofList text)
  else .badArgument (String.ofList text)

theorem cause_of_ofLiteral {c : Char} {rest : List Char} (hc : c.isDigit) {cause : Cause}
    (h : ofLiteral (c :: rest) = .error cause) : cause = complaint (c :: rest) := by
  have hat : c ≠ '@' := by rintro rfl; simp at hc
  have hdollar : c ≠ '$' := by rintro rfl; simp at hc
  have hled : ledByDigit (c :: rest) := hc
  simp only [complaint, List.head?_cons, Option.some.injEq, hat, hdollar, hled, true_and, if_false]
  simp only [ofLiteral] at h
  split at h
  next hlast =>
    split at h
    next => cases h
    next => rw [if_pos hlast, Except.error.inj h]
  next hlast =>
    rw [if_neg hlast]
    split at h
    next hlast =>
      split at h
      next => cases h
      next => rw [if_pos hlast, Except.error.inj h]
    next hlast => rw [if_neg hlast, Except.error.inj h]

theorem cause_of_ofText {text : List Char} {cause : Cause} (h : ofText text = .error cause) :
    cause = complaint text := by
  unfold ofText at h
  split at h
  next => simp at h
  next name =>
    split at h
    next => simp at h
    next =>
      cases Except.error.inj h
      simp [complaint]
  next =>
    cases Except.error.inj h
    rfl
  next c rest hat hdollar =>
    split at h
    next hc => exact cause_of_ofLiteral hc h
    next hc =>
      cases Except.error.inj h
      have hled : ¬ledByDigit (c :: rest) := hc
      have hat : c ≠ '@' := hat
      have hdollar : c ≠ '$' := hdollar
      simp [complaint, hat, hdollar, hled]

theorem text_of_label {text name : List Char} (h : ofText text = .ok (.label name)) :
    text = '@' :: name := by
  unfold ofText at h
  split at h
  next => rw [Argument.label.inj (Except.ok.inj h)]
  next => split at h <;> cases h
  next => cases h
  next c rest _ _ =>
    split at h
    next =>
      obtain ⟨number, heq | heq⟩ := concat_of_ofLiteral h
      · rw [heq] at h
        obtain ⟨_, _, hlabel⟩ := ofLiteral_concat_i.mp h
        cases hlabel
      · rw [heq] at h
        obtain ⟨_, _, hlabel⟩ := ofLiteral_concat_f.mp h
        cases hlabel
    next => cases h

/-- The cause does not depend on the labels: only a text behind `@` can fail for want of one. -/
theorem cause_of_read {labels : Labels} {text : List Char} {cause : Cause}
    (h : read labels text = .error cause) : cause = complaint text := by
  rcases bind_eq_error_iff.mp h with h | ⟨a, ha, hvalue⟩
  · exact cause_of_ofText h
  · cases a with
    | label name =>
      simp only [value] at hvalue
      split at hvalue
      next => cases hvalue
      next =>
        rw [← Except.error.inj hvalue, text_of_label ha]
        rfl
    | register _ | integer _ | float _ => cases hvalue

theorem exists_read_iff {labels : Labels} {text : List Char} :
    (∃ w, read labels text = .ok w) ↔
      ∃ v, Denotes (fun name k => labels.lookup name = some k) text v := by
  constructor
  · rintro ⟨w, h⟩
    obtain ⟨a, ha, hw⟩ := bind_eq_ok_iff.mp h
    obtain ⟨v, hv, _⟩ := denotes_of_ofText ha hw
    exact ⟨v, hv⟩
  · rintro ⟨v, hv⟩
    exact ⟨_, read_of_denotes hv⟩

theorem read_eq_error_iff {labels : Labels} {text : List Char} {cause : Cause} :
    read labels text = .error cause ↔
      (∀ v, ¬Denotes (fun name k => labels.lookup name = some k) text v) ∧
        cause = complaint text := by
  constructor
  · intro h
    refine ⟨fun v hv => ?_, cause_of_read h⟩
    rw [read_of_denotes hv] at h
    cases h
  · rintro ⟨hnone, rfl⟩
    cases hread : read labels text with
    | error cause => rw [cause_of_read hread]
    | ok w =>
      obtain ⟨v, hv⟩ := exists_read_iff.mp ⟨w, hread⟩
      exact absurd hv (hnone v)

theorem mapM_read_eq_ok_iff {labels : Labels} {args : List (List Char)} {words : List (BitVec 32)}
    (hsmall : ∀ name k, labels.lookup name = some k → k < 0x100000000) :
    args.mapM (read labels) = .ok words ↔
      List.Forall₂ (Denotes fun name k => labels.lookup name = some k) args
        (words.map BitVec.toNat) := by
  rw [mapM_eq_ok_iff, List.forall₂_map_right_iff]
  simp only [read_eq_ok_iff hsmall]

end Argument

namespace Opcode

/-- The values that go into fields of 16 bits: all of them, without the first of a long
operation. -/
def shortValues {α : Type} (op : Opcode) (values : List α) : List α :=
  if op.isLong then values.tail else values

theorem shortValues_map {α β : Type} (op : Opcode) (f : α → β) (values : List α) :
    op.shortValues (values.map f) = (op.shortValues values).map f := by
  unfold shortValues
  split <;> simp

end Opcode

namespace Instruction

/-- The first value that no field of 16 bits can hold is the cause. -/
def WideCause (values : List (BitVec 32)) (cause : Cause) : Prop :=
  ∃ w, values.find? (0xFFFF < ·.toNat) = some w ∧ cause = .argumentTooWide w

theorem narrow_bind_eq_error_iff {values : List (BitVec 32)} {place : Nat} {cause : Cause}
    {f : BitVec 16 → Except Cause Instruction}
    (hf : ∀ a, f a = .error cause ↔ WideCause (values.drop (place + 1)) cause) :
    (narrow values place >>= f) = .error cause ↔ WideCause (values.drop place) cause := by
  by_cases hlt : place < values.length
  · rw [List.drop_eq_getElem_cons hlt, WideCause]
    by_cases hwide : 0xFFFF < values[place].toNat
    · have hbound : ¬values[place].toNat < 0x10000 := by omega
      have hnarrow : narrow values place = .error (.argumentTooWide values[place]) := by
        simp [narrow, hlt, hbound]
      rw [List.find?_cons_of_pos (by simpa using hwide), hnarrow]
      constructor
      · intro h
        exact ⟨_, rfl, (Except.error.inj h).symm⟩
      · rintro ⟨w, hw, rfl⟩
        rw [← Option.some.inj hw]
        rfl
    · have hbound : values[place].toNat < 0x10000 := by omega
      have hnarrow : narrow values place = .ok (values[place].setWidth 16) := by
        simp [narrow, hlt, hbound]
      rw [List.find?_cons_of_neg (by simpa using hwide), hnarrow]
      exact hf _
  · -- A value that is not given is zero, which is never too wide.
    have hnarrow : narrow values place = .ok 0 := by
      simp [narrow, List.getElem?_eq_none (Nat.le_of_not_lt hlt)]
    have hdrop : values.drop place = values.drop (place + 1) := by
      rw [List.drop_of_length_le (by omega), List.drop_of_length_le (by omega)]
    rw [hnarrow, hdrop]
    exact hf 0

theorem not_wideCause_nil (cause : Cause) : ¬WideCause [] cause := by
  simp [WideCause]

theorem wideCause_iff {values : List (BitVec 32)} {cause : Cause} :
    WideCause values cause ↔ ∃ v, (values.map BitVec.toNat).find? (0xFFFF < ·) = some v ∧
      cause = .argumentTooWide (BitVec.ofNat 32 v) := by
  have hfind : (values.map BitVec.toNat).find? (0xFFFF < ·) =
      (values.find? (0xFFFF < ·.toNat)).map BitVec.toNat := List.find?_map
  simp [WideCause, hfind]

theorem ofValues_eq_error_iff {op : Opcode} {values : List (BitVec 32)} {cause : Cause} :
    ofValues op values = .error cause ↔
      op.maxArguments < values.length ∧ cause = .tooManyArguments op values.length ∨
      values.length ≤ op.maxArguments ∧ WideCause (op.shortValues values) cause := by
  unfold ofValues Opcode.shortValues
  split
  next hmany =>
    have hle : ¬values.length ≤ op.maxArguments := by omega
    simp only [hmany, hle, true_and, false_and, or_false, Except.error.injEq]
    exact eq_comm
  next hfew =>
    simp only [hfew, false_and, false_or, Nat.le_of_not_lt hfew, true_and]
    split
    next hlong =>
      have hlength : values.length ≤ 2 := by simpa [Opcode.maxArguments, hlong] using hfew
      rw [← List.drop_one]
      refine narrow_bind_eq_error_iff fun arg2 => ?_
      rw [List.drop_of_length_le hlength]
      simp [not_wideCause_nil, pure, Except.pure]
    next hshort =>
      have hlength : values.length ≤ 3 := by simpa [Opcode.maxArguments, hshort] using hfew
      refine narrow_bind_eq_error_iff fun arg0 => ?_
      refine narrow_bind_eq_error_iff fun arg1 => ?_
      refine narrow_bind_eq_error_iff fun arg2 => ?_
      rw [List.drop_of_length_le hlength]
      simp [not_wideCause_nil, pure, Except.pure]

end Instruction

namespace Operation

/-- What is wrong with an operation, the labels having the offsets that `offset` says. Each way to
fail comes after those above it. -/
inductive Fails (offset : List Char → Nat → Prop) (text : List Char) : Cause → Prop where
  | mnemonic {mnemonic : List Char} {args : List (List Char)} (hparts : Parts text mnemonic args)
      (hm : ∀ op, ¬Opcode.Mnemonic mnemonic op) :
      Fails offset text (.unknownMnemonic (String.ofList mnemonic))
  | argument {mnemonic arg : List Char} {args : List (List Char)} {op : Opcode} {place : Nat}
      (hparts : Parts text mnemonic args) (hm : Opcode.Mnemonic mnemonic op)
      (harg : args[place]? = some arg)
      (hbefore : ∀ earlier ∈ args.take place, ∃ v, Argument.Denotes offset earlier v)
      (hnone : ∀ v, ¬Argument.Denotes offset arg v) :
      Fails offset text (Argument.complaint arg)
  | number {mnemonic : List Char} {args : List (List Char)} {op : Opcode} {values : List Nat}
      (hparts : Parts text mnemonic args) (hm : Opcode.Mnemonic mnemonic op)
      (hvalues : List.Forall₂ (Argument.Denotes offset) args values)
      (hmany : op.maxArguments < args.length) :
      Fails offset text (.tooManyArguments op args.length)
  | width {mnemonic : List Char} {args : List (List Char)} {op : Opcode} {values : List Nat}
      {v : Nat} (hparts : Parts text mnemonic args) (hm : Opcode.Mnemonic mnemonic op)
      (hvalues : List.Forall₂ (Argument.Denotes offset) args values)
      (hfew : args.length ≤ op.maxArguments)
      (hwide : (op.shortValues values).find? (0xFFFF < ·) = some v) :
      Fails offset text (.argumentTooWide (BitVec.ofNat 32 v))

end Operation

namespace Instruction

theorem ofOperation_of_mnemonic {labels : Labels} {text mnemonic : List Char}
    {args : List (List Char)} {op : Opcode} (hparts : Operation.Parts text mnemonic args)
    (hm : Opcode.Mnemonic mnemonic op) :
    ofOperation labels text = args.mapM (Argument.read labels) >>= ofValues op := by
  obtain ⟨rfl, rfl⟩ := Operation.parts_iff.mp hparts
  simp only [ofOperation, Opcode.ofMnemonic?_eq_some_iff.mpr hm, List.isEmpty_iff,
    Operation.arguments]
  split
  next => exact (ofValues_nil op).symm
  next =>
    rw [List.mapM_map]
    rfl

theorem ofOperation_of_no_mnemonic {labels : Labels} {text mnemonic : List Char}
    {args : List (List Char)} (hparts : Operation.Parts text mnemonic args)
    (hm : ∀ op, ¬Opcode.Mnemonic mnemonic op) :
    ofOperation labels text = .error (.unknownMnemonic (String.ofList mnemonic)) := by
  obtain ⟨rfl, _⟩ := Operation.parts_iff.mp hparts
  have hnone : Opcode.ofMnemonic? (String.ofList (splitAtBlank text).1) = none := by
    rw [Option.eq_none_iff_forall_ne_some]
    exact fun op hop => hm op (Opcode.ofMnemonic?_eq_some_iff.mp hop)
  simp only [ofOperation, hnone]

theorem fails_of_ofOperation {labels : Labels} {text : List Char} {cause : Cause}
    (hsmall : ∀ name k, labels.lookup name = some k → k < 0x100000000)
    (h : ofOperation labels text = .error cause) :
    Operation.Fails (fun name k => labels.lookup name = some k) text cause := by
  obtain ⟨mnemonic, args, hparts⟩ := Operation.exists_parts text
  by_cases hm : ∃ op, Opcode.Mnemonic mnemonic op
  · obtain ⟨op, hm⟩ := hm
    rw [ofOperation_of_mnemonic hparts hm] at h
    rcases bind_eq_error_iff.mp h with h | ⟨words, hwords, h⟩
    · obtain ⟨place, arg, harg, hbefore, hread⟩ := mapM_eq_error_iff.mp h
      obtain ⟨hnone, rfl⟩ := Argument.read_eq_error_iff.mp hread
      have hwell := fun earlier hmem => Argument.exists_read_iff.mp (hbefore earlier hmem)
      exact .argument hparts hm harg hwell hnone
    · have hvalues := (Argument.mapM_read_eq_ok_iff hsmall).mp hwords
      have hlength : args.length = words.length := by simpa using hvalues.length_eq
      rcases ofValues_eq_error_iff.mp h with ⟨hmany, rfl⟩ | ⟨hfew, hwide⟩
      · rw [← hlength] at hmany ⊢
        exact .number hparts hm hvalues hmany
      · rw [← hlength] at hfew
        obtain ⟨v, hv, rfl⟩ := wideCause_iff.mp hwide
        rw [← Opcode.shortValues_map] at hv
        exact .width hparts hm hvalues hfew hv
  · simp only [not_exists] at hm
    rw [ofOperation_of_no_mnemonic hparts hm] at h
    cases Except.error.inj h
    exact .mnemonic hparts hm

theorem ofOperation_of_values {labels : Labels} {text mnemonic : List Char}
    {args : List (List Char)} {op : Opcode} {values : List Nat}
    (hsmall : ∀ name k, labels.lookup name = some k → k < 0x100000000)
    (hparts : Operation.Parts text mnemonic args) (hm : Opcode.Mnemonic mnemonic op)
    (hvalues : List.Forall₂ (Argument.Denotes fun name k => labels.lookup name = some k)
      args values) :
    ∃ words, words.map BitVec.toNat = values ∧ ofOperation labels text = ofValues op words := by
  have hmap := map_toNat_of_denotes hsmall hvalues
  refine ⟨values.map (BitVec.ofNat 32), hmap, ?_⟩
  rw [ofOperation_of_mnemonic hparts hm, (Argument.mapM_read_eq_ok_iff hsmall).mpr (hmap ▸ hvalues)]
  rfl

theorem ofOperation_of_fails {labels : Labels} {text : List Char} {cause : Cause}
    (hsmall : ∀ name k, labels.lookup name = some k → k < 0x100000000)
    (h : Operation.Fails (fun name k => labels.lookup name = some k) text cause) :
    ofOperation labels text = .error cause := by
  cases h with
  | mnemonic hparts hm => exact ofOperation_of_no_mnemonic hparts hm
  | @argument _ arg _ _ place hparts hm harg hbefore hnone =>
    have hwell := fun earlier hmem => Argument.exists_read_iff.mpr (hbefore earlier hmem)
    have hread := Argument.read_eq_error_iff.mpr ⟨hnone, rfl⟩
    rw [ofOperation_of_mnemonic hparts hm, bind_eq_error_iff]
    exact .inl (mapM_eq_error_iff.mpr ⟨place, arg, harg, hwell, hread⟩)
  | number hparts hm hvalues hmany =>
    obtain ⟨words, rfl, heq⟩ := ofOperation_of_values hsmall hparts hm hvalues
    have hlength := hvalues.length_eq
    rw [List.length_map] at hlength
    rw [heq, ofValues_eq_error_iff, ← hlength]
    exact .inl ⟨hmany, rfl⟩
  | width hparts hm hvalues hfew hwide =>
    obtain ⟨words, rfl, heq⟩ := ofOperation_of_values hsmall hparts hm hvalues
    have hlength := hvalues.length_eq
    rw [List.length_map] at hlength
    rw [Opcode.shortValues_map] at hwide
    rw [heq, ofValues_eq_error_iff, ← hlength]
    exact .inr ⟨hfew, wideCause_iff.mpr ⟨_, hwide, rfl⟩⟩

/-- An operation is refused with what is wrong with it, if no label is too far away. -/
theorem ofOperation_eq_error_iff {labels : Labels} {text : List Char} {cause : Cause}
    (hsmall : ∀ name k, labels.lookup name = some k → k < 0x100000000) :
    ofOperation labels text = .error cause ↔
      Operation.Fails (fun name k => labels.lookup name = some k) text cause :=
  ⟨fails_of_ofOperation hsmall, ofOperation_of_fails hsmall⟩

end Instruction

end RegisterMachine
