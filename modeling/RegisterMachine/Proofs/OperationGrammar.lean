import RegisterMachine.Assembly
import RegisterMachine.Proofs.ArgumentGrammar
import RegisterMachine.Proofs.InstructionFields
import RegisterMachine.Proofs.TextLines
import Mathlib.Data.List.Forall2

namespace RegisterMachine

theorem mapM_eq_ok_iff {ε α β : Type} {f : α → Except ε β} {xs : List α} {ys : List β} :
    xs.mapM f = .ok ys ↔ List.Forall₂ (fun x y => f x = .ok y) xs ys := by
  induction xs generalizing ys with
  | nil => simp [pure, Except.pure, eq_comm]
  | cons x xs ih =>
    rw [List.mapM_cons, List.forall₂_cons_left_iff]
    cases hx : f x with
    | error e => simp [bind, Except.bind]
    | ok y =>
      cases hxs : xs.mapM f with
      | error e => simp_all [bind, Except.bind]
      | ok rest =>
        have hrest := ih.mp hxs
        simp only [bind, Except.bind, pure, Except.pure, Except.ok.injEq]
        constructor
        · rintro rfl
          exact ⟨y, rest, rfl, hrest, rfl⟩
        · rintro ⟨y', rest', rfl, hrest', rfl⟩
          rw [Except.ok.inj (hxs.symm.trans (ih.mpr hrest'))]

namespace Opcode

/-- The values that the arguments of an operation can take: a long operation has at most two and
the second is short, any other has at most three and all are short. -/
def Fits (op : Opcode) (values : List Nat) : Prop :=
  if op.isLong then values.length ≤ 2 ∧ ∀ v, values[1]? = some v → v ≤ 0xFFFF
  else values.length ≤ 3 ∧ ∀ v ∈ values, v ≤ 0xFFFF

end Opcode

namespace Instruction

/-- An instruction carries an operation code and the values of its arguments; the arguments that
are not given are zero. -/
def Carries (i : Instruction) (op : Opcode) (values : List Nat) : Prop :=
  i.opcode? = some op ∧ i.arguments op = values.rightpad op.maxArguments 0

theorem Carries.unique {i j : Instruction} {op : Opcode} {values : List Nat}
    (hi : i.Carries op values) (hj : j.Carries op values) : i = j :=
  eq_of_arguments hi.1 hj.1 (hi.2.trans hj.2.symm)

theorem narrow_eq_ok_iff {values : List (BitVec 32)} {place : Nat} {a : BitVec 16} :
    narrow values place = .ok a ↔ a.toNat = (values[place]?.getD 0).toNat := by
  simp only [narrow]
  split
  next h =>
    rw [Except.ok.injEq, ← BitVec.toNat_inj, BitVec.toNat_setWidth, Nat.mod_eq_of_lt h, eq_comm]
  next h =>
    have := a.isLt
    simp only [reduceCtorEq, false_iff]
    omega

theorem carries_of_long {op : Opcode} {values : List (BitVec 32)} {arg2 : BitVec 16}
    (hlong : op.isLong) (hlength : values.length ≤ 2)
    (harg2 : arg2.toNat = (values[1]?.getD 0).toNat) :
    op.Fits (values.map BitVec.toNat) ∧
      (long op (values[0]?.getD 0) arg2).Carries op (values.map BitVec.toNat) := by
  have hbound := arg2.isLt
  simp only [Opcode.Fits, Carries, opcode?_long, arguments, hlong, if_true, longArg_long, arg2_long,
    Opcode.maxArguments]
  rcases values with _ | ⟨a, _ | ⟨b, _ | ⟨c, rest⟩⟩⟩
  · simpa [List.rightpad] using harg2
  · simpa [List.rightpad] using harg2
  · have hb : arg2.toNat = b.toNat := by simpa using harg2
    simp [List.rightpad, hb]
    omega
  · simp at hlength

theorem carries_of_short {op : Opcode} {values : List (BitVec 32)} {arg0 arg1 arg2 : BitVec 16}
    (hshort : ¬op.isLong) (hlength : values.length ≤ 3)
    (harg0 : arg0.toNat = (values[0]?.getD 0).toNat)
    (harg1 : arg1.toNat = (values[1]?.getD 0).toNat)
    (harg2 : arg2.toNat = (values[2]?.getD 0).toNat) :
    op.Fits (values.map BitVec.toNat) ∧
      (short op arg0 arg1 arg2).Carries op (values.map BitVec.toNat) := by
  have hbound0 := arg0.isLt
  have hbound1 := arg1.isLt
  have hbound2 := arg2.isLt
  simp only [Opcode.Fits, Carries, opcode?_short, arguments, hshort, arg0_short,
    arg1_short, arg2_short, Opcode.maxArguments, harg0, harg1, harg2]
  rcases values with _ | ⟨a, _ | ⟨b, _ | ⟨c, _ | ⟨d, rest⟩⟩⟩⟩ <;>
    simp [List.rightpad] at * <;> omega

theorem ofValues_carries {op : Opcode} {values : List (BitVec 32)} {i : Instruction}
    (h : ofValues op values = .ok i) :
    op.Fits (values.map BitVec.toNat) ∧ i.Carries op (values.map BitVec.toNat) := by
  unfold ofValues at h
  split at h
  next => simp at h
  next hlength =>
    split at h
    next hlong =>
      obtain ⟨arg2, harg2, hi⟩ := bind_eq_ok_iff.mp h
      cases Except.ok.inj hi
      have hmax : op.maxArguments = 2 := if_pos hlong
      exact carries_of_long hlong (by omega) (narrow_eq_ok_iff.mp harg2)
    next hlong =>
      obtain ⟨arg0, harg0, h⟩ := bind_eq_ok_iff.mp h
      obtain ⟨arg1, harg1, h⟩ := bind_eq_ok_iff.mp h
      obtain ⟨arg2, harg2, hi⟩ := bind_eq_ok_iff.mp h
      cases Except.ok.inj hi
      have hmax : op.maxArguments = 3 := if_neg hlong
      exact carries_of_short hlong (by omega) (narrow_eq_ok_iff.mp harg0)
        (narrow_eq_ok_iff.mp harg1) (narrow_eq_ok_iff.mp harg2)

theorem narrow_of_le (values : List (BitVec 32)) (place : Nat)
    (h : ∀ w, values[place]? = some w → w.toNat ≤ 0xFFFF) :
    ∃ a, narrow values place = .ok a := by
  refine ⟨(values[place]?.getD 0).setWidth 16, narrow_eq_ok_iff.mpr ?_⟩
  rw [BitVec.toNat_setWidth]
  apply Nat.mod_eq_of_lt
  cases hw : values[place]? with
  | none => simp
  | some w =>
    have := h w hw
    simpa using Nat.lt_succ_of_le this

theorem ofValues_of_fits {op : Opcode} {values : List (BitVec 32)}
    (h : op.Fits (values.map BitVec.toNat)) : ∃ i, ofValues op values = .ok i := by
  unfold Opcode.Fits at h
  split at h
  next hlong =>
    obtain ⟨hlength, hsecond⟩ := h
    have hmax : ¬op.maxArguments < values.length := by
      simpa [Opcode.maxArguments, hlong] using hlength
    obtain ⟨arg2, harg2⟩ := narrow_of_le values 1 fun w hw =>
      hsecond w.toNat (by simp [hw])
    exact ⟨long op (values[0]?.getD 0) arg2, by
      simp [ofValues, hmax, hlong, harg2, bind, Except.bind, pure, Except.pure]⟩
  next hlong =>
    obtain ⟨hlength, hall⟩ := h
    have hmax : ¬op.maxArguments < values.length := by
      simpa [Opcode.maxArguments, hlong] using hlength
    have hle : ∀ (place : Nat) (w : BitVec 32), values[place]? = some w → w.toNat ≤ 0xFFFF :=
      fun place w hw => hall w.toNat (List.mem_map_of_mem (List.mem_of_getElem? hw))
    obtain ⟨arg0, harg0⟩ := narrow_of_le values 0 (hle 0)
    obtain ⟨arg1, harg1⟩ := narrow_of_le values 1 (hle 1)
    obtain ⟨arg2, harg2⟩ := narrow_of_le values 2 (hle 2)
    exact ⟨short op arg0 arg1 arg2, by
      simp [ofValues, hmax, hlong, harg0, harg1, harg2, bind, Except.bind, pure, Except.pure]⟩

theorem ofValues_eq_ok_iff {op : Opcode} {values : List (BitVec 32)} {i : Instruction} :
    ofValues op values = .ok i ↔
      op.Fits (values.map BitVec.toNat) ∧ i.Carries op (values.map BitVec.toNat) := by
  constructor
  · exact ofValues_carries
  · rintro ⟨hfits, hcarries⟩
    obtain ⟨j, hj⟩ := ofValues_of_fits hfits
    rw [hj, (ofValues_carries hj).2.unique hcarries]

end Instruction

namespace Operation

/-- The mnemonic of an operation and the texts of its arguments: a mnemonic stands alone, or
blanks follow it and then pieces divided by commas, whose outer blanks do not count. -/
inductive Parts : List Char → List Char → List (List Char) → Prop where
  | alone {mnemonic : List Char} (hm : ∀ c ∈ mnemonic, ¬isBlank c) : Parts mnemonic mnemonic []
  | pieces {mnemonic blanks : List Char} {pieces : List (List Char)}
      (hm : ∀ c ∈ mnemonic, ¬isBlank c) (hne : blanks ≠ []) (hb : ∀ c ∈ blanks, isBlank c)
      (hp : pieces ≠ []) (hc : ∀ piece ∈ pieces, ',' ∉ piece) :
      Parts (mnemonic ++ (blanks ++ [','].intercalate pieces)) mnemonic (pieces.map trim)

/-- An operation is read as an operation code and the values of its arguments. -/
def Reads (offset : List Char → Nat → Prop) (text : List Char) (op : Opcode)
    (values : List Nat) : Prop :=
  ∃ mnemonic arguments, Parts text mnemonic arguments ∧ Opcode.Mnemonic mnemonic op ∧
    List.Forall₂ (Argument.Denotes offset) arguments values ∧ op.Fits values

def arguments (text : List Char) : List (List Char) :=
  if (splitAtBlank text).2 = [] then [] else ((splitAtBlank text).2.splitOn ',').map trim

theorem splitAtBlank_mnemonic {mnemonic : List Char} (hm : ∀ c ∈ mnemonic, ¬isBlank c)
    (tail : List Char) (ht : ∀ c, tail.head? = some c → isBlank c) :
    splitAtBlank (mnemonic ++ tail) = (mnemonic, tail) := by
  have hm' : ∀ c ∈ mnemonic, (!isBlank c) = true := by simpa using hm
  rw [splitAtBlank, List.takeWhile_append_of_pos hm', List.dropWhile_append_of_pos hm']
  cases tail with
  | nil => simp
  | cons c rest => simp [ht c rfl]

theorem not_isBlank_comma : ¬isBlank ',' := by
  decide

theorem Parts.eq_arguments {text mnemonic : List Char} {args : List (List Char)}
    (h : Parts text mnemonic args) :
    (splitAtBlank text).1 = mnemonic ∧ arguments text = args := by
  cases h with
  | alone hm =>
    have hsplit := splitAtBlank_mnemonic hm [] (by simp)
    rw [List.append_nil] at hsplit
    simp [arguments, hsplit]
  | @pieces _ blanks pieces hm hne hb hp hc =>
    obtain ⟨b, bs, rfl⟩ := List.exists_cons_of_ne_nil hne
    have hsplit := splitAtBlank_mnemonic hm (b :: bs ++ [','].intercalate pieces)
      (by simpa using hb b)
    refine ⟨by rw [hsplit], ?_⟩
    rw [arguments, hsplit, if_neg (by simp), map_trim_splitOn_append_left not_isBlank_comma hb,
      List.splitOn_intercalate ',' hc hp]

theorem not_isBlank_of_mem_mnemonic {text : List Char} {c : Char}
    (h : c ∈ (splitAtBlank text).1) : ¬isBlank c := by
  simpa using List.mem_takeWhile_imp h

theorem isBlank_of_tail {text rest : List Char} {b : Char}
    (h : (splitAtBlank text).2 = b :: rest) : isBlank b := by
  have hdrop : text.dropWhile (!isBlank ·) = b :: rest := h
  have hnot := List.head?_dropWhile_not (!isBlank ·) text
  simpa [hdrop] using hnot

theorem exists_parts (text : List Char) : ∃ mnemonic args, Parts text mnemonic args := by
  have hm : ∀ c ∈ (splitAtBlank text).1, ¬isBlank c := fun _ => not_isBlank_of_mem_mnemonic
  have happend := splitAtBlank_append text
  cases htail : (splitAtBlank text).2 with
  | nil =>
    rw [htail, List.append_nil] at happend
    rw [happend] at hm
    exact ⟨text, [], .alone hm⟩
  | cons b rest =>
    have hblanks : ∀ c ∈ [b], isBlank c := by simpa using isBlank_of_tail htail
    have hpieces : ∀ piece ∈ rest.splitOn ',', ',' ∉ piece := fun _ => not_mem_of_mem_splitOn
    have hparts := Parts.pieces hm (by simp) hblanks (List.splitOn_ne_nil _ _) hpieces
    rw [List.intercalate_splitOn, List.singleton_append, ← htail, happend] at hparts
    exact ⟨_, _, hparts⟩

theorem parts_iff {text mnemonic : List Char} {args : List (List Char)} :
    Parts text mnemonic args ↔ (splitAtBlank text).1 = mnemonic ∧ arguments text = args := by
  constructor
  · exact Parts.eq_arguments
  · rintro ⟨rfl, rfl⟩
    obtain ⟨mnemonic, args, h⟩ := exists_parts text
    obtain ⟨rfl, rfl⟩ := h.eq_arguments
    exact h

end Operation

namespace Instruction

theorem argumentValues_eq_ok_iff {labels : Labels} {tail : List Char}
    {values : List (BitVec 32)} :
    argumentValues labels tail = .ok values ↔
      List.Forall₂ (fun text w => Argument.read labels text = .ok w)
        ((tail.splitOn ',').map trim) values := by
  rw [List.forall₂_map_left_iff]
  exact mapM_eq_ok_iff

theorem ofValues_nil (op : Opcode) : ofValues op [] = .ok (bare op) := by
  cases op <;> rfl

theorem ofOperation_eq_ok_iff_parts {labels : Labels} {text : List Char} {i : Instruction} :
    ofOperation labels text = .ok i ↔ ∃ mnemonic args op values,
      Operation.Parts text mnemonic args ∧ Opcode.Mnemonic mnemonic op ∧
      List.Forall₂ (fun text w => Argument.read labels text = .ok w) args values ∧
      ofValues op values = .ok i := by
  simp only [Operation.parts_iff, ← Opcode.ofMnemonic?_eq_some_iff, ofOperation]
  constructor
  · intro h
    split at h
    next => simp at h
    next op hop =>
      split at h
      next htail =>
        refine ⟨_, _, op, [], ⟨rfl, rfl⟩, hop, ?_, by rw [ofValues_nil, h]⟩
        simp [Operation.arguments, List.isEmpty_iff.mp htail]
      next htail =>
        obtain ⟨values, hvalues, hi⟩ := bind_eq_ok_iff.mp h
        refine ⟨_, _, op, values, ⟨rfl, rfl⟩, hop, ?_, hi⟩
        rw [Operation.arguments, if_neg (by simpa using htail)]
        exact argumentValues_eq_ok_iff.mp hvalues
  · rintro ⟨_, _, op, values, ⟨rfl, rfl⟩, hop, hvalues, hi⟩
    simp only [hop, List.isEmpty_iff]
    unfold Operation.arguments at hvalues
    split at hvalues
    next htail =>
      cases hvalues
      rw [if_pos htail, ← ofValues_nil, hi]
    next htail =>
      rw [if_neg htail]
      exact bind_eq_ok_iff.mpr ⟨values, argumentValues_eq_ok_iff.mpr hvalues, hi⟩

theorem map_toNat_of_denotes {offset : List Char → Nat → Prop}
    (hoffset : ∀ name k, offset name k → k < 0x100000000) {args : List (List Char)}
    {values : List Nat} (h : List.Forall₂ (Argument.Denotes offset) args values) :
    (values.map (BitVec.ofNat 32)).map BitVec.toNat = values := by
  induction h with
  | nil => rfl
  | cons hv _ ih =>
    simp only [List.map_cons, ih, BitVec.toNat_ofNat, Nat.mod_eq_of_lt (hv.lt hoffset)]

theorem ofOperation_eq_ok_iff {labels : Labels} {text : List Char} {i : Instruction}
    (hsmall : ∀ name k, labels.lookup name = some k → k < 0x100000000) :
    ofOperation labels text = .ok i ↔
      ∃ op values, Operation.Reads (fun name k => labels.lookup name = some k) text op values ∧
        i.Carries op values := by
  simp only [ofOperation_eq_ok_iff_parts, Argument.read_eq_ok_iff hsmall, ofValues_eq_ok_iff]
  constructor
  · rintro ⟨mnemonic, args, op, values, hparts, hm, hvalues, hfits, hcarries⟩
    have hdenotes := List.forall₂_map_right_iff.mpr hvalues
    exact ⟨op, _, ⟨mnemonic, args, hparts, hm, hdenotes, hfits⟩, hcarries⟩
  · rintro ⟨op, values, ⟨mnemonic, args, hparts, hm, hdenotes, hfits⟩, hcarries⟩
    have hmap := map_toNat_of_denotes hsmall hdenotes
    refine ⟨mnemonic, args, op, values.map (BitVec.ofNat 32), hparts, hm, ?_, ?_⟩
    · rwa [← List.forall₂_map_right_iff, hmap]
    · rw [hmap]
      exact ⟨hfits, hcarries⟩

end Instruction

end RegisterMachine
