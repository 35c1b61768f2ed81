import RegisterMachine.Proofs.CanonicalListing
import RegisterMachine.Proofs.PrintedText

namespace RegisterMachine

namespace Opcode

theorem name_inj {a b : Opcode} (h : a.name = b.name) : a = b := by
  have hread : ∀ op : Opcode, ofMnemonic? op.name = some op := by
    intro op
    have hop := ofMnemonic?_eq_some_iff.mpr (.name op)
    rwa [String.ofList_toList] at hop
  have hboth : some a = some b := by rw [← hread a, h, hread b]
  exact Option.some.inj hboth

theorem isPrintable_name (op : Opcode) : IsPrintable op.name.toList := by
  cases op <;> decide

end Opcode

theorem comma_not_mem_hex (n : Nat) : ',' ∉ (hex n).toList :=
  fun hc => forall_mem_hex (P := (· ≠ ',')) (by decide) (by decide) n _ hc rfl

theorem splitOn_intercalate_hex (first : Nat) (rest : List Nat) :
    ([',', ' '].intercalate ((first :: rest).map fun v => (hex v).toList)).splitOn ',' =
      (hex first).toList :: rest.map fun v => ' ' :: (hex v).toList := by
  rw [List.map_cons, intercalate_comma_blank, List.map_map]
  refine List.splitOn_intercalate ',' ?_ (List.cons_ne_nil _ _)
  intro piece hpiece
  rcases List.mem_cons.mp hpiece with rfl | hpiece
  · exact comma_not_mem_hex first
  · obtain ⟨v, _, rfl⟩ := List.mem_map.mp hpiece
    simpa using comma_not_mem_hex v

/-- Numbers in hexadecimal with commas between them are read back. -/
theorem intercalate_hex_inj {xs ys : List Nat} (hxs : xs ≠ []) (hys : ys ≠ [])
    (h : [',', ' '].intercalate (xs.map fun v => (hex v).toList) =
      [',', ' '].intercalate (ys.map fun v => (hex v).toList)) : xs = ys := by
  obtain ⟨x, xs, rfl⟩ := List.exists_cons_of_ne_nil hxs
  obtain ⟨y, ys, rfl⟩ := List.exists_cons_of_ne_nil hys
  have hsplit := congrArg (List.splitOn ',') h
  rw [splitOn_intercalate_hex, splitOn_intercalate_hex, List.cons.injEq] at hsplit
  have hfirst : x = y := hex_inj (String.toList_inj.mp hsplit.1)
  have hrest : xs = ys := by
    refine List.map_injective_iff.mpr ?_ hsplit.2
    intro v w hvw
    exact hex_inj (String.toList_inj.mp (List.cons.inj hvw).2)
  rw [hfirst, hrest]

namespace Instruction

variable {i j : Instruction} {op : Opcode}

theorem toList_text (h : i.opcode? = some op) :
    i.text.toList = op.name.toList ++
      ' ' :: [',', ' '].intercalate ((i.arguments op).map fun v => (hex v).toList) := by
  simp [text, h, String.toList_intercalate, Function.comp_def]

theorem toList_text_of_none (h : i.opcode? = none) :
    i.text.toList = "<invalid ".toList ++ (hexWide 16 i.bits.toNat).toList ++ ['>'] := by
  simp [text, h]

theorem isPrintable_text (i : Instruction) : IsPrintable i.text.toList := by
  cases hop : i.opcode? with
  | some op =>
    rw [toList_text hop]
    refine op.isPrintable_name.append (.cons (by decide) ?_)
    intro c hc
    rcases mem_of_mem_intercalate hc with hc | ⟨piece, hpiece, hc⟩
    · exact (by decide : IsPrintable [',', ' ']) c hc
    · obtain ⟨v, _, rfl⟩ := List.mem_map.mp hpiece
      exact isPrintable_hex v c hc
  | none =>
    rw [toList_text_of_none hop]
    exact ((by decide : IsPrintable "<invalid ".toList).append (isPrintable_hexWide 16 _)).append
      (by decide)

theorem arguments_ne_nil (i : Instruction) (op : Opcode) : i.arguments op ≠ [] := by
  obtain ⟨before, heq⟩ := exists_arguments_eq_concat i op
  simp [heq]

theorem text_ne_of_known (hi : i.opcode? = some op) (hj : j.opcode? = none) :
    i.text ≠ j.text := by
  intro h
  have hhead := congrArg (fun text => text.toList.head?) h
  simp only [toList_text hi, toList_text_of_none hj] at hhead
  cases op <;> simp [Opcode.name] at hhead

theorem splitAtBlank_text (h : i.opcode? = some op) :
    splitAtBlank i.text.toList = (op.name.toList,
      ' ' :: [',', ' '].intercalate ((i.arguments op).map fun v => (hex v).toList)) := by
  rw [toList_text h]
  refine Operation.splitAtBlank_mnemonic op.not_isBlank_of_mem_name _ ?_
  intro c hc
  cases Option.some.inj hc
  decide

/-- The text of an instruction determines it. -/
theorem text_inj (h : i.text = j.text) : i = j := by
  cases hi : i.opcode? with
  | none =>
    cases hj : j.opcode? with
    | none =>
      have htext := congrArg String.toList h
      rw [toList_text_of_none hi, toList_text_of_none hj] at htext
      have hwide := List.append_cancel_left (List.append_cancel_right htext)
      have hbits := hexWide_inj (String.toList_inj.mp hwide)
      exact congrArg Instruction.mk (BitVec.eq_of_toNat_eq hbits)
    | some op => exact absurd h.symm (text_ne_of_known hj hi)
  | some op =>
    cases hj : j.opcode? with
    | none => exact absurd h (text_ne_of_known hi hj)
    | some op' =>
      have hsplit := congrArg (fun text => splitAtBlank text.toList) h
      simp only [splitAtBlank_text hi, splitAtBlank_text hj, Prod.mk.injEq, List.cons.injEq,
        true_and] at hsplit
      obtain rfl : op = op' := Opcode.name_inj (String.toList_inj.mp hsplit.1)
      have harguments := intercalate_hex_inj (arguments_ne_nil i op) (arguments_ne_nil j op)
        hsplit.2
      exact eq_of_arguments hi hj harguments

end Instruction

namespace Program

/-- The lines of the text are the numbered instructions. -/
theorem lines_text (p : Program) :
    lines p.text.toList = p.toList.zipIdx.map fun (i, index) =>
      (decimal (index + 1) ++ " " ++ i.text).toList := by
  refine lines_intercalate_map ?_ ?_ p.toList.zipIdx
  · intro (i, index)
    simp only [String.toList_append]
    exact ((isPrintable_decimal _).append (by decide)).append i.isPrintable_text
  · simp

/-- Two programs with the same text are the same program, whether their operation codes are known
or not. -/
theorem display_determines_program (p q : Program) : p.text = q.text ↔ p = q := by
  refine ⟨fun h => ?_, congrArg text⟩
  have hlines := congrArg (fun text => lines text.toList) h
  simp only [lines_text] at hlines
  have hlist : p.toList = q.toList := by
    refine zipIdx_map_inj (fun i j index hij => ?_) hlines
    simp only [String.toList_append, List.append_cancel_left_eq] at hij
    exact Instruction.text_inj (String.toList_inj.mp hij)
  exact congrArg ofList hlist

end Program

end RegisterMachine
