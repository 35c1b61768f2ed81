import RegisterMachine.Instruction

namespace RegisterMachine.Instruction

@[simp]
theorem opcode?_short (op : Opcode) (a0 a1 a2 : BitVec 16) :
    (short op a0 a1 a2).opcode? = some op := by
  rw [opcode?, codeBits_short, Opcode.ofCode?_code]

@[simp]
theorem opcode?_long (op : Opcode) (l : BitVec 32) (a2 : BitVec 16) :
    (long op l a2).opcode? = some op := by
  rw [opcode?, codeBits_long, Opcode.ofCode?_code]

theorem eq_short_of_opcode? {i : Instruction} {op : Opcode} (h : i.opcode? = some op) :
    i = short op i.arg0 i.arg1 i.arg2 := by
  have hcode : op.code = i.codeBits := Opcode.code_of_ofCode? h
  refine congrArg Instruction.mk ?_
  simp only [hcode, codeBits, arg0, arg1, arg2]
  iterate 3 rw [BitVec.extractLsb'_append_extractLsb'_eq_extractLsb' (by decide)]
  exact BitVec.extractLsb'_eq_self.symm

theorem eq_long_of_opcode? {i : Instruction} {op : Opcode} (h : i.opcode? = some op) :
    i = long op i.longArg i.arg2 := by
  have hcode : op.code = i.codeBits := Opcode.code_of_ofCode? h
  have hbits : i.bits = (long op i.longArg i.arg2).bits := by
    simp only [bits_long, hcode, codeBits, longArg, arg2]
    iterate 2 rw [BitVec.extractLsb'_append_extractLsb'_eq_extractLsb' (by decide)]
    exact BitVec.extractLsb'_eq_self.symm
  exact congrArg Instruction.mk hbits

theorem eq_of_arguments {i j : Instruction} {op : Opcode} (hi : i.opcode? = some op)
    (hj : j.opcode? = some op) (h : i.arguments op = j.arguments op) : i = j := by
  unfold arguments at h
  split at h
  next =>
    simp only [List.cons.injEq, BitVec.toNat_inj, and_true] at h
    rw [eq_long_of_opcode? hi, eq_long_of_opcode? hj, h.1, h.2]
  next =>
    simp only [List.cons.injEq, BitVec.toNat_inj, and_true] at h
    rw [eq_short_of_opcode? hi, eq_short_of_opcode? hj, h.1, h.2.1, h.2.2]

end RegisterMachine.Instruction
