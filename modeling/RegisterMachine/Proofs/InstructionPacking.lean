import RegisterMachine.Proofs.ByteForm
import RegisterMachine.Proofs.InstructionFields

namespace RegisterMachine.Instruction

theorem short_eq_long (op : Opcode) (a0 a1 a2 : BitVec 16) :
    short op a0 a1 a2 = long op (a0 ++ a1) a2 := by
  have hhigh : (a0 ++ a1).extractLsb' 16 16 = a0 := by
    rw [BitVec.extractLsb'_append_eq_of_le (by decide)]
    exact BitVec.extractLsb'_eq_self
  have hlow : (a0 ++ a1).extractLsb' 0 16 = a1 := by
    rw [BitVec.extractLsb'_append_eq_of_add_le (by decide)]
    exact BitVec.extractLsb'_eq_self
  rw [long, hhigh, hlow]

theorem toNat_append_half (high low : BitVec 16) :
    (high ++ low).toNat = high.toNat * 65536 + low.toNat := by
  rw [BitVec.toNat_append, ← Nat.shiftLeft_add_eq_or_of_lt low.isLt, Nat.shiftLeft_eq]

theorem toNat_longArg_short (op : Opcode) (a0 a1 a2 : BitVec 16) :
    (short op a0 a1 a2).longArg.toNat = a0.toNat * 65536 + a1.toNat := by
  rw [short_eq_long, longArg_long, toNat_append_half]

theorem opcode?_eq_none_iff {i : Instruction} : i.opcode? = none ↔ 29 ≤ i.codeBits.toNat :=
  Opcode.ofCode?_eq_none_iff

/-- The fields of a packed instruction are those it was packed from, and an instruction with a known
operation code is packed from its own fields in both ways. Every other instruction has a code beyond
the known ones, and every instruction is read back from its bytes. -/
theorem packing_inverts_projection :
    (∀ (op : Opcode) (a0 a1 a2 : BitVec 16),
      (short op a0 a1 a2).opcode? = some op ∧ (short op a0 a1 a2).arg0 = a0 ∧
      (short op a0 a1 a2).arg1 = a1 ∧ (short op a0 a1 a2).arg2 = a2 ∧
      (short op a0 a1 a2).longArg.toNat = a0.toNat * 65536 + a1.toNat) ∧
    (∀ (op : Opcode) (l : BitVec 32) (a2 : BitVec 16),
      (long op l a2).opcode? = some op ∧ (long op l a2).longArg = l ∧
      (long op l a2).arg2 = a2) ∧
    ∀ i : Instruction,
      (∀ op, i.opcode? = some op →
        i = short op i.arg0 i.arg1 i.arg2 ∧ i = long op i.longArg i.arg2) ∧
      (i.opcode? = none ↔ 29 ≤ i.codeBits.toNat) ∧
      ofBytes? i.toBytes = some i := by
  refine ⟨?_, ?_, ?_⟩
  · intro op a0 a1 a2
    exact ⟨opcode?_short op a0 a1 a2, arg0_short op a0 a1 a2, arg1_short op a0 a1 a2,
      arg2_short op a0 a1 a2, toNat_longArg_short op a0 a1 a2⟩
  · intro op l a2
    exact ⟨opcode?_long op l a2, longArg_long op l a2, arg2_long op l a2⟩
  · intro i
    refine ⟨fun op hop => ?_, opcode?_eq_none_iff, ofBytes?_toBytes i⟩
    exact ⟨eq_short_of_opcode? hop, eq_long_of_opcode? hop⟩

/-- All fields are distinct here, so that no two of them can be exchanged unnoticed. -/
theorem packing_inverts_projection_distinct :
    (⟨0x001C123456789ABC⟩ : Instruction).opcode? = some .sys ∧
      (⟨0x001C123456789ABC⟩ : Instruction) = short .sys 0x1234 0x5678 0x9ABC ∧
      (⟨0x001C123456789ABC⟩ : Instruction) = long .sys 0x12345678 0x9ABC := by
  have hop : (⟨0x001C123456789ABC⟩ : Instruction).opcode? = some .sys := by decide
  exact ⟨hop, (packing_inverts_projection.2.2 _).1 _ hop⟩

end RegisterMachine.Instruction
