import RegisterMachine.Numeral
import RegisterMachine.Opcode

namespace RegisterMachine

/-- From the top an operation code and three arguments of 16 bits each. A long argument is the
first two of them in one. The code need not be a known one. -/
structure Instruction where
  bits : BitVec 64
deriving DecidableEq

namespace Instruction

/-- How many bytes an instruction takes. -/
def byteCount : Nat := 8

def short (op : Opcode) (arg0 arg1 arg2 : BitVec 16) : Instruction :=
  ⟨op.code ++ arg0 ++ arg1 ++ arg2⟩

/-- The high half of the long argument is the first argument and the low half the second. -/
def long (op : Opcode) (longArg : BitVec 32) (arg2 : BitVec 16) : Instruction :=
  short op (longArg.extractLsb' 16 16) (longArg.extractLsb' 0 16) arg2

/-- The instruction with every argument zero. -/
def bare (op : Opcode) : Instruction :=
  short op 0 0 0

/-- The field of the operation code, which need not be a known one. -/
def codeBits (i : Instruction) : BitVec 16 :=
  i.bits.extractLsb' 48 16

def opcode? (i : Instruction) : Option Opcode :=
  Opcode.ofCode? i.codeBits

def arg0 (i : Instruction) : BitVec 16 :=
  i.bits.extractLsb' 32 16

def arg1 (i : Instruction) : BitVec 16 :=
  i.bits.extractLsb' 16 16

def arg2 (i : Instruction) : BitVec 16 :=
  i.bits.extractLsb' 0 16

def longArg (i : Instruction) : BitVec 32 :=
  i.bits.extractLsb' 16 32

/-- The arguments as the operation `op` reads them. -/
def arguments (i : Instruction) (op : Opcode) : List Nat :=
  if op.isLong then [i.longArg.toNat, i.arg2.toNat]
  else [i.arg0.toNat, i.arg1.toNat, i.arg2.toNat]

def text (i : Instruction) : String :=
  match i.opcode? with
  | some op => op.name ++ " " ++ ", ".intercalate ((i.arguments op).map hex)
  | none => "<invalid " ++ hexWide 16 i.bits.toNat ++ ">"

/-- The byte that holds the bits from `8 * k` on. -/
def byte (i : Instruction) (k : Nat) : UInt8 :=
  UInt8.ofBitVec (i.bits.extractLsb' (8 * k) 8)

/-- The eight bytes, the lowest first. -/
def toBytes (i : Instruction) : List UInt8 :=
  [i.byte 0, i.byte 1, i.byte 2, i.byte 3, i.byte 4, i.byte 5, i.byte 6, i.byte 7]

/-- The instruction of eight bytes, the lowest first. -/
def ofEightBytes (b0 b1 b2 b3 b4 b5 b6 b7 : UInt8) : Instruction :=
  ⟨b7.toBitVec ++ b6.toBitVec ++ b5.toBitVec ++ b4.toBitVec ++
    b3.toBitVec ++ b2.toBitVec ++ b1.toBitVec ++ b0.toBitVec⟩

/-- Only a list of exactly eight bytes is an instruction. -/
def ofBytes? : List UInt8 → Option Instruction
  | [b0, b1, b2, b3, b4, b5, b6, b7] => some (ofEightBytes b0 b1 b2 b3 b4 b5 b6 b7)
  | _ => none

@[simp]
theorem codeBits_short (op : Opcode) (a0 a1 a2 : BitVec 16) :
    (short op a0 a1 a2).codeBits = op.code := by
  unfold short codeBits
  rw [BitVec.extractLsb'_append_eq_of_le (by decide),
    BitVec.extractLsb'_append_eq_of_le (by decide),
    BitVec.extractLsb'_append_eq_of_le (by decide)]
  exact BitVec.extractLsb'_eq_self

@[simp]
theorem arg0_short (op : Opcode) (a0 a1 a2 : BitVec 16) : (short op a0 a1 a2).arg0 = a0 := by
  unfold short arg0
  rw [BitVec.extractLsb'_append_eq_of_le (by decide),
    BitVec.extractLsb'_append_eq_of_le (by decide),
    BitVec.extractLsb'_append_eq_of_add_le (by decide)]
  exact BitVec.extractLsb'_eq_self

@[simp]
theorem arg1_short (op : Opcode) (a0 a1 a2 : BitVec 16) : (short op a0 a1 a2).arg1 = a1 := by
  unfold short arg1
  rw [BitVec.extractLsb'_append_eq_of_le (by decide),
    BitVec.extractLsb'_append_eq_of_add_le (by decide)]
  exact BitVec.extractLsb'_eq_self

@[simp]
theorem arg2_short (op : Opcode) (a0 a1 a2 : BitVec 16) : (short op a0 a1 a2).arg2 = a2 := by
  unfold short arg2
  rw [BitVec.extractLsb'_append_eq_of_add_le (by decide)]
  exact BitVec.extractLsb'_eq_self

/-- The long argument stands undivided between the operation code and the last argument. -/
theorem bits_long (op : Opcode) (l : BitVec 32) (a2 : BitVec 16) :
    (long op l a2).bits = op.code ++ l ++ a2 := by
  have hassoc : op.code ++ l.extractLsb' 16 16 ++ l.extractLsb' 0 16 =
      op.code ++ (l.extractLsb' 16 16 ++ l.extractLsb' 0 16) := BitVec.append_assoc
  have hhalves : l.extractLsb' 16 16 ++ l.extractLsb' 0 16 = l := by
    rw [BitVec.extractLsb'_append_extractLsb'_eq_extractLsb' (by decide)]
    exact BitVec.extractLsb'_eq_self
  rw [hhalves] at hassoc
  exact congrArg (fun front : BitVec 48 => front ++ a2) hassoc

@[simp]
theorem codeBits_long (op : Opcode) (l : BitVec 32) (a2 : BitVec 16) :
    (long op l a2).codeBits = op.code :=
  codeBits_short ..

@[simp]
theorem longArg_long (op : Opcode) (l : BitVec 32) (a2 : BitVec 16) :
    (long op l a2).longArg = l := by
  rw [longArg, bits_long, BitVec.extractLsb'_append_eq_of_le (by decide),
    BitVec.extractLsb'_append_eq_of_add_le (by decide)]
  exact BitVec.extractLsb'_eq_self

@[simp]
theorem arg2_long (op : Opcode) (l : BitVec 32) (a2 : BitVec 16) : (long op l a2).arg2 = a2 :=
  arg2_short ..

theorem ofEightBytes_byte (i : Instruction) :
    ofEightBytes (i.byte 0) (i.byte 1) (i.byte 2) (i.byte 3) (i.byte 4) (i.byte 5) (i.byte 6)
      (i.byte 7) = i := by
  refine congrArg Instruction.mk ?_
  simp only [byte]
  iterate 7 rw [BitVec.extractLsb'_append_extractLsb'_eq_extractLsb' (by decide)]
  exact BitVec.extractLsb'_eq_self

theorem length_toBytes (i : Instruction) : i.toBytes.length = byteCount := rfl

end Instruction

end RegisterMachine
