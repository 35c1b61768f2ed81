import RegisterMachine.Fault

namespace RegisterMachine

structure Program where
  instructions : Array Instruction
deriving DecidableEq

/-- A byte form whose length is no whole number of instructions. -/
structure Misaligned where
  length : Nat
deriving DecidableEq

def Misaligned.message (e : Misaligned) : String :=
  "binary program of " ++ decimal e.length ++
    " bytes is not a whole number of 8 byte instructions"

namespace Program

def empty : Program := ⟨#[]⟩

def ofList (instructions : List Instruction) : Program := ⟨instructions.toArray⟩

def toList (p : Program) : List Instruction := p.instructions.toList

def size (p : Program) : Nat := p.instructions.size

def isEmpty (p : Program) : Bool := p.instructions.isEmpty

def push (p : Program) (i : Instruction) : Program := ⟨p.instructions.push i⟩

def get (p : Program) (index : BitVec 32) : Except Fault Instruction :=
  match p.instructions[index.toNat]? with
  | some i => .ok i
  | none => .error (.instructionOutside index p.size)

/-- Replaces the instruction at an index. -/
def set (p : Program) (index : BitVec 32) (i : Instruction) : Except Fault Program :=
  if h : index.toNat < p.instructions.size then .ok ⟨p.instructions.set index.toNat i h⟩
  else .error (.instructionOutside index p.size)

def toBytes (p : Program) : List UInt8 :=
  p.toList.flatMap Instruction.toBytes

/-- Appends the chunks of eight bytes to those in front. The last one is shorter if the bytes do
not come out even. -/
def appendChunks (front : Array (List UInt8)) : List UInt8 → Array (List UInt8)
  | [] => front
  | b0 :: b1 :: b2 :: b3 :: b4 :: b5 :: b6 :: b7 :: rest =>
    appendChunks (front.push [b0, b1, b2, b3, b4, b5, b6, b7]) rest
  | rest => front.push rest

def chunks (bytes : List UInt8) : Array (List UInt8) :=
  appendChunks #[] bytes

/-- The instructions of the chunks; a chunk that is none is skipped. -/
def ofBytes (bytes : List UInt8) : Except Misaligned Program :=
  if bytes.length % Instruction.byteCount = 0 then
    .ok ⟨(chunks bytes).filterMap Instruction.ofBytes?⟩
  else .error ⟨bytes.length⟩

/-- One instruction on a line, numbered from 1. -/
def text (p : Program) : String :=
  "\n".intercalate (p.toList.zipIdx.map fun (i, index) => decimal (index + 1) ++ " " ++ i.text)

end Program

end RegisterMachine
