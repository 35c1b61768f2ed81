import RegisterMachine.Binary32
import RegisterMachine.Fault

namespace RegisterMachine

/-- A word is 32 bits, read as a signed integer, a truth value, an address or a float. -/
structure Word where
  bits : BitVec 32
deriving DecidableEq

namespace Word

def zero : Word := ⟨0⟩

def ofInt (n : Int) : Word := ⟨BitVec.ofInt 32 n⟩

def ofBool (b : Bool) : Word := ⟨if b then 1 else 0⟩

def ofAddress (address : BitVec 16) : Word := ⟨address.setWidth 32⟩

/-- The signed view, in two's complement. -/
def toInt (w : Word) : Int := w.bits.toInt

/-- Any word but zero is true. -/
def toBool (w : Word) : Bool := w.bits != 0

/-- The low half. -/
def address (w : Word) : BitVec 16 := w.bits.setWidth 16

def next (w : Word) : Word := ⟨w.bits + 1⟩

def previous (w : Word) : Word := ⟨w.bits - 1⟩

def text (w : Word) : String := hex w.bits.toNat

def floatText (w : Word) : String := Binary32.text w.bits

def add (a b : Word) : Word := ⟨a.bits + b.bits⟩

def sub (a b : Word) : Word := ⟨a.bits - b.bits⟩

def mul (a b : Word) : Word := ⟨a.bits * b.bits⟩

/-- The quotient of the signed views, truncated toward zero. -/
def div (a b : Word) : Except Fault Word :=
  if b.toInt = 0 then .error (.divisionByZero a.toInt)
  else if a.toInt = -0x80000000 ∧ b.toInt = -1 then .error .quotientOverflow
  else .ok (ofInt (a.toInt.tdiv b.toInt))

/-- Shifts left by a positive amount and right, filling with the sign, by a negative one. From
32 places on nothing of the word is left but its sign. -/
def shift (w : Word) : Int → Word
  | .ofNat n => ⟨w.bits <<< min n 32⟩
  | .negSucc n => ⟨w.bits.sshiftRight (min (n + 1) 32)⟩

def shiftLeft (w amount : Word) : Word := w.shift amount.toInt

def shiftRight (w amount : Word) : Word := w.shift (-amount.toInt)

def bitAnd (a b : Word) : Word := ⟨a.bits &&& b.bits⟩

def bitOr (a b : Word) : Word := ⟨a.bits ||| b.bits⟩

def bitXor (a b : Word) : Word := ⟨a.bits ^^^ b.bits⟩

@[simp]
theorem previous_next (w : Word) : w.next.previous = w :=
  congrArg Word.mk (BitVec.add_sub_cancel w.bits 1#32)

@[simp]
theorem next_previous (w : Word) : w.previous.next = w :=
  congrArg Word.mk (BitVec.sub_add_cancel w.bits 1#32)

theorem ofInt_toInt (w : Word) : ofInt w.toInt = w := by
  simp [ofInt, toInt]

end Word

end RegisterMachine
