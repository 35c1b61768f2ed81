import RegisterMachine.Binary32
import RegisterMachine.Listing
import RegisterMachine.Register

namespace RegisterMachine

/-- A label behind `@`, a register behind `$`, an integer that ends with `i` or a float that ends
with `f`. -/
inductive Argument where
  | label (name : List Char)
  | register (index : BitVec 32)
  | integer (value : BitVec 32)
  | float (bits : BitVec 32)
deriving DecidableEq

namespace Argument

/-- The bits of a natural number below `bound`. -/
def bits? (bound n : Nat) : Option (BitVec 32) :=
  if n < bound then some (BitVec.ofNat 32 n) else none

/-- A register is written by its name, or by any index of 32 bits. -/
def registerIndex? (name : List Char) : Option (BitVec 32) :=
  match decimalValue? name with
  | some n => bits? 0x100000000 n
  | none => (Register.ofName? (String.ofList name)).map (·.index.setWidth 32)

/-- An integer has digits only and no sign. -/
def integer? (digits : List Char) : Option (BitVec 32) :=
  (decimalValue? digits).bind (bits? 0x80000000)

/-- A literal led by a digit, whose last character tells its kind. -/
def ofLiteral (literal : List Char) : Except Cause Argument :=
  let number := literal.dropLast
  if literal.getLast? = some 'i' then
    match integer? number with
    | some value => .ok (.integer value)
    | none => .error (.badInteger (String.ofList literal))
  else if literal.getLast? = some 'f' then
    match Binary32.ofLiteral? number with
    | some bits => .ok (.float bits)
    | none => .error (.badFloat (String.ofList literal))
  else .error (.badArgument (String.ofList literal))

def ofText : List Char → Except Cause Argument
  | '@' :: name => .ok (.label name)
  | '$' :: name =>
    match registerIndex? name with
    | some index => .ok (.register index)
    | none => .error (.badRegister (String.ofList name))
  | [] => .error (.badArgument "")
  | c :: rest =>
    if c.isDigit then ofLiteral (c :: rest)
    else .error (.badArgument (String.ofList (c :: rest)))

/-- The bits an argument stands for; those of a label are its offset. -/
def value (labels : Labels) : Argument → Except Cause (BitVec 32)
  | label name =>
    match labels.lookup name with
    | some offset => .ok (BitVec.ofNat 32 offset)
    | none => .error (.unknownLabel (String.ofList ('@' :: name)))
  | register index => .ok index
  | integer value => .ok value
  | float bits => .ok bits

end Argument

end RegisterMachine
