import RegisterMachine.Register
import RegisterMachine.SystemCall

namespace RegisterMachine

namespace Host

variable {σ : Type}

def readRegister (address : BitVec 16) : HostAction σ Word := fun h =>
  match h.registers.read address with
  | .ok w => .ok w h
  | .error fault => .error fault h

def writeRegister (address : BitVec 16) (w : Word) : HostAction σ Unit := fun h =>
  match h.registers.write address w with
  | .ok registers => .ok () { h with registers }
  | .error fault => .error fault h

def readStack (address : BitVec 16) : HostAction σ Word := fun h =>
  match h.stack.read address with
  | .ok w => .ok w h
  | .error fault => .error fault h

def writeStack (address : BitVec 16) (w : Word) : HostAction σ Unit := fun h =>
  match h.stack.write address w with
  | .ok stack => .ok () { h with stack }
  | .error fault => .error fault h

def print (line : String) : HostAction σ Unit :=
  modify fun h => { h with printed := h.printed.push line }

end Host

inductive HostCall where
  | noop
  /-- Prints the first general register as a signed integer. -/
  | printInteger
  /-- Prints the first general register as a float. -/
  | printFloat
  | printText (text : String)
  /-- Prints the sizes of the registers and of the stack. -/
  | printSizes
  /-- Puts into the first general register how often the call has been invoked. -/
  | count
  /-- Adds the first general register and the bottom of the stack into the second. -/
  | sum
  | setRegister (address : BitVec 16) (w : Word)
  | setStack (address : BitVec 16) (w : Word)
  /-- Exchanges a register and a cell of the stack. -/
  | swap (register address : BitVec 16)

namespace HostCall

open Host

def act : HostCall → HostAction Word Unit
  | noop => pure ()
  | printInteger => do print (signedDecimal (← readRegister Register.gpr1.index).toInt)
  | printFloat => do print (← readRegister Register.gpr1.index).floatText
  | printText text => print text
  | printSizes => do
    let h ← get
    print (decimal h.registers.size ++ " " ++ decimal h.stack.size)
  | count => do
    let h ← get
    set { h with own := h.own.next }
    writeRegister Register.gpr1.index h.own.next
  | sum => do
    let a ← readRegister Register.gpr1.index
    let b ← readStack 0
    writeRegister Register.gpr2.index (a.add b)
  | setRegister address w => writeRegister address w
  | setStack address w => writeStack address w
  | swap register address => do
    let old ← readRegister register
    writeRegister register (← readStack address)
    writeStack address old

def toSystemCall (call : HostCall) : SystemCall Word := ⟨.zero, call.act⟩

end HostCall

end RegisterMachine
