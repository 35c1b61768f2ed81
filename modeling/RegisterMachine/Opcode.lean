namespace RegisterMachine

inductive Opcode where
  | noop | halt | jmp | cond | li
  | addi | subi | muli | divi | icri | dcri
  | eqi | neqi | lti | ltei | gti | gtei
  | shli | shri | andb | orb | xorb | or | and
  | push | pop | call | ret | sys
deriving DecidableEq

namespace Opcode

/-- All operation codes, in the order of their numbers. -/
def all : List Opcode :=
  [noop, halt, jmp, cond, li, addi, subi, muli, divi, icri, dcri, eqi, neqi, lti, ltei, gti,
    gtei, shli, shri, andb, orb, xorb, or, and, push, pop, call, ret, sys]

def code : Opcode → BitVec 16
  | noop => 0
  | halt => 1
  | jmp => 2
  | cond => 3
  | li => 4
  | addi => 5
  | subi => 6
  | muli => 7
  | divi => 8
  | icri => 9
  | dcri => 10
  | eqi => 11
  | neqi => 12
  | lti => 13
  | ltei => 14
  | gti => 15
  | gtei => 16
  | shli => 17
  | shri => 18
  | andb => 19
  | orb => 20
  | xorb => 21
  | or => 22
  | and => 23
  | push => 24
  | pop => 25
  | call => 26
  | ret => 27
  | sys => 28

def name : Opcode → String
  | noop => "noop"
  | halt => "halt"
  | jmp => "jmp"
  | cond => "cond"
  | li => "li"
  | addi => "addi"
  | subi => "subi"
  | muli => "muli"
  | divi => "divi"
  | icri => "icri"
  | dcri => "dcri"
  | eqi => "eqi"
  | neqi => "neqi"
  | lti => "lti"
  | ltei => "ltei"
  | gti => "gti"
  | gtei => "gtei"
  | shli => "shli"
  | shri => "shri"
  | andb => "andb"
  | orb => "orb"
  | xorb => "xorb"
  | or => "or"
  | and => "and"
  | push => "push"
  | pop => "pop"
  | call => "call"
  | ret => "ret"
  | sys => "sys"

def ofCode? (code : BitVec 16) : Option Opcode :=
  all[code.toNat]?

/-- Every operation is written by its name, and `li` also as `loadi`. -/
def ofMnemonic? (mnemonic : String) : Option Opcode :=
  if mnemonic == "loadi" then some li else all.find? (·.name == mnemonic)

/-- Whether the first two arguments are read as one of 32 bits. -/
def isLong : Opcode → Bool
  | jmp | cond | li | call | sys => true
  | _ => false

/-- The most arguments that a listing may give. -/
def maxArguments (op : Opcode) : Nat :=
  if op.isLong then 2 else 3

theorem ofCode?_code (op : Opcode) : ofCode? op.code = some op := by
  cases op <;> rfl

theorem code_of_ofCode? {code : BitVec 16} {op : Opcode} (h : ofCode? code = some op) :
    op.code = code := by
  obtain ⟨hlt, rfl⟩ := List.getElem?_eq_some_iff.mp h
  have hn : ∀ n (hn : n < all.length), (all[n]).code.toNat = n := by decide
  exact BitVec.eq_of_toNat_eq (hn _ hlt)

theorem ofCode?_eq_none_iff {code : BitVec 16} : ofCode? code = none ↔ 29 ≤ code.toNat :=
  List.getElem?_eq_none_iff

end Opcode

end RegisterMachine
