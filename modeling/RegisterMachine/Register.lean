namespace RegisterMachine

inductive Register where
  | cond | sp
  | gpr1 | gpr2 | gpr3 | gpr4 | gpr5 | gpr6 | gpr7 | gpr8 | gpr9 | gpr10
deriving DecidableEq

namespace Register

/-- All registers, in the order of their indices. -/
def all : List Register :=
  [cond, sp, gpr1, gpr2, gpr3, gpr4, gpr5, gpr6, gpr7, gpr8, gpr9, gpr10]

/-- How many registers there are, and so how many words the register space has. -/
def count : Nat := 12

def index : Register → BitVec 16
  | cond => 0
  | sp => 1
  | gpr1 => 2
  | gpr2 => 3
  | gpr3 => 4
  | gpr4 => 5
  | gpr5 => 6
  | gpr6 => 7
  | gpr7 => 8
  | gpr8 => 9
  | gpr9 => 10
  | gpr10 => 11

def name : Register → String
  | cond => "cond"
  | sp => "sp"
  | gpr1 => "gpr1"
  | gpr2 => "gpr2"
  | gpr3 => "gpr3"
  | gpr4 => "gpr4"
  | gpr5 => "gpr5"
  | gpr6 => "gpr6"
  | gpr7 => "gpr7"
  | gpr8 => "gpr8"
  | gpr9 => "gpr9"
  | gpr10 => "gpr10"

def ofIndex? (index : BitVec 16) : Option Register :=
  all[index.toNat]?

def ofName? (name : String) : Option Register :=
  all.find? (·.name == name)

theorem length_all : all.length = count := rfl

theorem ofIndex?_index (r : Register) : ofIndex? r.index = some r := by
  cases r <;> rfl

theorem index_lt_count (r : Register) : r.index.toNat < count := by
  cases r <;> decide

end Register

end RegisterMachine
