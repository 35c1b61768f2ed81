import RegisterMachine.AssociationList
import RegisterMachine.Space

namespace RegisterMachine

/-- What a call with private state of type `σ` works on. -/
structure Host (σ : Type) where
  own : σ
  registers : Space
  stack : Space
  printed : Array String

/-- What a call does; after a fault the host stays as it was then. -/
abbrev HostAction (σ : Type) (α : Type) := EStateM Fault (Host σ) α

structure SystemCall (σ : Type) where
  /-- The private state before the next invocation. -/
  state : σ
  act : HostAction σ Unit

/-- Calls under their numbers, each number once and in no particular order. -/
structure CallTable (σ : Type) where
  entries : List (BitVec 32 × SystemCall σ)
  distinct : (entries.map (·.1)).Nodup

/-- What an invocation leaves behind. -/
structure Called (σ : Type) where
  calls : CallTable σ
  registers : Space
  stack : Space
  printed : Array String
  fault : Option Fault

namespace CallTable

variable {σ : Type}

def empty : CallTable σ := ⟨[], List.nodup_nil⟩

/-- Maps a number to a call, instead of any call mapped to it before. -/
def insert (t : CallTable σ) (number : BitVec 32) (call : SystemCall σ) : CallTable σ :=
  ⟨assign t.entries number call, nodup_assign t.distinct number call⟩

def get? (t : CallTable σ) (number : BitVec 32) : Option (SystemCall σ) :=
  t.entries.lookup number

theorem get?_insert (t : CallTable σ) (number key : BitVec 32) (call : SystemCall σ) :
    (t.insert number call).get? key = if key = number then some call else t.get? key :=
  lookup_assign t.entries number call key

def contains (t : CallTable σ) (number : BitVec 32) : Bool :=
  (t.get? number).isSome

def size (t : CallTable σ) : Nat := t.entries.length

def isEmpty (t : CallTable σ) : Bool := t.entries.isEmpty

/-- The numbers that have a call, as they come. -/
def keys (t : CallTable σ) : List (BitVec 32) := t.entries.map (·.1)

/-- The numbers that have a call, in increasing order. -/
def numbers (t : CallTable σ) : List (BitVec 32) := t.keys.mergeSort

def text (t : CallTable σ) : String :=
  "SystemCallTable \x7b calls: [" ++ ", ".intercalate (t.numbers.map (decimal ·.toNat)) ++ "] \x7d"

/-- Replaces the private state of the call under a number. -/
def setState (t : CallTable σ) (number : BitVec 32) (state : σ) : CallTable σ where
  entries := t.entries.map fun e => (e.1, if e.1 = number then { e.2 with state } else e.2)
  distinct := by
    rw [List.map_map]
    exact t.distinct

theorem get?_setState (t : CallTable σ) (number key : BitVec 32) (state : σ) :
    (t.setState number state).get? key =
      (t.get? key).map fun call => if key = number then { call with state } else call := by
  show (t.entries.map _).lookup key = (t.entries.lookup key).map _
  induction t.entries with
  | nil => rfl
  | cons e rest ih =>
    rw [List.map_cons, lookup_cons_eq_ite, lookup_cons_eq_ite, ih]
    by_cases hkey : key = e.1
    · rw [if_pos hkey, if_pos hkey, hkey]
      rfl
    · rw [if_neg hkey, if_neg hkey]

/-- Runs the call under a number. Its private state is kept even after a fault. -/
def invoke (t : CallTable σ) (number : BitVec 32) (registers stack : Space) : Called σ :=
  match t.get? number with
  | none => ⟨t, registers, stack, #[], some (.unmappedCall number)⟩
  | some call =>
    match call.act ⟨call.state, registers, stack, #[]⟩ with
    | .ok _ host => ⟨t.setState number host.own, host.registers, host.stack, host.printed, none⟩
    | .error fault host =>
      ⟨t.setState number host.own, host.registers, host.stack, host.printed, some fault⟩

end CallTable

end RegisterMachine
