import RegisterMachine.AssociationList
import RegisterMachine.SpaceTable

namespace RegisterMachine

/-- Named spaces that are copied lazily: a copy uses the block of what it was copied from until one
of the two is written. -/
structure Store where
  /-- The number of the block that each name uses. -/
  names : List (String × Nat)
  blocks : Array Space

namespace Store

def empty : Store := ⟨[], #[]⟩

def block? (s : Store) (name : String) : Option Nat :=
  s.names.lookup name

/-- The space under a name; a name not in use stands for a space without words. -/
def space (s : Store) (name : String) : Space :=
  ((s.block? name).bind (s.blocks[·]?)).getD (.zeros 0)

/-- Puts a space into a block of its own under a name. -/
def insert (s : Store) (name : String) (space : Space) : Store :=
  ⟨assign s.names name s.blocks.size, s.blocks.push space⟩

def create (s : Store) (name : String) (size : Nat) : Store :=
  s.insert name (.zeros size)

/-- Lets `name` use the block of `source`. -/
def copy (s : Store) (name source : String) : Store :=
  match s.block? source with
  | some block => { s with names := assign s.names name block }
  | none => s

/-- Whether some other name uses the block. -/
def isShared (s : Store) (name : String) (block : Nat) : Bool :=
  s.names.any fun (other, used) => other ≠ name && used = block

/-- Writes in place if no other name uses the block, and else into a copy. -/
def write (s : Store) (name : String) (address : BitVec 16) (w : Word) : Except Fault Store :=
  match (s.space name).write address w, s.block? name with
  | .ok space, some block =>
    .ok (if s.isShared name block then s.insert name space
      else { s with blocks := s.blocks.setIfInBounds block space })
  | .ok space, none => .ok (s.insert name space)
  | .error fault, _ => .error fault

/-- Whether two names use the same block. -/
def shares (s : Store) (a b : String) : Bool :=
  match s.block? a, s.block? b with
  | some x, some y => x = y
  | _, _ => false

/-- What can be asked of the space under a name. -/
inductive Command where
  | create (size : Nat)
  | copy (source : String)
  | write (address : BitVec 16) (w : Word)
  | read (address : BitVec 16)
  | get (address : BitVec 16)
  | size
  | text
  | table (label : Char) (count : Nat)
  | registerTable
  | shares (other : String)
  | equals (other : String)

inductive Reply where
  | done
  | fault (fault : Fault)
  | word (w : Word)
  | absent
  | number (n : Nat)
  | text (text : String)
  | flag (b : Bool)
deriving DecidableEq

/-- Carries out a command on the space under a name. -/
def perform (s : Store) (name : String) : Command → Reply × Store
  | .create size => (.done, s.create name size)
  | .copy source => (.done, s.copy name source)
  | .write address w =>
    match s.write name address w with
    | .ok written => (.done, written)
    | .error fault => (.fault fault, s)
  | .read address =>
    match (s.space name).read address with
    | .ok w => (.word w, s)
    | .error fault => (.fault fault, s)
  | .get address => (((s.space name).get? address).elim .absent .word, s)
  | .size => (.number (s.space name).size, s)
  | .text => (.text (s.space name).text, s)
  | .table label count => (.text ((s.space name).table label count).text, s)
  | .registerTable => (.text (s.space name).registerTable.text, s)
  | .shares other => (.flag (s.shares name other), s)
  | .equals other => (.flag (s.space name == s.space other), s)

end Store

end RegisterMachine
