import RegisterMachine.AssemblyError
import RegisterMachine.Text

namespace RegisterMachine

/-- What a line says that is neither empty nor a comment: a label if it ends with a colon, and else
an operation. -/
inductive Statement where
  | label (name : List Char)
  | operation (text : List Char)
deriving DecidableEq

def Statement.ofLine? (line : List Char) : Option Statement :=
  let text := trim line
  if text.isEmpty || text.head? == some '#' then none
  else if text.getLast? == some ':' then some (.label text.dropLast)
  else some (.operation text)

/-- A statement with the number of its line. -/
structure Line where
  number : Nat
  statement : Statement
deriving DecidableEq

namespace Line

/-- The lines of a listing that say something, numbered over all lines from 1. -/
def ofListing (listing : List Char) : List Line :=
  ((lines listing).zipIdx 1).filterMap fun (line, number) =>
    (Statement.ofLine? line).map fun statement => ⟨number, statement⟩

/-- The text of the operation, with the number of its line. -/
def operation? : Line → Option (List Char × Nat)
  | ⟨number, .operation text⟩ => some (text, number)
  | ⟨_, .label _⟩ => none

end Line

/-- For each label the number of operations before it, the last label first. -/
abbrev Labels := List (List Char × Nat)

namespace Labels

/-- Adds the labels of the lines, `offset` operations having gone before. -/
def extend (labels : Labels) : List Line → Nat → Except AssemblyError Labels
  | [], _ => .ok labels
  | ⟨_, .operation _⟩ :: rest, offset => extend labels rest (offset + 1)
  | ⟨number, .label name⟩ :: rest, offset =>
    if (labels.lookup name).isSome then
      .error ⟨number, .duplicateLabel (String.ofList name)⟩
    else extend ((name, offset) :: labels) rest offset

def ofLines (lines : List Line) : Except AssemblyError Labels :=
  extend [] lines 0

end Labels

end RegisterMachine
