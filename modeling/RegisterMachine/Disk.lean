import RegisterMachine.AssociationList

namespace RegisterMachine

inductive Node where
  | file (bytes : List UInt8)
  | directory
  /-- A device gives no bytes and keeps none; one without room refuses every byte. -/
  | device (room : Bool)

inductive DiskError where
  | missing
  | notDirectory
  | isDirectory
  | noRoom
  | nameTooLong
deriving DecidableEq

def DiskError.message : DiskError → String
  | missing => "No such file or directory (os error 2)"
  | notDirectory => "Not a directory (os error 20)"
  | isDirectory => "Is a directory (os error 21)"
  | noRoom => "No space left on device (os error 28)"
  | nameTooLong => "File name too long (os error 36)"

/-- The names that lead from the root to a node. -/
abbrev Place := List String

/-- A path goes from the root or from the working directory along the names between its slashes.
One that ends in a slash can only lead to a directory. -/
structure Path where
  fromRoot : Bool
  names : List String
  toDirectory : Bool

namespace Path

/-- A path with more bytes leads nowhere. -/
def maxBytes : Nat := 4095

/-- A name with more bytes is in no directory. -/
def maxNameBytes : Nat := 255

def namesOf (text : String) : List String :=
  ((text.toList.splitOn '/').filter (!·.isEmpty)).map String.ofList

def ofText (text : String) : Except DiskError Path :=
  if text.isEmpty then .error .missing
  else if maxBytes < text.utf8ByteSize then .error .nameTooLong
  else .ok ⟨text.toList.head? == some '/', namesOf text, text.toList.getLast? == some '/'⟩

end Path

/-- The nodes by their places, and the place where paths start that do not start at the root. -/
structure Disk where
  nodes : List (Place × Node)
  workingDirectory : Place

namespace Disk

/-- The working directory of a new disk. -/
def home : Place := ["tmp", "register-machine"]

/-- What every new disk has: two devices, the usual directories and the working directory. -/
def standardNodes : List (Place × Node) :=
  (["dev", "null"], .device true) :: (["dev", "full"], .device false) :: (home, .directory) ::
    ["bin", "boot", "etc", "home", "lib", "media", "mnt", "opt", "proc", "root", "run", "sbin",
      "srv", "sys", "usr", "var"].map fun name => ([name], .directory)

/-- A new disk with nodes at paths from its working directory. -/
def ofNodes (nodes : List (String × Node)) : Disk where
  nodes := nodes.map (fun (path, node) => (home ++ Path.namesOf path, node)) ++ standardNodes
  workingDirectory := home

def empty : Disk := ofNodes []

/-- What is at a place; a place above a node is a directory. -/
def node? (d : Disk) (place : Place) : Option Node :=
  match d.nodes.lookup place with
  | some node => some node
  | none => if d.nodes.any (place.isPrefixOf ·.1) then some .directory else none

def put (d : Disk) (place : Place) (node : Node) : Disk :=
  { d with nodes := assign d.nodes place node }

/-- Checks that there is a directory at a place. -/
def directory (d : Disk) (place : Place) : Except DiskError Unit :=
  match d.node? place with
  | some .directory => .ok ()
  | some _ => .error .notDirectory
  | none => .error .missing

/-- Where a name in the directory at a place leads, be there a node or not. The root is above
itself. -/
def enter (d : Disk) (place : Place) (name : String) : Except DiskError Place := do
  d.directory place
  if name = "." then .ok place
  else if name = ".." then .ok place.dropLast
  else if Path.maxNameBytes < name.utf8ByteSize then .error .nameTooLong
  else .ok (place ++ [name])

def start (d : Disk) (path : Path) : Place :=
  if path.fromRoot then [] else d.workingDirectory

def read (d : Disk) (text : String) : Except DiskError (List UInt8) := do
  let path ← Path.ofText text
  let place ← path.names.foldlM d.enter (d.start path)
  if path.toDirectory then d.directory place
  match d.node? place with
  | some (.file bytes) => .ok bytes
  | some (.device _) => .ok []
  | some .directory => .error .isDirectory
  | none => .error .missing

/-- Writes to a device, or a file into a directory that exists. The path to that directory is
followed before the last name is looked at. -/
def write (d : Disk) (text : String) (bytes : List UInt8) : Except DiskError Disk := do
  let path ← Path.ofText text
  let parent ← path.names.dropLast.foldlM d.enter (d.start path)
  d.directory parent
  if path.toDirectory then .error .isDirectory
  else
    let place ← path.names.getLast?.toList.foldlM d.enter parent
    match d.node? place with
    | some .directory => .error .isDirectory
    | some (.device room) => if room || bytes.isEmpty then .ok d else .error .noRoom
    | _ => .ok (d.put place (.file bytes))

end Disk

end RegisterMachine
