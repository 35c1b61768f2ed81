import RegisterMachine.DisplayWidth
import RegisterMachine.Text

namespace RegisterMachine

inductive Align where
  | left | right
deriving DecidableEq

structure Cell where
  align : Align
  lines : List String

namespace Cell

/-- A text with the lines it has. -/
def ofText (align : Align) (text : String) : Cell :=
  ⟨align, (RegisterMachine.lines text.toList).map String.ofList⟩

def left (text : String) : Cell := ofText .left text

def right (text : String) : Cell := ofText .right text

def width (c : Cell) : Nat :=
  c.lines.foldl (fun width line => max width (displayWidth line)) 0

/-- A line filled with blanks up to `width`. -/
def padded (c : Cell) (width : Nat) (line : String) : String :=
  let blanks := String.ofList (List.replicate (width - displayWidth line) ' ')
  match c.align with
  | .left => line ++ blanks
  | .right => blanks ++ line

/-- The lines and blank ones below them up to `height`, each filled up to `width`. -/
def paddedLines (c : Cell) (width height : Nat) : List String :=
  (c.lines.rightpad height "").map (c.padded width)

end Cell

structure Row where
  first : Cell
  second : Cell

namespace Row

def height (r : Row) : Nat :=
  max r.first.lines.length r.second.lines.length

def lines (r : Row) (width₁ width₂ : Nat) : List String :=
  List.zipWith (fun a b => "  " ++ a ++ " │ " ++ b ++ "  ")
    (r.first.paddedLines width₁ r.height) (r.second.paddedLines width₂ r.height)

end Row

structure Table where
  titles : Row
  rows : List Row

namespace Table

def columnWidth (t : Table) (column : Row → Cell) : Nat :=
  (t.titles :: t.rows).foldl (fun width r => max width (column r).width) 0

/-- A rule across both columns with `junction` between them. -/
def rule (width₁ width₂ : Nat) (junction : String) : String :=
  " " ++ String.ofList (List.replicate (width₁ + 2) '─') ++ junction ++
    String.ofList (List.replicate (width₂ + 2) '─') ++ " "

/-- The titles, a rule, the rows and a last rule. -/
def lines (t : Table) : List String :=
  let width₁ := t.columnWidth Row.first
  let width₂ := t.columnWidth Row.second
  t.titles.lines width₁ width₂ ++ rule width₁ width₂ "┼" ::
    (t.rows.flatMap (·.lines width₁ width₂) ++ [rule width₁ width₂ "┴"])

/-- The lines, each with its line feed. -/
def text (t : Table) : String :=
  String.join (t.lines.map (· ++ "\n"))

end Table

end RegisterMachine
