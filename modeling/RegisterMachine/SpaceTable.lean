import RegisterMachine.Register
import RegisterMachine.Space
import RegisterMachine.Table

namespace RegisterMachine.Space

/-- The first `count` words, labelled `name[address]`. -/
def table (s : Space) (name : Char) (count : Nat) : Table where
  titles := ⟨.right "Address", .left "Contents"⟩
  rows := (s.words.toList.take count).zipIdx.map fun (w, address) =>
    ⟨.right (String.singleton name ++ "[" ++ decimal address ++ "] ="), .left w.text⟩

/-- The name of the register at an index, or the index itself where no register is. -/
def registerLabel (index : Nat) : String :=
  match Register.all[index]? with
  | some r => r.name
  | none => "$" ++ decimal index

/-- All words, labelled by register. -/
def registerTable (s : Space) : Table where
  titles := ⟨.right "Register", .left "Contents"⟩
  rows := s.words.toList.zipIdx.map fun (w, index) =>
    ⟨.right (registerLabel index ++ " ="), .left w.text⟩

end RegisterMachine.Space
