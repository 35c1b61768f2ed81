import RegisterMachine.Word

namespace RegisterMachine

/-- A fixed number of words under addresses of 16 bits. -/
structure Space where
  words : Array Word
deriving DecidableEq

namespace Space

/-- A space of `size` zero words. -/
def zeros (size : Nat) : Space := ⟨Array.replicate size .zero⟩

def size (s : Space) : Nat := s.words.size

def get? (s : Space) (address : BitVec 16) : Option Word :=
  s.words[address.toNat]?

def outside (s : Space) (address : BitVec 16) : Fault :=
  .addressOutside address s.size

def read (s : Space) (address : BitVec 16) : Except Fault Word :=
  match s.get? address with
  | some w => .ok w
  | none => .error (s.outside address)

def set (s : Space) (address : BitVec 16) (w : Word) (h : address.toNat < s.size) : Space :=
  ⟨s.words.set address.toNat w h⟩

def write (s : Space) (address : BitVec 16) (w : Word) : Except Fault Space :=
  if h : address.toNat < s.size then .ok (s.set address w h) else .error (s.outside address)

/-- The words that are not zero with their addresses, by address. -/
def nonzero (s : Space) : List (Word × Nat) :=
  s.words.toList.zipIdx.filter (·.1 ≠ .zero)

/-- One line for each word that is not zero. -/
def text (s : Space) : String :=
  "\n".intercalate (s.nonzero.map fun (w, address) => hex address ++ ": " ++ w.text)

@[simp]
theorem size_zeros (n : Nat) : (zeros n).size = n := by
  simp [zeros, size]

@[simp]
theorem size_set (s : Space) (a : BitVec 16) (w : Word) (h : a.toNat < s.size) :
    (s.set a w h).size = s.size :=
  Array.size_set h

theorem get?_set (s : Space) (a b : BitVec 16) (w : Word) (h : a.toNat < s.size) :
    (s.set a w h).get? b = if a = b then some w else s.get? b := by
  refine (Array.getElem?_set h).trans ?_
  simp only [BitVec.toNat_inj, get?]

theorem get?_eq_none_iff {s : Space} {a : BitVec 16} : s.get? a = none ↔ s.size ≤ a.toNat :=
  Array.getElem?_eq_none_iff

end Space

end RegisterMachine
