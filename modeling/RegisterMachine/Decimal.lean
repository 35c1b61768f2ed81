import RegisterMachine.Numeral

namespace RegisterMachine

/-- The number `digits · 10 ^ exponent`. -/
structure Decimal where
  digits : Nat
  exponent : Int
deriving DecidableEq

namespace Decimal

/-- From here on an exponent does not grow any more. -/
def exponentLimit : Nat := 65536

/-- The value of the digits of an exponent. It grows digit by digit while it is below the limit,
and the digits after that are ignored. -/
def exponentValue (digits : List Char) : Nat :=
  digits.foldl (fun e c => if e < exponentLimit then 10 * e + (c.toNat - '0'.toNat) else e) 0

/-- The value of an exponent of one or more ASCII digits. -/
def exponentValue? (digits : List Char) : Option Nat :=
  if !digits.isEmpty && digits.all Char.isDigit then some (exponentValue digits) else none

/-- An exponent mark with an optional sign and at least one digit, or nothing at all. -/
def exponent? : List Char → Option Int
  | [] => some 0
  | mark :: rest =>
    if mark = 'e' ∨ mark = 'E' then
      match rest with
      | '-' :: digits => (exponentValue? digits).map fun n => -(n : Int)
      | '+' :: digits => (exponentValue? digits).map fun n => (n : Int)
      | digits => (exponentValue? digits).map fun n => (n : Int)
    else none

/-- The digits after a point, if there is one, and what follows them. -/
def fraction : List Char → List Char × List Char
  | '.' :: rest => (rest.takeWhile Char.isDigit, rest.dropWhile Char.isDigit)
  | rest => ([], rest)

/-- A literal is one or more digits, then possibly a point with any number of digits, then
possibly an exponent. -/
def ofLiteral? (literal : List Char) : Option Decimal :=
  let whole := literal.takeWhile Char.isDigit
  let (part, rest) := fraction (literal.dropWhile Char.isDigit)
  if whole.isEmpty then none
  else (exponent? rest).map fun e => ⟨digitsValue (whole ++ part), e - part.length⟩

/-- The digits with the point where it belongs and never an exponent. -/
def text (d : Decimal) : String :=
  match d.exponent with
  | .ofNat e => decimal d.digits ++ String.ofList (List.replicate e '0')
  | .negSucc e =>
    let digits := (Nat.toDigits 10 d.digits).leftpad (e + 2) '0'
    let point := digits.length - (e + 1)
    String.ofList (digits.take point ++ '.' :: digits.drop point)

end Decimal

end RegisterMachine
