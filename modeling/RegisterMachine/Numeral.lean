namespace RegisterMachine

/-- Lowercase hexadecimal without leading zeros, behind the mark `0x`. -/
def hex (n : Nat) : String :=
  "0x" ++ String.ofList (Nat.toDigits 16 n)

/-- Hexadecimal filled with zeros on the left up to `width` digits. -/
def hexWide (width n : Nat) : String :=
  "0x" ++ String.ofList ((Nat.toDigits 16 n).leftpad width '0')

def decimal (n : Nat) : String :=
  String.ofList (Nat.toDigits 10 n)

def signedDecimal : Int → String
  | .ofNat n => decimal n
  | .negSucc n => "-" ++ decimal (n + 1)

/-- Digits are gathered in blocks up to this scale before they are joined to those in front. -/
def blockScale : Nat := Nat.pow 10 200

/-- The value of the digits read so far, `high * scale + block`, followed by more digits. A block
is joined to the front only when it is full, which keeps a long numeral cheap. -/
def blockValue (high scale block : Nat) : List Char → Nat
  | [] => high * scale + block
  | c :: rest =>
    if scale < blockScale then
      blockValue high (10 * scale) (10 * block + (c.toNat - '0'.toNat)) rest
    else blockValue (high * scale + block) 10 (c.toNat - '0'.toNat) rest

def digitsValue (digits : List Char) : Nat :=
  blockValue 0 1 0 digits

theorem blockValue_eq (digits : List Char) (high scale block : Nat) :
    blockValue high scale block digits = Nat.ofDigitChars 10 digits (high * scale + block) := by
  induction digits generalizing high scale block with
  | nil => simp [blockValue]
  | cons c rest ih =>
    have hs : high * (10 * scale) = 10 * (high * scale) := Nat.mul_left_comm high 10 scale
    unfold blockValue
    split
    · rw [ih, Nat.ofDigitChars_cons, hs, Nat.mul_add, Nat.add_assoc]
    · rw [ih, Nat.ofDigitChars_cons, Nat.mul_comm (high * scale + block) 10]

/-- Blocks do not change the value of a numeral. -/
theorem digitsValue_eq (digits : List Char) :
    digitsValue digits = Nat.ofDigitChars 10 digits 0 := by
  simp [digitsValue, blockValue_eq]

/-- The value of a text of one or more ASCII digits. -/
def decimalValue? (text : List Char) : Option Nat :=
  if !text.isEmpty && text.all Char.isDigit then some (digitsValue text) else none

@[simp]
theorem toList_decimal (n : Nat) : (decimal n).toList = Nat.toDigits 10 n := by
  simp [decimal]

@[simp]
theorem toList_hex (n : Nat) : (hex n).toList = '0' :: 'x' :: Nat.toDigits 16 n := by
  simp [hex]

theorem decimalValue?_toDigits (n : Nat) : decimalValue? (Nat.toDigits 10 n) = some n := by
  have hd : (Nat.toDigits 10 n).all Char.isDigit = true :=
    List.all_eq_true.mpr fun _ hc => Nat.isDigit_of_mem_toDigits (by omega) (by omega) hc
  simp [decimalValue?, digitsValue_eq, hd, Nat.toDigits_ne_nil, Nat.ofDigitChars_ten_toDigits]

end RegisterMachine
