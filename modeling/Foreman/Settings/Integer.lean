/-! Whole numbers as settings write them: blanks, at most one sign, digits, and
nothing after them. Values beyond 64 bits stop at the nearest bound. -/

namespace Foreman.Settings

/-- The blanks of ASCII: space, tab, line feed, vertical tab, form feed and
carriage return. -/
def isBlank (c : Char) : Bool :=
  c = ' ' || c = '\t' || c = '\n' || c = '\x0b' || c = '\x0c' || c = '\r'

/-- The value of a row of decimal digits. -/
def decimal (digits : List Char) : Nat :=
  digits.foldl (fun value digit => 10 * value + (digit.toNat - '0'.toNat)) 0

/-- The nearest value that a signed word of 64 bits holds. -/
def saturate (value : Int) : Int := max (-9223372036854775808) (min value 9223372036854775807)

def splitSign : List Char → Bool × List Char
  | '-' :: rest => (true, rest)
  | '+' :: rest => (false, rest)
  | rest => (false, rest)

/-- Reads a number at the start of a text and returns it with what follows.
There is no number without a digit. -/
def readInteger (text : List Char) : Option (Int × List Char) :=
  let (negative, unsigned) := splitSign (text.dropWhile isBlank)
  let digits := unsigned.takeWhile Char.isDigit
  if digits.isEmpty then none
  else
    let magnitude : Int := decimal digits
    some (saturate (if negative then -magnitude else magnitude), unsigned.dropWhile Char.isDigit)

def integer? (text : String) : Option Int :=
  match readInteger text.toList with
  | some (value, []) => some value
  | _ => none

end Foreman.Settings
