import VersionConstraints.Text.Basic

namespace VersionConstraints.Decimal

-- A non-empty run of digits.
def isRun (t : Text) : Bool :=
  !t.isEmpty && t.all Char.isDigit

-- A zero in front of further characters.
def leadingZero : Text → Bool
  | '0' :: _ :: _ => true
  | _ => false

-- The way a number is written: each number has one such run.
def isNumeral (t : Text) : Bool :=
  isRun t && !leadingZero t

def value (t : Text) : Nat :=
  Nat.ofDigitChars 10 t 0

-- The digits that count, from the first that is not zero.
def significant (t : Text) : Text :=
  t.dropWhile (· == '0')

def digits (n : Nat) : Text :=
  Nat.toDigits 10 n

-- At least two digits.
def padded (n : Nat) : Text :=
  if n < 10 then '0' :: digits n else digits n

def signed (n : Int) : Text :=
  if n < 0 then '-' :: digits n.natAbs else digits n.natAbs

theorem value_digits (n : Nat) : value (digits n) = n :=
  Nat.ofDigitChars_ten_toDigits

end VersionConstraints.Decimal
