import VersionConstraints.Toml.Value
import VersionConstraints.Text.Decimal

namespace VersionConstraints.Toml

-- Each reader takes what it reads from the front of a text and gives the rest.
abbrev Reader (α : Type) := Text → Option (α × Text)

def isBlank (c : Char) : Bool :=
  c == ' ' || c == '\t'

def skipBlanks (t : Text) : Text :=
  t.dropWhile isBlank

-- Control characters stand nowhere in a line, the tab apart.
def isPlain (c : Char) : Bool :=
  c == '\t' || (0x20 ≤ c.toNat && c.toNat != 0x7F)

def hexDigit? (c : Char) : Option Nat :=
  if '0' ≤ c ∧ c ≤ '9' then some (c.toNat - '0'.toNat)
  else if 'a' ≤ c ∧ c ≤ 'f' then some (c.toNat - 'a'.toNat + 10)
  else if 'A' ≤ c ∧ c ≤ 'F' then some (c.toNat - 'A'.toNat + 10)
  else none

-- The value of digits in a base of at most 16.
def ofDigits? (base : Nat) (digits : Text) : Option Nat :=
  digits.foldlM (fun n c => do
    let d ← hexDigit? c
    if d < base then some (n * base + d) else none) 0

def scalar? (digits : Text) : Option Char := do
  let n ← ofDigits? 16 digits
  if n.isValidChar then some (Char.ofNat n) else none

-- A string after its opening quote, in which a backslash escapes.
def basicString : Reader Text
  | '"' :: t => some ([], t)
  | '\\' :: 'u' :: a :: b :: c :: d :: t => do
    let char ← scalar? [a, b, c, d]
    let (s, t) ← basicString t
    return (char :: s, t)
  | '\\' :: 'U' :: a :: b :: c :: d :: e :: f :: g :: h :: t => do
    let char ← scalar? [a, b, c, d, e, f, g, h]
    let (s, t) ← basicString t
    return (char :: s, t)
  | '\\' :: c :: t => do
    let char ← [('b', '\x08'), ('t', '\t'), ('n', '\n'), ('f', '\x0c'), ('r', '\r'), ('"', '"'),
      ('\\', '\\')].lookup c
    let (s, t) ← basicString t
    return (char :: s, t)
  | c :: t => do
    guard (isPlain c && c != '\\')
    let (s, t) ← basicString t
    return (c :: s, t)
  | [] => none

-- A string after its opening apostrophe, in which every character stands for itself.
def literalString : Reader Text
  | '\'' :: t => some ([], t)
  | c :: t => do
    guard (isPlain c)
    let (s, t) ← literalString t
    return (c :: s, t)
  | [] => none

def isBare (c : Char) : Bool :=
  c.isAlphanum || c == '_' || c == '-'

def name : Reader Text
  | '"' :: t => basicString t
  | '\'' :: t => literalString t
  | t =>
    if (t.takeWhile isBare).isEmpty then none else some (t.takeWhile isBare, t.dropWhile isBare)

-- The most names that a key can have, and the most braces that can be open at once.
def deepest : Nat :=
  79

-- Names with dots between them.
def key : Reader (List Text) :=
  go deepest
where
  go : Nat → Reader (List Text)
    | 0, _ => none
    | n + 1, t => do
      let (k, t) ← name (skipBlanks t)
      match skipBlanks t with
      | '.' :: t =>
        let (ks, t) ← go n t
        return (k :: ks, t)
      | t => return ([k], t)

-- Digits of a base, which single underscores may divide.
def natural? (base : Nat) (t : Text) : Option Nat := do
  let runs := t.splitOn '_'
  guard (runs.all (!·.isEmpty))
  ofDigits? base runs.flatten

def decimal? (t : Text) : Option Nat := do
  guard (!Decimal.leadingZero (t.filter (· != '_')))
  natural? 10 t

def integer? (t : Text) : Option Int := do
  let n : Int ← match t with
    | '0' :: 'x' :: t => natural? 16 t
    | '0' :: 'o' :: t => natural? 8 t
    | '0' :: 'b' :: t => natural? 2 t
    | '+' :: t => decimal? t
    | '-' :: t => (decimal? t).map fun n => -(n : Int)
    | t => decimal? t
  guard (-9223372036854775808 ≤ n ∧ n ≤ 9223372036854775807)
  return n

def word? (t : Text) : Option Value :=
  if t = "true".toList then some (.boolean true)
  else if t = "false".toList then some (.boolean false)
  else (integer? t).map .integer

def inWord (c : Char) : Bool :=
  c.isAlphanum || c == '_' || c == '+' || c == '-'

-- A value, with a bound on the braces that can still be opened and one on the
-- braces and pairs that are still to be read.
def valueWithin : (depth bound : Nat) → Reader Value
  | _, _, '"' :: t => (basicString t).map fun (s, t) => (.text s, t)
  | _, _, '\'' :: t => (literalString t).map fun (s, t) => (.text s, t)
  | d + 1, n + 1, '\x7b' :: t =>
    match skipBlanks t with
    | '\x7d' :: t => some (.table .inline [], t)
    | _ => (pairs d n [] t).map fun (es, t) => (.table .inline es, t)
  | _, _, '\x7b' :: _ => none
  | _, _, t => do
    let v ← word? (t.takeWhile inWord)
    return (v, t.dropWhile inWord)
where
  pairs : (depth bound : Nat) → Entries → Reader Entries
    | _, 0, _, _ => none
    | d, n + 1, es, t => do
      let (k, t) ← key t
      match skipBlanks t with
      | '=' :: t =>
        let (v, t) ← valueWithin d n (skipBlanks t)
        let es ← es.insert k v
        match skipBlanks t with
        | ',' :: t => pairs d n es t
        | '\x7d' :: t => some (es, t)
        | _ => none
      | _ => none

-- Each brace and each pair takes a character.
def value : Reader Value :=
  fun t => valueWithin deepest t.length t

end VersionConstraints.Toml
