import VersionConstraints.Text.Decimal

namespace VersionConstraints

namespace Identifier

def isLetter (c : Char) : Bool :=
  c.isAlphanum || c == '-'

def wellFormed (i : Text) : Bool :=
  !i.isEmpty && i.all isLetter

def isNumber (i : Text) : Bool :=
  i.all Char.isDigit

-- An identifier that can be ranked: a number has to be written without leading zeros, so that
-- equal numbers are equal texts.
def canonical (i : Text) : Bool :=
  wellFormed i && !(isNumber i && Decimal.leadingZero i)

-- The digits that count in a number. A word has none.
def significant? (i : Text) : Option Text :=
  if isNumber i then some (Decimal.significant i) else none

-- Numbers rank below words. Of two numbers the one with fewer digits is the smaller, so that no
-- digit run is ever too long to be compared; numbers of one width and words rank by character.
-- The empty text is no identifier. It stands for a missing one and ranks below all others.
def order (i j : Text) : Ordering :=
  if i = j then .eq
  else if i.isEmpty then .lt
  else if j.isEmpty then .gt
  else
    match significant? i, significant? j with
    | some m, some n => (compare m.length n.length).then (compare m n)
    | some _, none   => .lt
    | none,   some _ => .gt
    | none,   none   => compare i j

theorem ne_nil {i : Text} (h : wellFormed i) : i ≠ [] := by
  intro h'
  simp [wellFormed, h'] at h

theorem no_dot {i : Text} (h : wellFormed i) : '.' ∉ i := by
  intro h'
  simp only [wellFormed, Bool.and_eq_true, List.all_eq_true] at h
  exact absurd (h.2 _ h') (by decide)

theorem wellFormed_of_canonical {i : Text} (h : canonical i) : wellFormed i := by
  simp only [canonical, Bool.and_eq_true] at h
  exact h.1

end Identifier

-- Identifiers that meet `valid`, written with dots between them. A field without any is absent.
@[ext]
structure Dotted (valid : Text → Bool) where
  parts : List Text
  valid : ∀ part ∈ parts, valid part
deriving DecidableEq

namespace Dotted

variable {valid : Text → Bool}

def none : Dotted valid :=
  ⟨[], by simp⟩

def ofParts? (parts : List Text) : Option (Dotted valid) :=
  if h : ∀ part ∈ parts, valid part then some ⟨parts, h⟩ else .none

def text (d : Dotted valid) : Text :=
  Text.dotted d.parts

def isAbsent (d : Dotted valid) : Bool :=
  d.parts.isEmpty

theorem pieces_text (h : ∀ i, valid i → Identifier.wellFormed i) (d : Dotted valid) :
    d.text.pieces = d.parts := by
  apply Text.pieces_dotted
  case hn => exact fun h' => Identifier.ne_nil (h _ (d.valid _ h')) rfl
  case hd => exact fun _ h' => Identifier.no_dot (h _ (d.valid _ h'))

theorem text_inj (h : ∀ i, valid i → Identifier.wellFormed i) {d e : Dotted valid} :
    d.text = e.text ↔ d = e := by
  constructor
  case mp =>
    intro ht
    ext1
    rw [← d.pieces_text h, ← e.pieces_text h, ht]
  case mpr => exact congrArg text

end Dotted
end VersionConstraints
