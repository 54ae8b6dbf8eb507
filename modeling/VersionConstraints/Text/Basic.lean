namespace VersionConstraints

-- Texts are lists of characters, so whatever reads one recurses on it.
abbrev Text := List Char

namespace Text

def quoted (t : Text) : Text :=
  '"' :: t ++ ['"']

def dotted (pieces : List Text) : Text :=
  ['.'].intercalate pieces

-- The pieces between the dots of a text. The empty text has none.
def pieces (t : Text) : List Text :=
  if t.isEmpty then [] else t.splitOn '.'

theorem pieces_of_ne_nil {t : Text} (h : t ≠ []) : t.pieces = t.splitOn '.' := by
  simp [pieces, h]

theorem dotted_pieces (t : Text) : dotted t.pieces = t := by
  by_cases h : t = []
  case pos => subst h; rfl
  case neg => rw [pieces_of_ne_nil h, dotted, List.intercalate_splitOn]

theorem dotted_ne_nil {ps : List Text} (hp : ps ≠ []) (hn : [] ∉ ps) : dotted ps ≠ [] := by
  match ps, hp with
  | [p], _ => simp_all [dotted]
  | p :: q :: ps, _ => simp [dotted, List.intercalate_cons_cons]

theorem pieces_dotted {ps : List Text} (hn : [] ∉ ps) (hd : ∀ p ∈ ps, '.' ∉ p) :
    pieces (dotted ps) = ps := by
  by_cases hp : ps = []
  case pos => subst hp; rfl
  case neg =>
    rw [pieces_of_ne_nil (dotted_ne_nil hp hn)]
    exact List.splitOn_intercalate _ hd hp

end Text
end VersionConstraints
