import VersionConstraints.Constraint.Token
import VersionConstraints.Text.Blank
import VersionConstraints.Text.Separator

namespace VersionConstraints.Clause

def separates (c : Char) : Bool :=
  Text.isBlank c || c == ','

def hyphen : Text :=
  [' ', '-', ' ']

theorem length_lt_of_hyphen {clause lower upper : Text}
    (h : Text.splitAround hyphen (Text.trim clause) = [lower, upper]) :
    lower.length + 2 < clause.length ∧ upper.length + 2 < clause.length := by
  have ht := Text.length_trim_le clause
  have h := congrArg List.length <| Text.splitAround.eq_append_of_pair (by decide) h
  simp only [List.length_append, hyphen, List.length_cons, List.length_nil] at h
  omega

theorem length_side_lt {clause side : Text} {operator : Text} (ho : operator.length = 2)
    (h : side.length + 2 < clause.length) :
    (operator ++ Text.trim side).length < clause.length := by
  have := Text.length_trim_le side
  rw [List.length_append]
  omega

theorem length_token_lt {clause token : Text} (hs : (Text.trim clause).any separates)
    (h : token ∈ Text.runs separates (Text.trim clause)) : token.length < clause.length :=
  Nat.lt_of_lt_of_le (Text.length_lt_of_mem_runs hs h) (Text.length_trim_le clause)

-- A hyphen between two spaces makes a range of its two sides: the first begins with the lower
-- bound, the second with the upper, and either may go on with further tokens. Each side is read as
-- a clause of its own, and so is each token of a clause that has several.
def expand (s : Scheme) (clause : Text) : Except ConstraintError (List (Constraint s)) :=
  match _h : Text.splitAround hyphen (Text.trim clause) with
  | [lower, upper] => do
    let above ← expand s (['>', '='] ++ Text.trim lower)
    let below ← expand s (['<', '='] ++ Text.trim upper)
    return above ++ below
  | [_] =>
    if _hs : (Text.trim clause).any separates then do
      let groups ← (Text.runs separates (Text.trim clause)).attach.mapM fun token =>
        expand s token.1
      return groups.flatten
    else
      Token.expand s (Text.trim clause)
  | _ => throw (.malformed (Text.trim clause) .secondRange)
termination_by clause.length
decreasing_by
  · exact length_side_lt rfl (length_lt_of_hyphen _h).1
  · exact length_side_lt rfl (length_lt_of_hyphen _h).2
  · exact length_token_lt _hs token.2

end VersionConstraints.Clause
