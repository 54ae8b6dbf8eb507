import VersionConstraints.Proofs.Expansion
import VersionConstraints.Proofs.Precedence

namespace VersionConstraints

theorem isLE_then {o o' : Ordering} (h : o.isLE) (h' : o'.isLE) : (o.then o').isLE := by
  cases o <;> simp_all

-- No number is below zero, and no word is below a number.
theorem Rank.order_zero_isLE (r : Rank) : (order (.number 0) r).isLE := by
  cases r
  case number n => exact Nat.isLE_compare.mpr n.zero_le
  case word => rfl

-- A lone zero is the lowest prerelease. A release is above it, and so is a list that goes on.
theorem Prerelease.compareRanks_zero_isLE (ranks : List Rank) :
    (compareRanks [.number 0] ranks).isLE := by
  match ranks with
  | [] => rfl
  | r :: rest =>
    change (List.compareLex Rank.order [.number 0] (r :: rest)).isLE
    rw [List.compareLex_cons_cons]
    refine isLE_then r.order_zero_isLE ?_
    cases rest <;> rfl

namespace Version

theorem parse_bottom (s : Scheme) : parse s (s.minimum ++ ['-', '0']) = .ok (bottom s) := by
  cases s <;> rfl

theorem bottom_le (s : Scheme) (p : Precedence) : (bottom s : Precedence) ≤ p := by
  have zero_isLE (n : Nat) : (compare 0 n).isLE := Nat.isLE_compare.mpr n.zero_le
  have numbers_isLE : (compare (bottom s).numbers p.numbers).isLE := by
    simp only [Precedence.numbers, List.compare_cons_cons]
    exact isLE_then (zero_isLE _) <| isLE_then (zero_isLE _) <| isLE_then (zero_isLE _) rfl
  rw [Precedence.le_def, Precedence.compare_eq_rankOrder]
  exact isLE_then numbers_isLE <| Prerelease.compareRanks_zero_isLE _

end Version

theorem Constraint.accepts_universal {s : Scheme} {source : Text} (p : Precedence) :
    ∀ c ∈ universal (s := s) source, c.accepts p :=
  List.forall_mem_singleton.mpr <| accepts_iff.mpr <| Version.bottom_le s p

namespace Token

variable {s : Scheme} {op body : Text}

-- Wildcards alone stand for the bottom, whatever is written behind them.
theorem expand_universal (ho : Operator.ofText? op = some .equal) (hb : ∀ c ∈ body, inBody c)
    (hn : body ≠ []) (hu : (Pattern.ofText body).isUniversal) :
    expand s (op ++ body) = .ok (Constraint.universal (op ++ body)) := by
  rw [expand, ofText?_append (Operator.mem_operators ho).1 hb, if_neg hn]
  simp only [hu, ho, if_true]
  rfl

end Token

namespace ConstraintSet

variable {s : Scheme} {op body : Text}

-- Wildcards alone are met by all versions:
-- 1. they are read as one constraint, whose bound is the lowest prerelease of the lowest release
-- 2. no version is below this bound, whatever its scheme
theorem parse_universal (ho : op ∈ [[], ['='], ['=', '=']]) (hb : ∀ c ∈ body, Token.inBody c)
    (hu : ∀ n ∈ (Pattern.ofText body).segments, Pattern.isWildcard n) :
    ∃ (bottom : Version s) (set : ConstraintSet s),
      Version.parse s (s.minimum ++ ['-', '0']) = .ok bottom ∧ parse s (op ++ body) = .ok set ∧
        set.groups = [[⟨.greaterOrEqual, bottom, op ++ body⟩]] ∧
        ∀ {s' : Scheme} (v : Version s'), set.check v := by
  have equal : ∀ op ∈ [[], ['='], ['=', '=']], Operator.ofText? op = some .equal := by decide
  have hn : body ≠ [] := by
    rintro rfl
    exact absurd hu (by decide)
  have ht := Token.solid_append (Operator.mem_operators <| equal op ho).1 hb
  have he := Token.expand_universal (s := s) (equal op ho) hb hn (List.all_eq_true.mpr hu)
  have hp := parse_token (s := s) (List.append_ne_nil_of_right_ne_nil op hn) ht
  rw [he] at hp
  refine ⟨_, _, Version.parse_bottom s, hp, rfl, fun v => ?_⟩
  exact List.any_eq_true.mpr ⟨_, .head _, List.all_eq_true.mpr <| Constraint.accepts_universal v⟩

-- A tag, wildcards of two kinds, and a suffix that could not stand in a version. The lowest version
-- of the other scheme is accepted.
theorem parse_universal_tagged :
    ∃ set, parse .calendar "==vX.*-rc.01+_".toList = .ok set ∧
      set.check (Version.bottom .semantic) := by
  have ho : ['=', '='] ∈ [[], ['='], ['=', '=']] := by decide
  have hb : "vX.*-rc.01+_".toList.all Token.inBody := by decide
  have hu : ∀ n ∈ (Pattern.ofText "vX.*-rc.01+_".toList).segments, Pattern.isWildcard n := by decide
  have ⟨_, set, _, h, _, hv⟩ := parse_universal (s := .calendar) ho (List.all_eq_true.mp hb) hu
  exact ⟨set, h, hv _⟩

end ConstraintSet
end VersionConstraints
