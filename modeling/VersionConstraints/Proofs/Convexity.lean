import Mathlib.Order.Interval.Set.OrdConnected
import VersionConstraints.Proofs.Expansion

namespace VersionConstraints

-- What an operator asks for has no gap, unless the operator negates.
theorem Operator.ordConnected_relates {o : Operator} (h : o ≠ notEqual) (bound : Precedence) :
    {p | o.Relates p bound}.OrdConnected := by
  cases o
  case equal => exact Set.ordConnected_singleton
  case notEqual => contradiction
  case greater => exact Set.ordConnected_Ioi
  case greaterOrEqual => exact Set.ordConnected_Ici
  case less => exact Set.ordConnected_Iio
  case lessOrEqual => exact Set.ordConnected_Iic

namespace Constraint

variable {s : Scheme} {c : Constraint s} {group : List (Constraint s)} {low p high : Precedence}

-- A negation is the only gap there can be, and it leaves out one rank.
theorem accepts_between (hl : low ≤ p) (hh : p ≤ high) (hcl : c.accepts low)
    (hch : c.accepts high) :
    c.accepts p ↔ (c.operator = .notEqual → p ≠ c.bound) := by
  rw [accepts_iff] at *
  by_cases ho : c.operator = .notEqual
  case pos => simp only [ho, Operator.Relates, forall_const]
  case neg =>
    have h := (Operator.ordConnected_relates ho c.bound).out hcl hch ⟨hl, hh⟩
    exact iff_of_true h fun he => absurd he ho

theorem forall_accepts_between (hl : low ≤ p) (hh : p ≤ high) (hcl : ∀ c ∈ group, c.accepts low)
    (hch : ∀ c ∈ group, c.accepts high) :
    (∀ c ∈ group, c.accepts p) ↔ ∀ c ∈ group, c.operator = .notEqual → p ≠ c.bound :=
  forall₂_congr fun c hc => accepts_between hl hh (hcl c hc) (hch c hc)

end Constraint

namespace ConstraintSet

-- What a set accepts, whether it was read or built, is told by the order of versions alone:
-- 1. versions of one rank are accepted alike, whatever their scheme, metadata and spelling
-- 2. a group that negates nothing accepts all that lies between two versions it accepts
-- 3. a group that does leaves out the negated bounds and nothing else
theorem check_by_order {s : Scheme} (set : ConstraintSet s) :
    (∀ {t u : Scheme} (v : Version t) (w : Version u),
      compare (v : Precedence) w = .eq → set.check v = set.check w) ∧
    ∀ group ∈ set.groups, ∀ {t u x : Scheme} (low : Version t) (v : Version u) (high : Version x),
      (low : Precedence) ≤ v → (v : Precedence) ≤ high →
      (∀ c ∈ group, c.accepts low) → (∀ c ∈ group, c.accepts high) →
        ((∀ c ∈ group, c.operator ≠ .notEqual) → ∀ c ∈ group, c.accepts v) ∧
        ((∀ c ∈ group, c.accepts v) ↔
          ∀ c ∈ group, c.operator = .notEqual → compare (v : Precedence) c.bound ≠ .eq) := by
  simp only [ne_eq, Std.LawfulEqOrd.compare_eq_iff_eq]
  refine ⟨fun _ _ h => congrArg set.check h, fun group _ _ _ _ low v high hl hh hcl hch => ?_⟩
  have h := Constraint.forall_accepts_between hl hh hcl hch
  exact ⟨fun hn => h.mpr fun c hc ho => absurd ho (hn c hc), h⟩

-- A calendar prerelease, which lies between a semantic prerelease and a semantic release.
theorem check_by_order_mixed :
    let low  : Version .semantic := ⟨⟨24, 1, 0, ⟨[['r', 'c'], ['2']], by decide⟩⟩, Dotted.none, []⟩
    let v    : Version .calendar := ⟨⟨24, 2, 1, ⟨[['a']], by decide⟩⟩, Dotted.none, []⟩
    let w    : Version .semantic := ⟨⟨24, 2, 1, ⟨[['a']], by decide⟩⟩, ⟨[['b']], by decide⟩, ['v']⟩
    let high : Version .semantic := ⟨⟨24, 9, 0, Dotted.none⟩, ⟨[['b']], by decide⟩, []⟩
    (low : Precedence) ≤ v ∧ (v : Precedence) ≤ high ∧
      ∃ set, parse .semantic "^24.1.0-rc".toList = .ok set ∧ set.check v = set.check w ∧
        ∀ group ∈ set.groups, ∀ c ∈ group, c.accepts v := by
  intro low v w high
  have hl : (low : Precedence) ≤ v := by decide
  have hh : (v : Precedence) ≤ high := by decide
  have h : (Flat.parse .semantic "^24.1.0-rc".toList).toOption.any fun set =>
      set.groups.all fun group => group.all fun c =>
        c.operator != .notEqual && c.accepts low && c.accepts high := by decide
  rw [← parse_eq_flat] at h
  generalize hp : parse .semantic "^24.1.0-rc".toList = result at h
  match result with
  | .ok set =>
    simp only [Except.toOption, Option.any_some, List.all_eq_true, Bool.and_eq_true,
      bne_iff_ne] at h
    refine ⟨hl, hh, set, rfl, (check_by_order set).1 v w (by decide), fun group hg => ?_⟩
    have between := (check_by_order set).2 group hg low v high hl hh
      (fun c hc => (h group hg c hc).1.2) (fun c hc => (h group hg c hc).2)
    exact between.1 fun c hc => (h group hg c hc).1.1

end ConstraintSet
end VersionConstraints
