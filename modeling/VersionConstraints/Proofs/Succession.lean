import VersionConstraints.Proofs.Saturation

namespace VersionConstraints

namespace Numbers

variable {before after : List Nat} {n a b c a' b' c' : Nat}

theorem compare_three :
    compare [a, b, c] [a', b', c'] = .lt ↔ a < a' ∨ a = a' ∧ (b < b' ∨ b = b' ∧ c < c') := by
  simp only [compare_cons_lt, List.compare_nil_nil, reduceCtorEq, and_false, or_false]

-- Numbers that are reset come before what they were, unless they were zero.
theorem zeros_lt_iff :
    compare (before ++ n :: after.map fun _ => 0) (before ++ n :: after) = .lt ↔
      ∃ m ∈ after, m ≠ 0 := by
  have hz : (∃ m ∈ after, m ≠ 0) ↔
      compare (before ++ n :: after) (before ++ n :: after.map fun _ => 0) ≠ .eq := by
    rw [Ne, Std.LawfulEqOrd.compare_eq_iff_eq, eq_zeros_iff]
    push Not
    rfl
  have hn := not_lt_zeros before n after
  rw [hz, Std.OrientedOrd.eq_swap, Ordering.swap_eq_lt]
  cases h : compare (before ++ n :: after) (before ++ n :: after.map fun _ => 0) <;> simp_all

end Numbers

namespace Precedence

variable {p q r : Precedence} {part : Part}

-- A release is below a version only where its numbers are.
theorem le_release_iff (hr : r.prerelease = Dotted.none) :
    p ≤ r ↔ compare r.numbers p.numbers ≠ .lt := by
  constructor
  case mp => exact numbers_not_lt
  case mpr =>
    intro hn
    by_contra h
    have ⟨he, _⟩ := (lt_iff.mp <| not_le.mp h).resolve_left hn
    have he : p.release = r := eq_of_numbers_eq he.symm hr.symm
    exact h <| he ▸ p.le_release

-- A bump goes back only where it cannot raise its number but resets others.
theorem bump_lt_self_iff :
    p.bump part < p ↔
      p.number part.place = Segment.largest.toNat ∧ ∃ n ∈ p.numbers.drop part.place, n ≠ 0 := by
  by_cases h : p.number part.place = Segment.largest.toNat
  case pos =>
    have ⟨before, after, hk, hp, hb⟩ := numbers_bump_of_largest h
    rw [and_iff_right h, ← not_le, le_release_iff (prerelease_bump p part), not_not,
      numbers_drop hp hk, hb, hp, Numbers.zeros_lt_iff]
  case neg =>
    have hlt := lt_bump <| Nat.lt_of_le_of_ne (p.number_le part) h
    exact iff_of_false (not_lt_of_gt hlt) fun hl => h hl.1

theorem lt_bump_patch (h : p.number Part.patch.place < Segment.largest.toNat ∨ p.isPrerelease) :
    p < p.bump .patch := by
  cases h
  case inl h => exact lt_bump h
  case inr h => exact bump_patch rfl h ▸ lt_release_self h

theorem le_bump_patch (p : Precedence) : p ≤ p.bump .patch := by
  rw [← not_lt, bump_lt_self_iff]
  intro ⟨_, n, hn, _⟩
  contradiction

-- The bump of the patch is the first release above a version, if there is one.
theorem bump_patch_le (hr : r.prerelease = Dotted.none) (h : p < r) : p.bump .patch ≤ r := by
  rw [le_release_iff hr]
  by_cases hp : p.isPrerelease
  case pos =>
    rw [bump_patch rfl hp]
    change compare r.numbers p.numbers ≠ .lt
    exact numbers_not_lt h.le
  case neg =>
    have hn : compare p.numbers r.numbers = .lt :=
      ((lt_release hr).mp h).resolve_right fun h => hp h.2
    simp only [numbers, bump, if_neg hp, ne_eq, Numbers.compare_three,
      Segment.toNat_next_eq_min] at *
    omega

theorem bump_le_bump (h : p ≤ q) : p.bump part ≤ q.bump part := by
  have release := prerelease_bump q part
  cases part
  case patch =>
    -- The release that follows the higher version is one above the lower.
    obtain rfl | h := h.eq_or_lt
    case inl => rfl
    case inr => exact bump_patch_le release <| h.trans_le q.le_bump_patch
  all_goals
    have hn := numbers_not_lt h
    rw [le_release_iff release]
    simp only [numbers, bump, ne_eq, Numbers.compare_three, Segment.toNat_next_eq_min] at *
    omega

end Precedence

namespace Version

-- Bumps follow the order, in which versions of all schemes stand:
-- 1. a bump is above the version if its number can be raised, and that of the
--    patch also if there is a prerelease to leave
-- 2. the bump of the patch passes over no release
-- 3. the bump of a higher version is not lower, whether or not its number can be raised
theorem bump_in_order :
    (∀ {s : Scheme} (v : Version s),
      (v.major < Segment.largest → (v : Precedence) < v.bump .major) ∧
      (v.minor < Segment.largest → (v : Precedence) < v.bump .minor) ∧
      (v.patch < Segment.largest ∨ v.isPrerelease → (v : Precedence) < v.bump .patch)) ∧
    (∀ {s t : Scheme} (v : Version s) (r : Version t), r.isPrerelease = false →
      ¬ ((v : Precedence) < r ∧ (r : Precedence) < v.bump .patch)) ∧
    ∀ {s t : Scheme} (part : Part) (v : Version s) (w : Version t),
      (v : Precedence) ≤ w → (v.bump part : Precedence) ≤ w.bump part := by
  refine ⟨fun v => ⟨?major, ?minor, ?patch⟩, ?between, ?monotone⟩
  case major => exact fun h => Precedence.lt_bump <| UInt64.lt_iff_toNat_lt.mp h
  case minor => exact fun h => Precedence.lt_bump <| UInt64.lt_iff_toNat_lt.mp h
  case patch => exact fun h => Precedence.lt_bump_patch <| h.imp_left UInt64.lt_iff_toNat_lt.mp
  case between =>
    intro _ _ v r hr ⟨hv, hb⟩
    exact not_lt_of_ge (Precedence.bump_patch_le (Precedence.prerelease_eq_none hr) hv) hb
  case monotone => exact fun _ _ _ h => Precedence.bump_le_bump h

-- A prerelease and its release, of one patch that cannot be raised and in different schemes.
theorem bump_in_order_largest :
    let v : Version .semantic := ⟨⟨1, 2, Segment.largest, ⟨[['b']], by decide⟩⟩, Dotted.none, []⟩
    let r : Version .calendar := ⟨⟨1, 2, Segment.largest, Dotted.none⟩, Dotted.none, []⟩
    ((v : Precedence) < v.bump .major ∧ (v : Precedence) < v.bump .minor ∧
      (v : Precedence) < v.bump .patch) ∧
      ¬ ((v : Precedence) < r ∧ (r : Precedence) < v.bump .patch) ∧
      (v : Precedence) ≤ r ∧ ∀ part, (v.bump part : Precedence) ≤ r.bump part := by
  intro v r
  have ⟨hM, hm, hp⟩ := bump_in_order.1 v
  have hr : (v : Precedence) ≤ r := by decide
  exact ⟨⟨hM (by decide), hm (by decide), hp (.inr rfl)⟩, bump_in_order.2.1 v r rfl, hr,
    fun part => bump_in_order.2.2 part v r hr⟩

-- A bump goes back only where its number stays the largest and one after it is reset,
-- which is never so for the patch.
theorem bump_lower_iff {s : Scheme} (v : Version s) :
    (compare (v.bump .major : Precedence) v = .lt ↔
      v.major = Segment.largest ∧ (v.minor ≠ 0 ∨ v.patch ≠ 0)) ∧
    (compare (v.bump .minor : Precedence) v = .lt ↔ v.minor = Segment.largest ∧ v.patch ≠ 0) ∧
    compare (v.bump .patch : Precedence) v ≠ .lt := by
  refine ⟨?major, ?minor, ?patch⟩
  case patch => exact not_lt_of_ge v.toPrecedence.le_bump_patch
  all_goals
    refine Precedence.bump_lt_self_iff.trans ?_
    simp [Precedence.number, Precedence.numbers, Part.place, ← UInt64.toNat_inj]

-- The bump of the largest major number only resets the minor number.
theorem not_forall_bump_not_lower :
    ¬ ∀ (s : Scheme) (v : Version s) (part : Part), compare (v.bump part : Precedence) v ≠ .lt := by
  intro h
  let v : Version .semantic :=
    ⟨⟨Segment.largest, 5, 0, Dotted.none⟩, Dotted.none, "18446744073709551615.5.0".toList⟩
  exact h .semantic v .major (by decide)

end Version
end VersionConstraints
