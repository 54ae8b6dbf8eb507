import VersionConstraints.Error
import VersionConstraints.Text.Decimal

namespace VersionConstraints

-- A number of a version, such as its major number.
abbrev Segment := UInt64

namespace Segment

def largest : Segment :=
  UInt64.ofNatLT 18446744073709551615 (by decide)

-- The largest segment has no successor and stays as it is.
def next (n : Segment) : Segment :=
  if n = largest then n else n + 1

def ofDigits (digits : Text) : Except VersionError Segment :=
  if h : Decimal.value digits < UInt64.size then .ok (UInt64.ofNatLT _ h)
  else .error (.segmentOverflow digits)

theorem toNat_next {n : Segment} (h : n ≠ largest) : n.next.toNat = n.toNat + 1 := by
  have hl : n.toNat ≠ 2 ^ 64 - 1 := fun h' => h (UInt64.toNat_inj.mp h')
  have hn := UInt64.toNat_lt n
  simp only [next, if_neg h, UInt64.toNat_add, UInt64.toNat_one]
  omega

theorem next_largest : largest.next = largest :=
  rfl

theorem toNat_le_largest (n : Segment) : n.toNat ≤ largest.toNat :=
  Nat.le_of_lt_succ n.toNat_lt

theorem toNat_next_eq_min (n : Segment) : n.next.toNat = min (n.toNat + 1) largest.toNat := by
  by_cases hn : n = largest
  case pos =>
    rw [hn, next_largest]
    exact (Nat.min_eq_right <| Nat.le_succ _).symm
  case neg =>
    have hl : n.toNat ≠ largest.toNat := mt UInt64.toNat_inj.mp hn
    rw [toNat_next hn, Nat.min_eq_left <| Nat.lt_of_le_of_ne n.toNat_le_largest hl]

theorem ofDigits_digits (n : Segment) : ofDigits (Decimal.digits n.toNat) = .ok n := by
  have h := UInt64.toNat_lt n
  simp [ofDigits, Decimal.value_digits, h]

end Segment
end VersionConstraints
