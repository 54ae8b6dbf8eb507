import Mathlib.Order.Defs.LinearOrder
import VersionConstraints.Proofs.Precedence
import VersionConstraints.Constraint.Range

namespace VersionConstraints

-- A release is above its prereleases and nothing else of its numbers.
theorem Prerelease.order_none (p : Prerelease) : order p Dotted.none = .lt ↔ ¬ p.isAbsent := by
  rw [order_eq_compareRanks, rank_eq, rank_eq, Dotted.isAbsent]
  cases p.parts <;> simp [Dotted.none, compareRanks]

namespace Precedence

variable {p q : Precedence}

theorem eq_of_le_of_le (hp : p ≤ q) (hq : q ≤ p) : p = q := by
  rw [le_def, Std.OrientedOrd.eq_swap (a := q)] at *
  apply Std.LawfulEqOrd.eq_of_compare
  cases h : compare p q <;> simp_all

instance : LinearOrder Precedence where
  le_refl _ := le_def.mpr <| by rw [Std.ReflOrd.compare_self]; rfl
  le_trans _ _ _ := le_trans
  le_antisymm _ _ hp hq := eq_of_le_of_le hp hq
  le_total := le_total
  lt_iff_le_not_ge p q := by
    rw [le_def, le_def, Std.OrientedOrd.eq_swap (a := q)]
    change compare p q = .lt ↔ _
    cases compare p q <;> decide
  toDecidableLE := inferInstance
  toDecidableLT := inferInstance
  toDecidableEq := inferInstance
  compare_eq_compareOfLessAndEq p q := by
    have hlt : p < q ↔ compare p q = .lt := .rfl
    have heq : p = q ↔ compare p q = .eq := Std.LawfulEqOrd.compare_eq_iff_eq.symm
    simp only [compareOfLessAndEq, hlt, heq]
    cases compare p q <;> rfl

end Precedence

namespace Numbers

variable {before after ms ns : List Nat} {m n : Nat}

theorem compare_cons_lt :
    compare (m :: ms) (n :: ns) = .lt ↔ m < n ∨ m = n ∧ compare ms ns = .lt := by
  rw [List.compare_cons_cons, Ordering.then_eq_lt, Nat.compare_eq_lt, Nat.compare_eq_eq]

theorem compare_zeros (h : ns.length = after.length) : compare ns (after.map fun _ => 0) ≠ .lt := by
  induction ns generalizing after <;> cases after
  case nil.nil => decide
  case cons.cons n ns hi _ after =>
    rw [List.map_cons, Ne, compare_cons_lt, not_or, not_and]
    exact ⟨Nat.not_lt_zero n, fun _ => hi (Nat.succ_inj.mp h)⟩
  all_goals contradiction

-- Of the numbers that are not below some others, those stay below the next with zeros after it that
-- agree up to the number that is raised.
theorem compare_raised (hl : ns.length = (before ++ n :: after).length)
    (hn : compare ns (before ++ n :: after) ≠ .lt) :
    compare ns (before ++ (n + 1) :: after.map fun _ => 0) = .lt ↔
      ns.take (before.length + 1) = before ++ [n] := by
  induction before generalizing ns <;> cases ns
  case nil.cons m ns =>
    have hm : ¬ m < n := fun hm => hn (compare_cons_lt.mpr (.inl hm))
    have hz := compare_zeros (Nat.succ_inj.mp hl)
    simp only [List.nil_append, compare_cons_lt, hz, and_false, or_false, List.length_nil,
      List.take_succ_cons, List.take_zero, List.cons.injEq, and_true]
    omega
  case cons.cons b before hi m ns =>
    rw [List.cons_append, Ne, compare_cons_lt, not_or, not_and] at hn
    have ⟨hm, hn⟩ := hn
    simp only [List.cons_append, compare_cons_lt, hm, false_or, List.length_cons,
      List.take_succ_cons, List.cons.injEq]
    exact and_congr_right fun hm => hi (Nat.succ_inj.mp hl) (hn hm)
  all_goals contradiction

end Numbers

namespace Precedence

variable {k : Nat} {p q lower upper : Precedence}

theorem lt_iff :
    p < q ↔ compare p.numbers q.numbers = .lt ∨
      p.numbers = q.numbers ∧ Prerelease.order p.prerelease q.prerelease = .lt := by
  change compare p q = .lt ↔ _
  rw [compare_eq_rankOrder, rankOrder, Ordering.then_eq_lt, Prerelease.order_eq_compareRanks,
    Std.LawfulEqOrd.compare_eq_iff_eq]

theorem numbers_not_lt (h : p ≤ q) : compare q.numbers p.numbers ≠ .lt :=
  fun hn => not_lt_of_ge h <| lt_iff.mpr (.inl hn)

theorem lt_release (h : q.prerelease = Dotted.none) :
    p < q ↔ compare p.numbers q.numbers = .lt ∨ p.numbers = q.numbers ∧ p.isPrerelease := by
  rw [lt_iff, h, Prerelease.order_none]
  simp [isPrerelease]

-- The release that follows a version in its number k, counted from 1: that number is one higher,
-- those before it are the same and those after it are zero.
structure Follows (k : Nat) (lower upper : Precedence) : Prop where
  release : upper.prerelease = Dotted.none
  numbers : ∃ before n after, before.length + 1 = k ∧ lower.numbers = before ++ n :: after ∧
    upper.numbers = before ++ (n + 1) :: after.map fun _ => 0

-- The versions from `lower` on that agree with it on the first k numbers,
-- and the prereleases of the release that follows.
structure Covers (k : Nat) (lower upper p : Precedence) : Prop where
  above  : lower ≤ p
  within : p.numbers.take k = lower.numbers.take k ∨ p.numbers = upper.numbers ∧ p.isPrerelease

namespace Follows

theorem lt (h : Follows k lower upper) : lower < upper := by
  have ⟨before, n, after, _, hl, hu⟩ := h.numbers
  have hn : compare lower.numbers (before ++ n :: after) ≠ .lt := by
    simp [hl, Std.ReflOrd.compare_self]
  rw [lt_iff, hu, Numbers.compare_raised (congrArg List.length hl) hn, hl]
  exact .inl <| List.take_length_add_append 1

theorem covers_iff (h : Follows k lower upper) :
    Covers k lower upper p ↔ lower ≤ p ∧ p < upper := by
  have ⟨before, n, after, hk, hl, hu⟩ := h.numbers
  have lt_iff_take (hp : lower ≤ p) :
      compare p.numbers upper.numbers = .lt ↔ p.numbers.take k = lower.numbers.take k := by
    have hn : compare p.numbers (before ++ n :: after) ≠ .lt := by
      rw [← hl]
      exact numbers_not_lt hp
    have hl' : p.numbers.length = (before ++ n :: after).length := by rw [← hl]; rfl
    rw [hu, Numbers.compare_raised hl' hn, hl, ← hk, List.take_length_add_append]
    rfl
  constructor
  case mp =>
    intro ⟨hp, hw⟩
    exact ⟨hp, (lt_release h.release).mpr <| hw.imp_left (lt_iff_take hp).mpr⟩
  case mpr =>
    intro ⟨hp, hu⟩
    exact ⟨hp, (lt_release h.release).mp hu |>.imp_left (lt_iff_take hp).mp⟩

end Follows

-- The number in place k, counted from 1.
def number (k : Nat) (p : Precedence) : Nat :=
  p.numbers.getD (k - 1) 0

-- The place of the leftmost number that is not zero, or else of the last that is written.
def caretPlace (p : Precedence) (written : Nat) : Nat :=
  match p.numbers.findIdx? (· ≠ 0) with
  | some i => i + 1
  | none => written

end Precedence

namespace Part

def place : Part → Nat
  | major => 1
  | minor => 2
  | patch => 3

variable {lower : Precedence} {written : Nat}

theorem place_ofCaret (h₁ : 1 ≤ written) (h₂ : written ≤ 3) :
    (ofCaret lower written).place = lower.caretPlace written := by
  have zero_iff (n : Segment) : n = 0 ↔ n.toNat = 0 := UInt64.toNat_inj.symm
  simp only [ofCaret, Precedence.caretPlace, Precedence.numbers, List.findIdx?_cons,
    List.findIdx?_nil, ne_eq, zero_iff]
  grind [place]

theorem ofWritten_ne_patch (written : Nat) : ofWritten written ≠ patch := by
  grind [ofWritten]

theorem place_ofWritten (h : 1 ≤ written) :
    (ofWritten written).place = if written = 1 then 1 else 2 := by
  grind [ofWritten, place]

end Part

namespace Precedence

variable {lower : Precedence} {part : Part}

theorem bump_follows (hn : lower.number part.place < Segment.largest.toNat)
    (hp : part = .patch → lower.isPrerelease = false) :
    Follows part.place lower (lower.bump part) := by
  have toNat_next {n : Segment} (h : n.toNat < Segment.largest.toNat) :
    n.next.toNat = n.toNat + 1 :=
    Segment.toNat_next fun he => Nat.lt_irrefl _ (he ▸ h)
  cases part
  case major => exact ⟨rfl, [], _, _, rfl, rfl, by simp [bump, numbers, toNat_next hn]⟩
  case minor => exact ⟨rfl, [_], _, _, rfl, rfl, by simp [bump, numbers, toNat_next hn]⟩
  case patch =>
    exact ⟨rfl, [_, _], _, _, rfl, rfl, by simp [bump, numbers, hp rfl, toNat_next hn]⟩

end Precedence
end VersionConstraints
