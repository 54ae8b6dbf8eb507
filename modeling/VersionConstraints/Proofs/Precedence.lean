import VersionConstraints.Proofs.Rank
import VersionConstraints.Version.Basic

namespace VersionConstraints

namespace Precedence

instance : Std.TransOrd Precedence :=
  have pre : Std.TransCmp Prerelease.order := inferInstance
  have : Std.TransCmp fun p q : Precedence => Prerelease.order p.prerelease q.prerelease := {
    eq_swap := pre.eq_swap
    isLE_trans := pre.isLE_trans
  }
  inferInstanceAs (Std.TransCmp (compareLex _ _))

instance : Std.LawfulEqOrd Precedence where
  compare_self := Std.ReflOrd.compare_self
  eq_of_compare {p q} h := by
    change order p q = .eq at h
    simp only [order, compareLex_eq_eq, compareOn] at h
    have ⟨hM, hm, hp, hr⟩ := h
    ext1
    case major => exact Std.LawfulEqOrd.eq_of_compare hM
    case minor => exact Std.LawfulEqOrd.eq_of_compare hm
    case patch => exact Std.LawfulEqOrd.eq_of_compare hp
    case prerelease => exact Std.LawfulEqCmp.eq_of_compare hr

variable {p q r : Precedence}

theorem le_def : p ≤ q ↔ (compare p q).isLE :=
  .rfl

theorem le_trans (hp : p ≤ q) (hq : q ≤ r) : p ≤ r :=
  Std.TransOrd.isLE_trans hp hq

theorem le_total (p q : Precedence) : p ≤ q ∨ q ≤ p := by
  rw [le_def, le_def, Std.OrientedOrd.eq_swap (a := q)]
  cases compare p q <;> decide

theorem prerelease_text_inj : p.prerelease.text = q.prerelease.text ↔ p.prerelease = q.prerelease :=
  Dotted.text_inj fun _ => Identifier.wellFormed_of_canonical

theorem compare_eq_iff :
    compare p q = .eq ↔
      p.major = q.major ∧ p.minor = q.minor ∧ p.patch = q.patch ∧
        p.prerelease.text = q.prerelease.text := by
  rw [Std.LawfulEqOrd.compare_eq_iff_eq, prerelease_text_inj, Precedence.ext_iff]

-- The hash sees the written prerelease where the order sees its identifiers.
theorem key_inj : p.key = q.key ↔ compare p q = .eq := by
  rw [compare_eq_iff]
  simp only [key, Prod.mk.injEq, String.ofList_inj]

def numbers (p : Precedence) : List Nat :=
  [p.major.toNat, p.minor.toNat, p.patch.toNat]

-- The order as it can be told from the numbers and what the identifiers rank by.
def rankOrder (p q : Precedence) : Ordering :=
  compare p.numbers q.numbers |>.then <| Prerelease.compareRanks p.prerelease.rank q.prerelease.rank

theorem compare_segment (m n : Segment) : compare m n = compare m.toNat n.toNat := by
  change compareOfLessAndEq m n = compareOfLessAndEq m.toNat n.toNat
  simp only [compareOfLessAndEq, UInt64.lt_iff_toNat_lt, UInt64.toNat_inj]

theorem compare_eq_rankOrder (p q : Precedence) : compare p q = rankOrder p q := by
  change order p q = _
  simp only [order, compareLex, compareOn, compare_segment, Prerelease.order_eq_compareRanks,
    rankOrder, numbers, List.compare_cons_cons, List.compare_nil_nil, Ordering.then_eq,
    Ordering.then_assoc]

end Precedence

namespace Version

variable {s : Scheme} {v w : Version s}

theorem beq_iff : v == w ↔ compare (v : Precedence) w = .eq := by
  change (compare v.toPrecedence w.toPrecedence == .eq) ↔ _
  exact beq_iff_eq

theorem beq_iff_key_eq : v == w ↔ v.key = w.key := by
  rw [beq_iff, Precedence.key_inj]

-- Versions of all schemes form one total order, in which
-- 1. only versions with the same numbers and the same written prerelease are equal
-- 2. equality within a scheme agrees with the data that is hashed
-- 3. metadata and spelling do not count
theorem precedence_total :
    (∀ {s t : Scheme} (v : Version s) (w : Version t),
      compare (v : Precedence) w = (compare (w : Precedence) v).swap) ∧
    (∀ {s t u : Scheme} (v : Version s) (w : Version t) (x : Version u),
      (v : Precedence) ≤ w → (w : Precedence) ≤ x → (v : Precedence) ≤ x) ∧
    (∀ {s t : Scheme} (v : Version s) (w : Version t),
      compare (v : Precedence) w = .eq ↔
        v.major = w.major ∧ v.minor = w.minor ∧ v.patch = w.patch ∧
          v.prerelease.text = w.prerelease.text) ∧
    (∀ {s : Scheme} (v w : Version s),
      (v == w ↔ compare (v : Precedence) w = .eq) ∧ (v == w ↔ v.key = w.key) ∧
        hash v = hash v.key) ∧
    (∀ {s : Scheme} (v : Version s) (metadata : Metadata s) (spelling : Text),
      v == { v with metadata, spelling }) := by
  refine ⟨?swap, ?trans, ?eq, ?hash, ?labels⟩
  case swap => exact fun _ _ => Std.OrientedOrd.eq_swap
  case trans => exact fun _ _ _ => Precedence.le_trans
  case eq => exact fun _ _ => Precedence.compare_eq_iff
  case hash => exact fun _ _ => ⟨beq_iff, beq_iff_key_eq, rfl⟩
  case labels => exact fun _ _ _ => beq_iff.mpr Std.ReflOrd.compare_self

-- A semantic prerelease, a calendar one and their release.
theorem precedence_total_mixed :
    let v : Version .semantic :=
      ⟨⟨24, 1, 1, ⟨[['r', 'c'], ['9', '9']], by decide⟩⟩, Dotted.none, []⟩
    let w : Version .calendar :=
      ⟨⟨24, 1, 1, ⟨[['r', 'c'], ['1', '0', '0']], by decide⟩⟩, Dotted.none, []⟩
    let x : Version .semantic := ⟨⟨24, 1, 1, Dotted.none⟩, ⟨[['b']], by decide⟩, []⟩
    (v : Precedence) ≤ w ∧ (w : Precedence) ≤ x ∧ (v : Precedence) ≤ x := by
  intro v w x
  have hv : (v : Precedence) ≤ w := by decide
  have hw : (w : Precedence) ≤ x := by decide
  exact ⟨hv, hw, precedence_total.2.1 v w x hv hw⟩

-- The order is that of semantic versions: numbers rank by value and identifiers by what they stand
-- for, however many digits they have.
theorem compare_by_rank {s t : Scheme} (v : Version s) (w : Version t) :
    compare (v : Precedence) w = Precedence.rankOrder v w :=
  Precedence.compare_eq_rankOrder v w

end Version
end VersionConstraints
