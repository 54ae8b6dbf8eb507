import VersionConstraints.Proofs.Acceptance
import VersionConstraints.Proofs.Release

namespace VersionConstraints

namespace Numbers

variable {before after : List Nat} {n : Nat}

theorem not_lt_zeros (before : List Nat) (n : Nat) (after : List Nat) :
    compare (before ++ n :: after) (before ++ n :: after.map fun _ => 0) ≠ .lt := by
  induction before
  case nil =>
    rw [List.nil_append, List.nil_append, Ne, compare_cons_lt, not_or, not_and]
    exact ⟨Nat.lt_irrefl n, fun _ => compare_zeros rfl⟩
  case cons m before hi =>
    rw [List.cons_append, List.cons_append, Ne, compare_cons_lt, not_or, not_and]
    exact ⟨Nat.lt_irrefl m, fun _ => hi⟩

theorem eq_zeros_iff :
    before ++ n :: after = before ++ n :: (after.map fun _ => 0) ↔ ∀ m ∈ after, m = 0 := by
  rw [List.append_cancel_left_eq, List.cons.injEq, and_iff_right rfl, List.map_const',
    List.eq_replicate_iff, and_iff_right rfl]

end Numbers

namespace Precedence

variable {p : Precedence} {part : Part} {before after : List Nat} {n k : Nat}

theorem prerelease_bump (p : Precedence) (part : Part) :
    (p.bump part).prerelease = Dotted.none := by
  cases part <;> rfl

-- The largest number stays as it is when it is raised,
-- so that a bump only resets what comes after it.
theorem numbers_bump_of_largest (h : p.number part.place = Segment.largest.toNat) :
    ∃ before after, before.length + 1 = part.place ∧
      p.numbers = before ++ Segment.largest.toNat :: after ∧
      (p.bump part).numbers = before ++ Segment.largest.toNat :: after.map fun _ => 0 := by
  have next_eq {n : Segment} (h : n.toNat = Segment.largest.toNat) : n.next = n :=
    UInt64.toNat_inj.mp h ▸ Segment.next_largest
  cases part
  case major =>
    have hM : p.major.toNat = Segment.largest.toNat := h
    exact ⟨[], _, rfl, by rw [← hM]; rfl, by simp [numbers, bump, next_eq hM, hM]⟩
  case minor =>
    have hm : p.minor.toNat = Segment.largest.toNat := h
    exact ⟨[_], _, rfl, by rw [← hm]; rfl, by simp [numbers, bump, next_eq hm, hm]⟩
  case patch =>
    have hp : p.patch.toNat = Segment.largest.toNat := h
    exact ⟨[_, _], _, rfl, by rw [← hp]; rfl, by simp [numbers, bump, next_eq hp, hp]⟩

-- A version that ranks below what a bump makes of its numbers although the number to be raised is
-- the largest: the bump only goes to the release.
structure Precedes (part : Part) (p : Precedence) : Prop where
  prerelease : p.isPrerelease
  zeros      : ∀ n ∈ p.numbers.drop part.place, n = 0

theorem numbers_drop (h : p.numbers = before ++ n :: after) (hk : before.length + 1 = k) :
    p.numbers.drop k = after := by
  rw [h, ← hk, List.drop_append]
  simp

theorem lt_bump_of_largest (h : p.number part.place = Segment.largest.toNat) :
    p < p.bump part ↔ p.Precedes part := by
  have ⟨before, after, hk, hp, hb⟩ := numbers_bump_of_largest h
  have zeros := numbers_drop hp hk
  have hn := Numbers.not_lt_zeros before Segment.largest.toNat after
  rw [lt_release (prerelease_bump p part), hb, hp, Numbers.eq_zeros_iff, or_iff_right hn]
  exact ⟨fun ⟨hz, hr⟩ => ⟨hr, zeros ▸ hz⟩, fun ⟨hr, hz⟩ => ⟨zeros ▸ hz, hr⟩⟩

theorem eq_of_numbers_eq {q : Precedence} (h : p.numbers = q.numbers)
    (hr : p.prerelease = q.prerelease) :
    p = q := by
  simp only [numbers, List.cons.injEq, UInt64.toNat_inj] at h
  exact Precedence.ext h.1 h.2.1 h.2.2.1 hr

theorem bump_of_precedes (h : p.number part.place = Segment.largest.toNat) (hp : p.Precedes part) :
    p.bump part = p.release := by
  have ⟨before, after, hk, hn, hb⟩ := numbers_bump_of_largest h
  have numbers_eq : (p.bump part).numbers = p.release.numbers := by
    rw [hb, ← Numbers.eq_zeros_iff.mpr (numbers_drop hn hk ▸ hp.zeros), ← hn]
    rfl
  exact eq_of_numbers_eq numbers_eq (prerelease_bump p part)

end Precedence

namespace Constraint

variable {s : Scheme} {source : Text} {lower : Version s} {part : Part} {o : Operator}
variable {result : Except ConstraintError (List (Constraint s))}

-- Nothing but the bump decides whether there is a result, and the bump is one of its bounds.
def EndsAt (source : Text) (lower : Version s) (part : Part)
    (result : Except ConstraintError (List (Constraint s))) : Prop :=
  ∃ around : Version s → List (Constraint s), (∀ upper, ∃ c ∈ around upper, c.bound = upper) ∧
    result = (do return around (← ceiling source lower part))

theorem range_endsAt : EndsAt source lower part (range source lower part) :=
  ⟨_, fun _ => ⟨_, .tail _ (.head _), rfl⟩, rfl⟩

theorem wildcard_endsAt (ho : o = .equal ∨ o = .greater ∨ o = .lessOrEqual) :
    EndsAt source lower part (wildcard source o lower part) := by
  obtain rfl | rfl | rfl := ho
  case inl => exact range_endsAt
  all_goals exact ⟨_, fun _ => ⟨_, .head _, rfl⟩, rfl⟩

theorem EndsAt.of_not_lt (h : EndsAt source lower part result)
    (hlt : ¬ (lower : Precedence) < lower.toPrecedence.bump part) :
    result = .error (.malformed source (.unbounded lower.text)) := by
  have ⟨_, _, hr⟩ := h
  have hc : ceiling source lower part = .error (.malformed source (.unbounded lower.text)) :=
    if_neg hlt
  rw [hr, hc]
  rfl

theorem EndsAt.of_lt (h : EndsAt source lower part result)
    (hlt : (lower : Precedence) < lower.toPrecedence.bump part) :
    ∃ cs, result = .ok cs ∧ ∃ c ∈ cs, c.bound = lower.bump part := by
  have ⟨around, ha, hr⟩ := h
  rw [ceiling_eq_ok.mpr ⟨hlt, rfl⟩] at hr
  exact ⟨_, hr, ha (lower.bump part)⟩

end Constraint

namespace Token

variable {s : Scheme} {op t : Text} {b : Body} {lower : Version s} {p : Part}

theorem Written.endsAt_of_raises (hw : Written op b t) (hf : b.front ≠ [])
    (hl : Version.parse s b.concrete = .ok lower) (hr : Raises op b lower p) :
    Constraint.EndsAt t lower p (expand s t) := by
  have hb := bound_eq_ok.mpr hl
  have operator_iff : ∀ op ∈ [[], ['='], ['=', '='], ['>'], ['<', '=']],
      Operator.ofText? op ∈ [some .equal, some .greater, some .lessOrEqual] := by decide
  rw [hw.text]
  cases hr
  case caret ho =>
    rw [ho, expand_caret hw.body hw.nonempty hf, hb]
    exact Constraint.range_endsAt
  case tilde ho =>
    rw [ho, expand_tilde hw.body hw.nonempty hf, hb]
    exact Constraint.range_endsAt
  case wildcard ho hback =>
    have ⟨o, ho, hs⟩ : ∃ o, o ∈ [.equal, .greater, .lessOrEqual] ∧ some o = Operator.ofText? op :=
      List.mem_map.mp (operator_iff op ho)
    rw [expand_operator hw.body hw.nonempty hf hs.symm, hb]
    simp only [if_neg hback]
    exact Constraint.wildcard_endsAt (by simpa using ho)

-- (1) A range whose upper bound would have to be above the largest number is refused,
--     and nothing is added.
-- (2) Only a prerelease of what the bump comes to, which is the release of its own numbers, has an
--     upper bound all the same.
theorem expand_of_largest (hw : Written op b t) (hf : b.front ≠ [])
    (hl : Version.parse s b.concrete = .ok lower) (hr : Raises op b lower p)
    (hm : lower.number p.place = Segment.largest.toNat) :
    (¬ lower.Precedes p → expand s t = .error (.malformed t (.unbounded lower.text)) ∧
      ∀ constraints, (collect s t).run.run constraints =
        (.error (.malformed t (.unbounded lower.text)), constraints)) ∧
    (lower.Precedes p → ∃ cs, expand s t = .ok cs ∧
      ∃ c ∈ cs, (c.bound : Precedence) = lower.release) := by
  have he := hw.endsAt_of_raises hf hl hr
  have lt_iff := Precedence.lt_bump_of_largest hm
  constructor
  case left =>
    intro hp
    have he := he.of_not_lt <| mt lt_iff.mp hp
    refine ⟨he, fun constraints => ?_⟩
    rw [collect_appends, he]
  case right =>
    intro hp
    have ⟨cs, he, c, hc, hb⟩ := he.of_lt <| lt_iff.mpr hp
    exact ⟨cs, he, c, hc, hb ▸ Precedence.bump_of_precedes hm hp⟩

-- The largest minor number under an operator that needs nothing but the upper bound, and a
-- prerelease of the largest major number.
theorem expand_of_largest_wildcard :
    expand .semantic ">1.18446744073709551615.x".toList =
      .error (.malformed ">1.18446744073709551615.x".toList
        (.unbounded "1.18446744073709551615.0".toList)) ∧
    ∃ cs, expand .semantic "~18446744073709551615-a".toList = .ok cs ∧
      ∃ c ∈ cs, (c.bound : Precedence) = ⟨Segment.largest, 0, 0, Dotted.none⟩ := by
  constructor
  case left =>
    let b := Body.ofText "1.18446744073709551615.x".toList
    let lower : Version .semantic :=
      ⟨⟨1, Segment.largest, 0, Dotted.none⟩, Dotted.none, "1.18446744073709551615.0".toList⟩
    have hw : Written ['>'] b ">1.18446744073709551615.x".toList :=
      ⟨rfl, by decide, by decide, List.all_eq_true.mp (by decide)⟩
    have hr : Raises ['>'] b lower .minor := .wildcard (by decide) (by decide)
    have ht : "1.18446744073709551615.0".toList = lower.text := by decide
    rw [ht]
    exact ((expand_of_largest hw (by decide) rfl hr rfl).1 fun h => nomatch h.prerelease).1
  case right =>
    let b := Body.ofText "18446744073709551615-a".toList
    let lower : Version .semantic :=
      ⟨⟨Segment.largest, 0, 0, ⟨[['a']], by decide⟩⟩, Dotted.none, "18446744073709551615-a".toList⟩
    have hw : Written ['~'] b "~18446744073709551615-a".toList :=
      ⟨rfl, by decide, by decide, List.all_eq_true.mp (by decide)⟩
    have hr : Raises ['~'] b lower .major := .tilde rfl
    exact (expand_of_largest hw (by decide) rfl hr rfl).2 ⟨rfl, by decide⟩

-- The caret of a prerelease of the largest major number is a range,
-- and it ends at the largest number.
theorem not_forall_saturated_refused :
    ¬ ∀ op b t (lower : Version .semantic) p, Written op b t → b.front ≠ [] →
      Version.parse .semantic b.concrete = .ok lower → Raises op b lower p →
      lower.number p.place = Segment.largest.toNat →
        ∃ fault, expand .semantic t = .error (.malformed t fault) := by
  intro hall
  let b := Body.ofText "18446744073709551615.0.0-a".toList
  have hw : Written ['^'] b "^18446744073709551615.0.0-a".toList :=
    ⟨rfl, by decide, by decide, List.all_eq_true.mp (by decide)⟩
  have ⟨fault, h⟩ := hall ['^'] b _ _ .major hw (by decide) rfl (.caret rfl) rfl
  contradiction

end Token
end VersionConstraints
