import VersionConstraints.Proofs.Ranges

namespace VersionConstraints

namespace Precedence

variable {p : Precedence} {part : Part}

-- The release that a version is or precedes.
def release (p : Precedence) : Precedence :=
  { p with prerelease := Dotted.none }

theorem lt_release_self (hp : p.isPrerelease) : p < p.release := by
  have hr : p < p.release ↔ _ := lt_release rfl
  exact hr.mpr <| .inr ⟨rfl, hp⟩

theorem prerelease_eq_none (hp : p.isPrerelease = false) : p.prerelease = Dotted.none := by
  have hr : p.prerelease.parts = [] := by simpa [isPrerelease, Dotted.isAbsent] using hp
  exact Dotted.ext hr

theorem le_release (p : Precedence) : p ≤ p.release := by
  by_cases hp : p.isPrerelease
  case pos => exact (lt_release_self hp).le
  case neg => rw [release, ← prerelease_eq_none <| Bool.not_eq_true _ |>.mp hp]

theorem number_le (p : Precedence) (part : Part) : p.number part.place ≤ Segment.largest.toNat := by
  cases part <;> exact Segment.toNat_le_largest _

theorem number_lt (h : Segment.largest.toNat ∉ p.numbers) (part : Part) :
    p.number part.place < Segment.largest.toNat := by
  have hm : p.number part.place ∈ p.numbers := by cases part <;> simp [number, Part.place, numbers]
  exact Nat.lt_of_le_of_ne (p.number_le part) fun he => h <| he ▸ hm

theorem bump_patch (hp : part = .patch) (hr : p.isPrerelease) : p.bump part = p.release := by
  simp [bump, release, hp, hr]

-- A bump goes up from the release as well, unless it only goes to the release.
theorem release_lt_bump_iff (h : p.number part.place < Segment.largest.toNat) :
    p.release < p.bump part ↔ ¬ (part = .patch ∧ p.isPrerelease) := by
  by_cases hp : part = .patch ∧ p.isPrerelease
  case pos =>
    rw [bump_patch hp.1 hp.2]
    exact iff_of_false (lt_irrefl _) (not_not.mpr hp)
  case neg =>
    have hf := bump_follows h fun hpatch => by simpa [hpatch] using hp
    exact iff_of_true (hf.covers_iff.mp ⟨p.le_release, .inl rfl⟩).2 hp

theorem lt_bump (h : p.number part.place < Segment.largest.toNat) : p < p.bump part := by
  by_cases hp : part = .patch ∧ p.isPrerelease
  case pos => exact bump_patch hp.1 hp.2 ▸ lt_release_self hp.2
  case neg => exact p.le_release.trans_lt <| (release_lt_bump_iff h).mpr hp

end Precedence

namespace Token

variable {s : Scheme} {body token : Text} {cs : List (Constraint s)} {lower : Version s}
variable {part : Part}

-- A range up to a bump holds the release of its lower bound unless it ends right in front of it.
theorem accepts_release_iff (hn : token ≠ []) (ht : Solid token)
    (he : expand s token = Constraint.range token lower part)
    (hm : Segment.largest.toNat ∉ lower.numbers) :
    ConstraintSet.Accepts s token lower.release ↔ ¬ (part = .patch ∧ lower.isPrerelease) := by
  have hm := Precedence.number_lt hm part
  rw [ConstraintSet.accepts_token hn ht, he, Constraint.met_range,
    ← Precedence.release_lt_bump_iff hm]
  exact (and_iff_right <| Precedence.lt_bump hm).trans <| and_iff_right lower.le_release

-- No operator but the caret starts with it, so that all after it is body.
theorem inBody_of_expand_caret (h : expand s (['^'] ++ body) = .ok cs) : ∀ c ∈ body, inBody c := by
  rw [expand] at h
  split at h
  case h_1 => contradiction
  case h_2 ht =>
    have caret : inBody '^' = false := rfl
    simp only [ofText?, List.singleton_append, List.takeWhile_cons, List.dropWhile_cons, caret,
      Bool.not_false, if_true, Option.ite_none_right_eq_some, Bool.and_eq_true,
      List.contains_iff_mem] at ht
    obtain ⟨⟨⟨ho, _⟩, hall⟩, _⟩ := ht
    have ho : body.takeWhile (!inBody ·) = [] := by
      simpa [operators, Operator.supported, Operator.spellings] using ho
    have hd : body.dropWhile (!inBody ·) = body := by
      have hd := List.takeWhile_append_dropWhile (p := (!inBody ·)) (l := body)
      rwa [ho] at hd
    rw [hd] at hall
    exact List.all_eq_true.mp hall

-- A caret is expanded to a lower and an upper bound. It accepts the release of the lower one unless
-- this is a prerelease in whose patch the caret lets versions differ:
-- the bump of its patch is the release.
theorem caret_accepts_release_iff (h : expand s (['^'] ++ body) = .ok cs) :
    ∃ lower upper : Version s,
      cs = [⟨.greaterOrEqual, lower, ['^'] ++ body⟩, ⟨.less, upper, ['^'] ++ body⟩] ∧
      (Segment.largest.toNat ∉ lower.numbers →
        (ConstraintSet.Accepts s (['^'] ++ body) lower.release ↔
          ¬ (lower.caretPlace (Pattern.ofText body).explicit.length = 3 ∧
            lower.isPrerelease))) := by
  have hb := inBody_of_expand_caret h
  rw [← Body.text_ofText body] at *
  generalize Body.ofText body = b at *
  have hop : ['^'] ∈ operators := .tail _ (.head _)
  have hn := body_ne_nil_of_expand hop hb h
  have hf : b.front ≠ [] := fun hf => expand_of_front_nil hb hn hf hop (by decide) h
  have he := expand_caret (s := s) hb hn hf
  have ⟨lower, hl, hr⟩ := bind_eq_ok.mp (he ▸ h)
  have he : expand s (['^'] ++ b.text) = _ := he.trans <| by rw [hl]
  have ⟨_, hcs⟩ := Constraint.range_eq_ok.mp hr
  have h₁ : 1 ≤ b.front.length := List.length_pos_iff.mpr hf
  have h₃ := Nat.le_of_add_right_le <| Body.length_le_of_parse (bound_eq_ok.mp hl)
  have hp : Part.ofCaret lower b.front.length = .patch ↔ lower.caretPlace b.front.length = 3 := by
    rw [← Part.place_ofCaret h₁ h₃]
    cases Part.ofCaret lower b.front.length <;> decide
  refine ⟨lower, _, hcs.symm, fun hm => ?_⟩
  rw [accepts_release_iff (by simp) (solid_append hop hb) he hm, hp, b.explicit_ofText]

-- A prerelease whose minor number is raised.
theorem caret_accepts_release_iff_minor :
    ∃ lower upper : Version .semantic,
      expand .semantic "^0.2.0-b".toList = .ok
        [⟨.greaterOrEqual, lower, "^0.2.0-b".toList⟩, ⟨.less, upper, "^0.2.0-b".toList⟩] ∧
      lower.isPrerelease ∧ ConstraintSet.Accepts .semantic "^0.2.0-b".toList lower.release := by
  have facts : (expand .semantic (['^'] ++ "0.2.0-b".toList)).toOption.any fun cs =>
      cs.head?.any fun c => c.bound.isPrerelease ∧ Segment.largest.toNat ∉ c.bound.numbers ∧
        c.bound.caretPlace (Pattern.ofText "0.2.0-b".toList).explicit.length ≠ 3 := by decide
  generalize he : expand .semantic (['^'] ++ "0.2.0-b".toList) = result at facts
  match result with
  | .ok cs =>
    have ⟨lower, upper, hc, h⟩ := caret_accepts_release_iff he
    subst hc
    have ⟨hr, hm, hp⟩ := of_decide_eq_true facts
    exact ⟨lower, upper, he, hr, (h hm).mpr fun h => hp h.1⟩

-- The caret of a prerelease whose patch is raised ends in front of the release.
theorem not_forall_caret_accepts_release :
    ¬ ∀ s body (cs : List (Constraint s)), expand s (['^'] ++ body) = .ok cs → ∀ c ∈ cs.head?,
      Segment.largest.toNat ∉ c.bound.numbers →
        ConstraintSet.Accepts s (['^'] ++ body) c.bound.release := by
  intro hall
  have facts : (expand .semantic (['^'] ++ "0.0.3-beta".toList)).toOption.any fun cs =>
      cs.head?.any fun c => Segment.largest.toNat ∉ c.bound.numbers ∧
        c.bound.release = ⟨0, 0, 3, Dotted.none⟩ := by decide
  generalize he : expand .semantic (['^'] ++ "0.0.3-beta".toList) = result at facts
  match result with
  | .ok (c :: _) =>
    have ⟨hm, hr⟩ := of_decide_eq_true facts
    have h := hall .semantic _ _ he c rfl hm
    rw [hr] at h
    exact absurd h (by decide)

end Token
end VersionConstraints
