import VersionConstraints.Proofs.Expansion

namespace VersionConstraints

-- A token that stands for a range: it is read as a lower bound and the release that follows it in
-- number k, and it accepts the versions from the lower bound on that agree with it on the first k
-- numbers, and the prereleases of the upper bound.
def Token.Ranges (s : Scheme) (token : Text) (k : Nat) (lower : Version s) : Prop :=
  ∃ upper : Version s, Precedence.Follows k lower upper ∧
    ConstraintSet.parse s token = .ok
      { groups     := [[⟨.greaterOrEqual, lower, token⟩, ⟨.less, upper, token⟩]]
        expression := token } ∧
    ∀ candidate, ConstraintSet.Accepts s token candidate ↔
      Precedence.Covers k lower upper candidate

-- Two bodies that differ at most in what stands in their segments from the first wildcard on.
structure Body.Alike (b b' : Body) : Prop where
  tag    : b.tag = b'.tag
  front  : b.front = b'.front
  back   : b.back.length = b'.back.length
  suffix : b.suffix = b'.suffix

-- Whether an operator in front of a body lets versions differ after the numbers that are written: a
-- tilde always does, and equality where the body has a wildcard.
def Token.Widens (op : Text) (b : Body) : Prop :=
  op = ['~'] ∨ op ∈ [[], ['='], ['=', '=']] ∧ b.back ≠ []

namespace Body.Alike

variable {b b' : Body}

theorem concrete_eq (h : b.Alike b') : b.concrete = b'.concrete := by
  simp only [concrete, render, zeroed, List.map_const', h.tag, h.front, h.back, h.suffix]

theorem back_ne_nil (h : b.Alike b') (hw : b.back ≠ []) : b'.back ≠ [] := by
  rwa [← List.length_pos_iff, ← h.back, List.length_pos_iff]

theorem text_eq (h : b.Alike b') (hw : b.back = []) : b.text = b'.text := by
  have hw' : b'.back = [] := List.eq_nil_of_length_eq_zero <| by rw [← h.back, hw]; rfl
  rw [← concrete_of_back_nil hw, ← concrete_of_back_nil hw', h.concrete_eq]

end Body.Alike

namespace Token

variable {s : Scheme} {op token : Text} {k : Nat} {lower : Version s} {part : Part} {b b' : Body}

-- A token that becomes the range up to a bump stands for it, if the bump goes up: there is a next
-- number, and it is not the release that follows a prerelease of its own numbers.
theorem ranges_of_place (hn : token ≠ []) (ht : Solid token)
    (he : expand s token = Constraint.range token lower part) (hp : part.place = k)
    (hm : lower.number k < Segment.largest.toNat)
    (hr : part = .patch → lower.isPrerelease = false) :
    Ranges s token k lower := by
  subst hp
  have h := Precedence.bump_follows hm hr
  refine ⟨lower.bump part, h, ?parse, fun candidate => ?accepts⟩
  case parse =>
    rw [ConstraintSet.parse_token hn ht, he, Constraint.range_eq_ok.mpr ⟨h.lt, rfl⟩]
    rfl
  case accepts =>
    rw [ConstraintSet.accepts_token hn ht, he, Constraint.met_range]
    exact (and_iff_right h.lt).trans h.covers_iff.symm

-- A caret lets versions differ after the leftmost number that is not zero,
-- or after the last that is written if all are zero.
theorem caret_ranges (hb : ∀ c ∈ b.text, inBody c) (hf : b.front ≠ [])
    (hl : Version.parse s b.concrete = .ok lower) (hk : k = lower.caretPlace b.front.length)
    (hm : lower.number k < Segment.largest.toNat) (hr : k < 3 ∨ lower.isPrerelease = false) :
    Ranges s (['^'] ++ b.text) k lower := by
  have h₁ : 1 ≤ b.front.length := List.length_pos_iff.mpr hf
  have h₃ : b.front.length ≤ 3 := Nat.le_of_add_right_le (Body.length_le_of_parse hl)
  have hp : (Part.ofCaret lower b.front.length).place = k :=
    (Part.place_ofCaret h₁ h₃).trans hk.symm
  have he := expand_caret (s := s) hb (Body.text_ne_nil_of_parse hl) hf
  rw [bound_eq_ok.mpr hl] at he
  have hr : Part.ofCaret lower b.front.length = .patch → lower.isPrerelease = false := by
    intro h
    rw [h] at hp
    exact hr.resolve_left <| hp ▸ Nat.lt_irrefl 3
  exact ranges_of_place (List.cons_ne_nil _ _) (solid_append (by decide) hb) he hp hm hr

-- The caret keeps the minor number here although the body ends in a wildcard:
-- it is the leftmost that is not zero.
theorem caret_ranges_wildcard :
    ∃ lower, Version.parse .semantic "v0.2.0-b".toList = .ok lower ∧
      Ranges .semantic "^v0.2.x-b".toList 2 lower := by
  let b := Body.ofText "v0.2.x-b".toList
  have hb : ∀ c ∈ b.text, inBody c := List.all_eq_true.mp (by decide)
  exact ⟨_, rfl, caret_ranges hb (by decide) rfl rfl (by decide) (.inl (by decide))⟩

theorem Widens.spells_equal :
    ∀ op ∈ [[], ['='], ['=', '=']], Operator.ofText? op = some .equal := by
  decide

theorem Widens.mem_operators (h : Widens op b) : op ∈ operators := by
  cases h
  case inl ho => rw [ho]; decide
  case inr ho => exact (Operator.mem_operators <| spells_equal op ho.1).1

theorem expand_range (hb : ∀ c ∈ b.text, inBody c) (hn : b.text ≠ []) (hf : b.front ≠ [])
    (ho : Widens op b) :
    expand s (op ++ b.text) = (do
      let lower ← bound s b.concrete
      Constraint.range (op ++ b.text) lower (Part.ofWritten b.front.length)) := by
  cases ho
  case inl ho => rw [ho, expand_tilde hb hn hf]
  case inr ho =>
    rw [expand_operator hb hn hf <| Widens.spells_equal op ho.1]
    simp only [if_neg ho.2, Constraint.wildcard]

theorem accepts_range (hb : ∀ c ∈ b.text, inBody c) (hn : b.text ≠ []) (hf : b.front ≠ [])
    (ho : Widens op b) {r : Precedence} :
    ConstraintSet.Accepts s (op ++ b.text) r ↔
      ∃ lower : Version s, Version.parse s b.concrete = .ok lower ∧
        let upper := lower.toPrecedence.bump (Part.ofWritten b.front.length)
        Operator.equal.Closes lower upper ∧ Operator.equal.Spans lower upper r := by
  rw [ConstraintSet.accepts_token (by simp [hn]) (solid_append ho.mem_operators hb),
    expand_range hb hn hf ho]
  simp only [Constraint.met_bind, Constraint.met_range, bound_eq_ok]

-- What is written after the first wildcard does not change what is accepted.
theorem accepts_alike (hb : ∀ c ∈ b.text, inBody c) (hb' : ∀ c ∈ b'.text, inBody c)
    (hf : b.front ≠ []) (ho : Widens op b) (h : b.Alike b') {r : Precedence} :
    ConstraintSet.Accepts s (op ++ b.text) r ↔ ConstraintSet.Accepts s (op ++ b'.text) r := by
  by_cases hw : b.back = []
  case pos => rw [h.text_eq hw]
  case neg =>
    have hw' := h.back_ne_nil hw
    have hn := mt b.back_eq_nil_of_text hw
    have hn' := mt b'.back_eq_nil_of_text hw'
    have ho' : Widens op b' := ho.imp_right fun ho => ⟨ho.1, hw'⟩
    rw [accepts_range hb hn hf ho, accepts_range hb' hn' (h.front ▸ hf) ho', h.concrete_eq, h.front]

-- (1) A tilde and a wildcard let versions differ after the first number if no other is written, and
--     after the second otherwise.
-- (2) What is written after the first wildcard has no influence on this.
theorem tilde_wildcard_ranges (hb : ∀ c ∈ b.text, inBody c) (hf : b.front ≠ []) (ho : Widens op b) :
    (∀ k (lower : Version s), Version.parse s b.concrete = .ok lower →
      (k = if b.front.length = 1 then 1 else 2) → lower.number k < Segment.largest.toNat →
        Ranges s (op ++ b.text) k lower) ∧
    ∀ b' : Body, b.Alike b' → (∀ c ∈ b'.text, inBody c) → ∀ candidate,
      ConstraintSet.Accepts s (op ++ b.text) candidate ↔
        ConstraintSet.Accepts s (op ++ b'.text) candidate := by
  constructor
  case left =>
    intro k lower hl hk hm
    have hn := Body.text_ne_nil_of_parse hl
    have he := expand_range (s := s) hb hn hf ho
    rw [bound_eq_ok.mpr hl] at he
    have hp : (Part.ofWritten b.front.length).place = k :=
      (Part.place_ofWritten (List.length_pos_iff.mpr hf)).trans hk.symm
    exact ranges_of_place (by simp [hn]) (solid_append ho.mem_operators hb) he hp hm
      fun h => absurd h <| Part.ofWritten_ne_patch _
  case right => exact fun b' h hb' _ => accepts_alike hb hb' hf ho h

-- A number after the wildcard has no influence on the range.
theorem tilde_wildcard_ranges_of_year :
    ∃ lower, Version.parse .calendar "2020.0.0-b".toList = .ok lower ∧
      Ranges .calendar "~2020.x.4-b".toList 1 lower ∧
      Ranges .calendar "=2020.x.4-b".toList 1 lower ∧
      ∀ candidate, ConstraintSet.Accepts .calendar "2020.x.4-b".toList candidate ↔
        ConstraintSet.Accepts .calendar "2020.x.9-b".toList candidate := by
  let b := Body.ofText "2020.x.4-b".toList
  let b' := Body.ofText "2020.x.9-b".toList
  have hb : ∀ c ∈ b.text, inBody c := List.all_eq_true.mp (by decide)
  have hb' : ∀ c ∈ b'.text, inBody c := List.all_eq_true.mp (by decide)
  have hf : b.front ≠ [] := by decide
  have hw : b.back ≠ [] := by decide
  have h : b.Alike b' := by constructor <;> decide
  have tilde := @tilde_wildcard_ranges .calendar ['~'] b hb hf (.inl rfl)
  have equal := @tilde_wildcard_ranges .calendar ['='] b hb hf (.inr ⟨by decide, hw⟩)
  have plain := @tilde_wildcard_ranges .calendar [] b hb hf (.inr ⟨by decide, hw⟩)
  exact ⟨_, rfl, tilde.1 1 _ rfl rfl (by decide), equal.1 1 _ rfl rfl (by decide), plain.2 b' h hb'⟩

end Token
end VersionConstraints
