import VersionConstraints.Proofs.Comparison
import VersionConstraints.Proofs.Tokens
import VersionConstraints.Query

namespace VersionConstraints

namespace Shape

variable {s : Scheme} {t : Text} {p : Parts}

theorem inBody (h : Shape s t p) : ∀ c ∈ t, Token.inBody c := by
  have hp : ∀ c ∈ p.text, Token.inBody c := by
    apply Parts.inBody_of_mem_text
    case core => exact fun n hn c hc => Decimal.isDigit_of_isRun (h.core.isRun n hn) hc
    case prerelease => exact h.prerelease
    case metadata => exact fun i hi => Scheme.wellFormed_of_label <| h.metadata i hi
  cases h.text
  case inl ht => exact ht ▸ hp
  case inr ht =>
    rw [ht.2, List.forall_mem_cons]
    exact ⟨rfl, hp⟩

-- A wildcard is no number, and identifiers that look like one stand behind the numbers.
theorem back_eq_nil {b : Body} (h : Shape s b.text p) : b.back = [] := by
  match hb : b.back with
  | [] => rfl
  | n :: back =>
    have hw := Body.isWildcard_iff.mp <| b.wildcard n (by rw [hb]; rfl)
    have hn : n ∈ p.core := by simp [b.fits_text.core_of_shape h, hb]
    have hr := h.core.isRun n hn
    obtain rfl | rfl | rfl := hw <;> contradiction

theorem front_ne_nil {b : Body} (h : Shape s b.text p) : b.front ≠ [] := by
  have hn := b.ne_nil
  rwa [h.back_eq_nil, List.append_nil] at hn

end Shape

section

variable {s : Scheme} {op t : Text} {o : Operator} {v : Version s}
variable (ho : Operator.ofText? op = some o) (hv : Version.parse s t = .ok v)
include ho hv

-- The text of a version is read as an operand in the way it is read on its own: nothing in it is
-- taken for a wildcard or for a part of the operator.
theorem Token.expand_operand : expand s (op ++ t) = .ok [⟨o, v, op ++ t⟩] := by
  have ⟨p, hs⟩ := Version.exists_shape hv
  have hb := hs.inBody
  rw [← Body.text_ofText t] at hs hb hv ⊢
  generalize Body.ofText t = b at *
  rw [← Body.concrete_of_back_nil hs.back_eq_nil] at hv
  rw [expand_operator_of_parse hb hv ho hs.front_ne_nil, if_pos hs.back_eq_nil]

theorem ConstraintSet.parse_operand :
    parse s (op ++ t) = .ok { groups := [[⟨o, v, op ++ t⟩]], expression := op ++ t } :=
  parse_of_expand <| Token.expand_operand ho hv

end

namespace Query

variable {left op right : Text} {o : Operator} {w : Version .semantic}

-- Comparing two versions under an operator comes to checking one against the expression that the
-- operator and the other one make.
theorem compare_eq_satisfies (ho : Operator.ofText? op = some o)
    (hw : Version.parse .semantic right = .ok w) :
    compare left op right = satisfies left (op ++ right) := by
  rw [compare, satisfies, constraints, ConstraintSet.parse_operand ho hw, ho]
  simp only [version?, hw, Except.toOption]
  cases Version.parse .semantic left
  case error => rfl
  case ok v => simp [ConstraintSet.check, Constraint.accepts]

-- An operand with a tag, with letters that are wildcards elsewhere,
-- and with hyphens in its metadata.
theorem compare_eq_satisfies_labelled :
    let right := "v1.2-x.X+x-0-X".toList
    Operator.ofText? ['>', '='] = some .greaterOrEqual ∧
      (∃ w, Version.parse .semantic right = .ok w) ∧
      satisfies "1.2".toList (['>', '='] ++ right) := by
  intro right
  have h : compare "1.2".toList ['>', '='] right = satisfies "1.2".toList (['>', '='] ++ right) :=
    compare_eq_satisfies rfl rfl
  exact ⟨rfl, ⟨_, rfl⟩, h ▸ by decide⟩

end Query
end VersionConstraints
