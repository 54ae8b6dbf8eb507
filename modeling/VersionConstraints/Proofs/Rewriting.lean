import VersionConstraints.Proofs.Agreement
import VersionConstraints.Proofs.Comparison
import VersionConstraints.Proofs.StrictReading
import VersionConstraints.Proofs.Tokens

namespace VersionConstraints

namespace Version

variable {v : Version .semantic} {c : Char}

theorem parse_text (v : Version .semantic) : parse .semantic v.text = .ok v.canonical :=
  read_loosely <| parseStrict_eq_ok.mpr ⟨.inl rfl, rfl⟩

theorem isDigit_of_mem_core {n : Text} (hn : n ∈ v.parts.core) (hc : c ∈ n) : c.isDigit := by
  have hn : n ∈ Scheme.semantic.core v.major v.minor v.patch := hn
  exact Scheme.isDigit_of_mem_core hn hc

-- The text of a version as the body of a token: there is no tag and no wildcard in it.
def body (v : Version .semantic) : Body where
  tag    := []
  front  := v.parts.core
  back   := []
  suffix := Parts.mark '-' v.parts.prerelease ++ Parts.mark '+' v.parts.metadata
  tag_eq := .inl rfl
  untagged _ n hn hv := by
    have hc := isDigit_of_mem_core (List.mem_of_mem_head? hn) (List.mem_of_mem_head? hv)
    contradiction
  ne_nil := List.append_nil v.parts.core ▸ v.plain_parts.core_ne_nil
  plain := List.append_nil v.parts.core ▸ v.plain_parts.core
  number n hn := by
    rw [Bool.eq_false_iff, Ne, Body.isWildcard_iff]
    rintro (rfl | rfl | rfl) <;>
    exact absurd (isDigit_of_mem_core hn (.head _)) (by decide)
  wildcard := nofun
  mark := Parts.Plain.head_marks v.parts

theorem text_body (v : Version .semantic) : v.body.text = v.text := by
  simp [Body.text, Body.render, body, text, Parts.text]

theorem parse_concrete_body (v : Version .semantic) :
    parse .semantic v.body.concrete = .ok v.canonical := by
  rw [Body.concrete_of_back_nil rfl, text_body, parse_text]

end Version

namespace Constraint

variable {c d : Constraint .semantic}

-- A constraint as one token, which stands for nothing but this constraint.
def token {s : Scheme} (c : Constraint s) : Text :=
  c.operator.symbol ++ c.bound.text

-- What is left of a constraint when it is written as a token: all but the spellings.
def written {s : Scheme} (c : Constraint s) : Constraint s :=
  ⟨c.operator, c.bound.canonical, c.token⟩

-- Two constraints that differ at most in what they were written or expanded from.
structure Restates (c d : Constraint .semantic) : Prop where
  operator : d.operator = c.operator
  fields   : d.bound.fields = c.bound.fields

theorem Restates.agrees (h : c.Restates d) : c.Agrees d where
  operator := h.operator.symm
  bound := by
    have hf := h.fields
    simp only [Version.fields, Prod.mk.injEq] at hf
    obtain ⟨hM, hm, hp, hr, _⟩ := hf
    exact Precedence.ext hM.symm hm.symm hp.symm <| Precedence.prerelease_text_inj.mp hr.symm

theorem restates_written (c : Constraint .semantic) : c.Restates c.written :=
  ⟨rfl, rfl⟩

theorem inBody_body (c : Constraint .semantic) : ∀ d ∈ c.bound.body.text, Token.inBody d :=
  c.bound.text_body ▸ c.bound.inBody_of_mem_text

theorem expand_token (c : Constraint .semantic) :
    Token.expand .semantic c.token = .ok [c.written] := by
  have he := Token.expand_operator_of_parse c.inBody_body c.bound.parse_concrete_body
    c.operator.ofText?_symbol c.bound.plain_parts.core_ne_nil
  rwa [if_pos (show c.bound.body.back = [] from rfl), Version.text_body] at he

theorem expand_tokens (group : List (Constraint .semantic)) :
    Flat.expand .semantic (group.map token) = .ok (group.map written) := by
  rw [Flat.expand_map fun c _ => c.expand_token, List.map_eq_flatMap]

end Constraint

-- The constraints of a group, each as one token.
def Clause.ofGroup {s : Scheme} (group : List (Constraint s)) : Text :=
  [' '].intercalate (group.map Constraint.token)

namespace ConstraintSet

-- A set as the expression of what it was expanded to.
def rewritten {s : Scheme} (set : ConstraintSet s) : Text :=
  [' ', '|', '|', ' '].intercalate (set.groups.map Clause.ofGroup)

variable {expression : Text} {set : ConstraintSet .semantic}

theorem rewritten_eq_text {s : Scheme} (set : ConstraintSet s) :
    set.rewritten = Flat.text (set.groups.map (·.map Constraint.token)) := by
  rw [Flat.text, List.map_map]
  rfl

theorem parse_rewritten (hs : set.groups ≠ []) (hn : [] ∉ set.groups) :
    parse .semantic set.rewritten =
      .ok { groups := set.groups.map (·.map Constraint.written), expression := set.rewritten } := by
  rw [rewritten_eq_text]
  apply parse_text
  case hn => simpa using hs
  case h =>
    simp only [List.forall₂_map_left_iff, List.forall₂_map_right_iff, List.forall₂_same]
    intro group hg
    have hn : group ≠ [] := fun he => hn <| he ▸ hg
    exact ⟨by simpa using hn, Constraint.expand_tokens group⟩

-- What an expression was expanded to can be written and read again:
-- 1. the groups and their constraints stand in the same places
-- 2. the same versions are accepted
-- An empty group can not be written.
theorem parse_rewritten_restates (h : parse .semantic expression = .ok set) (hn : [] ∉ set.groups) :
    ∃ set', parse .semantic set.rewritten = .ok set' ∧
      List.Forall₂ (List.Forall₂ Constraint.Restates) set.groups set'.groups ∧
      ∀ candidate, set'.check candidate = set.check candidate := by
  have restates : List.Forall₂ (List.Forall₂ Constraint.Restates) set.groups
      (set.groups.map (·.map Constraint.written)) := by
    simp only [List.forall₂_map_right_iff, List.forall₂_same]
    exact fun _ _ c _ => c.restates_written
  have agrees := restates.imp fun _ _ hg => hg.imp fun _ _ hc => hc.agrees
  exact ⟨_, parse_rewritten (groups_ne_nil h) hn, restates,
    fun r => (check_eq_of_agrees agrees r).symm⟩

-- A prerelease with metadata that a caret expands, a hyphen range with a wildcard, and the bottom.
theorem parse_rewritten_restates_mixed :
    ∃ set set', parse .semantic "^v1.2-rc+b ~0.3 !=2 || 1 - 2.x || *".toList = .ok set ∧
      [] ∉ set.groups ∧ parse .semantic set.rewritten = .ok set' ∧
        ∀ candidate, set'.check candidate = set.check candidate := by
  have h : (Flat.parse .semantic "^v1.2-rc+b ~0.3 !=2 || 1 - 2.x || *".toList).toOption.any
      (·.groups.all (!·.isEmpty)) := by decide
  rw [← parse_eq_flat] at h
  generalize hp : parse .semantic "^v1.2-rc+b ~0.3 !=2 || 1 - 2.x || *".toList = result at h
  match result with
  | .ok set =>
    have hn : [] ∉ set.groups := fun hm => by simpa using List.all_eq_true.mp h _ hm
    have ⟨set', hs, _, hc⟩ := parse_rewritten_restates hp hn
    exact ⟨set, set', rfl, hn, hs, hc⟩

end ConstraintSet
end VersionConstraints
