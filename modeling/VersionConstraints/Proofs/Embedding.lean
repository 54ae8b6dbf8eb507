import VersionConstraints.Proofs.Agreement
import VersionConstraints.Proofs.Expansion

namespace VersionConstraints

-- A calendar text has the shape of a semantic one: its numbers are shorter than they would have to
-- be, and it has neither tag nor metadata.
theorem Shape.semantic {t : Text} {p : Parts} (h : Shape .calendar t p) : Shape .semantic t p where
  text         := .inl <| h.text.resolve_right nofun
  core         := ⟨h.plain.core_ne_nil, h.core.length_le, h.core.isRun⟩
  prerelease   := h.prerelease
  metadata i m := nomatch h.metadata i m

namespace Scheme

variable {s t : Scheme} {source : Text}

def SameRank (v : Version s) (w : Version t) : Prop :=
  (v : Precedence) = w

-- Each text that can be read in the one scheme can be read in the other, and ranks the same.
def Embeds (s t : Scheme) : Prop :=
  ∀ text, Simulates SameRank (Version.parse s text) (Version.parse t text)

theorem calendar_embeds : Embeds calendar semantic := by
  intro text v hv
  cases Version.parse_eq_iff_reads.mp hv
  case version p hs ho hz hn hr hl ht =>
    let w : Version semantic := ⟨v, ⟨p.metadata, hs.semantic.metadata⟩, text⟩
    exact ⟨w, Version.parse_eq_iff_reads.mpr <| .version hs.semantic ho hz hn hr rfl rfl, rfl⟩

theorem sameRank_lifts :
    Constraint.Lifts (SameRank (s := s) (t := t)) Constraint.Mirrors source source where
  rank _ _ h := h
  bump _ _ part h := congrArg (Precedence.bump part) h
  constraint _ _ _ h := ⟨⟨rfl, h⟩, rfl⟩

namespace Embeds

variable (h : s.Embeds t)
include h

theorem bound (text : Text) : Simulates SameRank (Token.bound s text) (Token.bound t text) :=
  (h text).mapError

-- The scheme comes in where a bound is read, and nowhere else: all that is decided on the way to it
-- is decided by the text of the token.
theorem expand (token : Text) : Simulates (List.Forall₂ Constraint.Mirrors)
    (Token.expand s token) (Token.expand t token) := by
  unfold Token.expand
  split
  case h_1 => exact .error
  case h_2 =>
    apply Simulates.ite
    case pos => exact fun _ => .ite (fun _ => .pure <| .cons ⟨⟨rfl, rfl⟩, rfl⟩ .nil) fun _ => .error
    case neg =>
      refine fun _ => .ite (fun _ => .error) fun _ => ?_
      apply Simulates.ite
      case pos => exact fun _ => .bind (h.bound _) fun _ _ hl => hl ▸ sameRank_lifts.range hl
      case neg =>
        refine fun _ => .ite (fun _ => ?_) fun _ => ?_
        · exact .bind (h.bound _) fun _ _ hl => sameRank_lifts.range hl
        split
        case h_1 => exact .error
        case h_2 =>
          apply Simulates.ite
          case pos => exact fun _ => .bind (h.bound _) fun _ _ hl => sameRank_lifts.wildcard hl
          case neg => exact fun _ => .bind (h.bound _) fun _ _ hl => sameRank_lifts.one hl

theorem group (expression clause : Text) : Simulates (List.Forall₂ Constraint.Mirrors)
    (Flat.group s expression clause) (Flat.group t expression clause) := by
  apply Simulates.ite
  case pos => exact fun _ => .error
  case neg =>
    -- The tokens of a clause are the same in every scheme.
    have tokens : Simulates Eq (Flat.tokens clause) (Flat.tokens clause) :=
      fun ts ht => ⟨ts, ht, rfl⟩
    refine fun _ => .bind tokens fun ts _ ht => ?_
    cases ht
    exact .bind (.mapM h.expand ts) fun _ _ hc => .pure <| List.rel_flatten hc

theorem parse (expression : Text) :
    Simulates (fun set set' =>
      List.Forall₂ (List.Forall₂ Constraint.Mirrors) set.groups set'.groups)
      (ConstraintSet.parse s expression) (ConstraintSet.parse t expression) := by
  rw [ConstraintSet.parse_eq_flat, ConstraintSet.parse_eq_flat]
  apply Simulates.ite
  case pos => exact fun _ => .error
  case neg => exact fun _ => .bind (.mapM (h.group expression) _) fun _ _ hg => .pure hg

end Embeds

-- One engine serves both schemes, and calendar texts mean the same to it
-- when they are read as semantic ones:
-- 1. a calendar version is a semantic one with the same numbers and the same prerelease
-- 2. a calendar expression is a semantic one, with the same constraints in the same places
-- 3. it accepts the same versions, whatever their scheme
theorem semantic_reads_calendar :
    (∀ text (v : Version calendar), Version.parse calendar text = .ok v →
      ∃ w : Version semantic, Version.parse semantic text = .ok w ∧
        w.major = v.major ∧ w.minor = v.minor ∧ w.patch = v.patch ∧
          w.prerelease.text = v.prerelease.text) ∧
    ∀ expression (set : ConstraintSet calendar), ConstraintSet.parse calendar expression = .ok set →
      ∃ set' : ConstraintSet semantic, ConstraintSet.parse semantic expression = .ok set' ∧
        List.Forall₂ (List.Forall₂ Constraint.Mirrors) set.groups set'.groups ∧
          ∀ candidate, set.check candidate = set'.check candidate := by
  constructor
  case left =>
    intro text v hv
    have ⟨w, hw, hr⟩ := calendar_embeds text v hv
    have ⟨hM, hm, hp, hr⟩ := Precedence.ext_iff.mp hr.symm
    exact ⟨w, hw, hM, hm, hp, congrArg Dotted.text hr⟩
  case right =>
    intro expression set hs
    have ⟨set', hs', hm⟩ := calendar_embeds.parse expression set hs
    have ha := hm.imp fun _ _ hg => hg.imp fun _ _ hc => hc.toAgrees
    exact ⟨set', hs', hm, ConstraintSet.check_eq_of_agrees ha⟩

-- Padded numbers, and tokens of every kind.
theorem semantic_reads_calendar_mixed :
    (∃ v w, Version.parse calendar "24.01.05-rc.1".toList = .ok v ∧
      Version.parse semantic "24.01.05-rc.1".toList = .ok w ∧ w.patch = v.patch) ∧
    ∃ set set',
      ConstraintSet.parse calendar "24.1 - 24.x, !=24.03.5 || ^00.0.7-b ~24 || *".toList =
        .ok set ∧
      ConstraintSet.parse semantic "24.1 - 24.x, !=24.03.5 || ^00.0.7-b ~24 || *".toList =
        .ok set' ∧
      ∀ candidate, set.check candidate = set'.check candidate := by
  constructor
  case left =>
    have ⟨v, hv⟩ : ∃ v, Version.parse calendar "24.01.05-rc.1".toList = .ok v := ⟨_, rfl⟩
    have ⟨w, hw, _, _, hp, _⟩ := semantic_reads_calendar.1 _ v hv
    exact ⟨v, w, hv, hw, hp⟩
  case right =>
    have ⟨set, hs⟩ :
        ConstraintSet.Parses calendar "24.1 - 24.x, !=24.03.5 || ^00.0.7-b ~24 || *".toList :=
      ConstraintSet.parses_iff_flat.mpr (by decide)
    have ⟨set', hs', _, hc⟩ := semantic_reads_calendar.2 _ set hs
    exact ⟨set, set', hs, hs', hc⟩

end Scheme
end VersionConstraints
