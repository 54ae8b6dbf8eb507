import VersionConstraints.Proofs.Expansion

namespace VersionConstraints

namespace Constraint

variable {s t : Scheme} {c : Constraint s} {d : Constraint t}

-- Two constraints, each of its own scheme, that ask the same of every candidate.
structure Agrees (c : Constraint s) (d : Constraint t) : Prop where
  operator : c.operator = d.operator
  bound    : (c.bound : Precedence) = d.bound

-- Two constraints that agree and stand for the same token.
structure Mirrors (c : Constraint s) (d : Constraint t) : Prop extends Agrees c d where
  source : c.source = d.source

theorem Agrees.accepts_iff (h : c.Agrees d) (candidate : Precedence) :
    c.accepts candidate ↔ d.accepts candidate := by
  simp only [accepts, h.operator, h.bound]

section Lifts

variable {r : Version s → Version t → Prop} {q : Constraint s → Constraint t → Prop}
variable {source source' : Text} {lower : Version s} {lower' : Version t} {part : Part}
variable {o : Operator}

-- A relation between versions of one rank, which a bump of both keeps, makes a relation between the
-- constraints of two tokens that have such bounds.
structure Lifts (r : Version s → Version t → Prop) (q : Constraint s → Constraint t → Prop)
    (source source' : Text) : Prop where
  rank       : ∀ v w, r v w → (v : Precedence) = w
  bump       : ∀ v w part, r v w → r (v.bump part) (w.bump part)
  constraint : ∀ o v w, r v w → q ⟨o, v, source⟩ ⟨o, w, source'⟩

namespace Lifts

variable (h : Lifts r q source source') (hl : r lower lower')
include h hl

theorem one : Simulates (List.Forall₂ q)
    (pure [⟨o, lower, source⟩] : Except ConstraintError _) (pure [⟨o, lower', source'⟩]) :=
  .pure <| .cons (h.constraint _ _ _ hl) .nil

-- Whether a bump goes up can be told from the rank.
theorem ceiling : Simulates r (ceiling source lower part) (ceiling source' lower' part) := by
  intro upper hu
  have ⟨hlt, he⟩ := ceiling_eq_ok.mp hu
  exact ⟨lower'.bump part, ceiling_eq_ok.mpr ⟨h.rank _ _ hl ▸ hlt, rfl⟩, he ▸ h.bump _ _ part hl⟩

theorem range : Simulates (List.Forall₂ q) (range source lower part) (range source' lower' part) :=
  (h.ceiling hl).bind fun _ _ hu =>
    .pure <| .cons (h.constraint _ _ _ hl) <| .cons (h.constraint _ _ _ hu) .nil

theorem wildcard :
    Simulates (List.Forall₂ q) (wildcard source o lower part) (wildcard source' o lower' part) := by
  cases o
  case equal => exact h.range hl
  case notEqual => exact .error
  case greaterOrEqual | less => exact h.one hl
  case greater | lessOrEqual => exact (h.ceiling hl).bind fun _ _ hu => h.one hu

end Lifts
end Lifts
end Constraint

namespace ConstraintSet

variable {s t : Scheme} {set : ConstraintSet s} {set' : ConstraintSet t}

-- Sets of one shape accept the same candidates if each constraint agrees with the one in its place.
theorem check_eq_of_agrees
    (h : List.Forall₂ (List.Forall₂ Constraint.Agrees) set.groups set'.groups)
    (candidate : Precedence) :
    set.check candidate = set'.check candidate := by
  have groups_iff := exists_mem_iff_of_forall₂ h fun _ _ hg =>
    forall_mem_iff_of_forall₂ hg fun _ _ hc => hc.accepts_iff candidate
  rw [Bool.eq_iff_iff]
  simpa [check] using groups_iff

end ConstraintSet
end VersionConstraints
