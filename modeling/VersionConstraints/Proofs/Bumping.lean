import VersionConstraints.Proofs.Outcomes
import VersionConstraints.Proofs.StrictReading

namespace VersionConstraints

namespace Version

-- What a version becomes in bumps of the given parts, one after another.
def bumps {s : Scheme} (parts : List Part) (v : Version s) : Version s :=
  parts.foldl (fun v part => v.bump part) v

-- A release without metadata that is spelled the way it is written, behind a tag or without one.
structure Settled (tagged : Bool) (v : Version .semantic) : Prop where
  release  : v.isPrerelease = false
  metadata : v.metadata = Dotted.none
  spelling : v.spelling = (if tagged then ['v'] else []) ++ v.text

theorem bumps_append {s : Scheme} (parts parts' : List Part) (v : Version s) :
    v.bumps (parts ++ parts') = (v.bumps parts).bumps parts' :=
  List.foldl_append ..

variable {v : Version .semantic} {tagged strict : Bool} {part : Part} {parts : List Part} {t : Text}

-- Whatever a version is spelled like, a bump leaves nothing of it but the tag.
theorem bump_settled (part : Part) (v : Version .semantic) : Settled v.isTagged (v.bump part) where
  release := by cases part <;> rfl
  metadata := rfl
  spelling := by simp only [bump, true_and]; rfl

namespace Settled

-- A text starts with a digit, so that the tag can be told from the spelling.
theorem isTagged (h : Settled tagged v) : v.isTagged = tagged := by
  rw [Version.isTagged, h.spelling]
  cases tagged
  case true => rfl
  case false =>
    have hv : v.text.head? ≠ some 'v' := fun hv => absurd (v.head_text 'v' hv) (by decide)
    simpa using hv

theorem bump (h : Settled tagged v) (part : Part) : Settled tagged (v.bump part) :=
  h.isTagged ▸ bump_settled part v

theorem bumps (h : Settled tagged v) (parts : List Part) : Settled tagged (v.bumps parts) := by
  induction parts generalizing v
  case nil => exact h
  case cons part parts hi => exact hi (h.bump part)

theorem parseStrict (h : Settled tagged v) : parseStrict .semantic v.spelling = .ok v := by
  refine parseStrict_eq_ok.mpr ⟨?_, rfl⟩
  rw [h.spelling]
  cases tagged
  case true => exact .inr rfl
  case false => exact .inl rfl

theorem read (h : Settled tagged v) (strict : Bool) : read strict .semantic v.spelling = .ok v := by
  cases strict
  case true => exact h.parseStrict
  case false => exact read_loosely h.parseStrict

end Settled

theorem bumps_settled (hp : parts ≠ []) (v : Version .semantic) :
    Settled v.isTagged (v.bumps parts) := by
  cases parts
  case nil => contradiction
  case cons part parts => exact (bump_settled part v).bumps parts

theorem isTagged_of_read (h : Version.read strict .semantic t = .ok v) :
    v.isTagged ↔ t.head? = some 'v' := by
  rw [isTagged, spelling_of_read h, beq_iff_eq]

end Version

theorem Command.report_bump {s : Scheme} {v : Version s} {strict : Bool} {part : Part} {t : Text}
    (h : Version.read strict s t = .ok v) :
    report ⟨s, strict⟩ (.bump part t) = .ok (.bumped t (v.bump part).spelling) := by
  simp only [report, readVersion, h]
  rfl

namespace Version

variable {v : Version .semantic} {parts : List Part} {t : Text}

-- A chain of bumps stays well formed, of whatever length it is and whatever text it starts from:
-- 1. its versions are releases without metadata
-- 2. they are spelled the way they are written, behind a tag if the text has one
-- 3. the spelling is read as the same version, loosely and strictly
-- 4. so that the next bump of the spelling is the next one of the version
theorem bumps_well_formed (h : parse .semantic t = .ok v ∨ parseStrict .semantic t = .ok v)
    (hp : parts ≠ []) :
    let w := v.bumps parts
    (w.isPrerelease = false ∧ w.metadata = Dotted.none) ∧
    w.spelling = (if t.head? = some 'v' then ['v'] else []) ++ w.text ∧
    (parse .semantic w.spelling = .ok w ∧ parseStrict .semantic w.spelling = .ok w) ∧
    ∀ strict part, Command.report ⟨.semantic, strict⟩ (.bump part w.spelling) =
      .ok (.bumped w.spelling (v.bumps (parts ++ [part])).spelling) := by
  intro w
  have settled := bumps_settled hp v
  have tagged : v.isTagged ↔ t.head? = some 'v' := h.elim isTagged_of_read isTagged_of_read
  refine ⟨⟨settled.release, settled.metadata⟩, ?spelling, ⟨settled.read false, settled.read true⟩,
    ?next⟩
  case spelling => simpa only [tagged] using settled.spelling
  case next =>
    intro strict part
    rw [Command.report_bump (settled.read strict), bumps_append]
    rfl

-- A prerelease of the largest minor number, which no bump raises further.
theorem bumps_well_formed_largest :
    ∃ v, parse .semantic "v1.18446744073709551615.3-rc+b".toList = .ok v ∧
      (v.bumps [.patch, .minor]).spelling = "v1.18446744073709551615.0".toList ∧
      parseStrict .semantic (v.bumps [.patch, .minor]).spelling =
        .ok (v.bumps [.patch, .minor]) := by
  refine ⟨_, rfl, by decide, ?_⟩
  have h := @bumps_well_formed _ [.patch, .minor] "v1.18446744073709551615.3-rc+b".toList
    (.inl rfl) (by decide)
  exact h.2.2.1.2

end Version
end VersionConstraints
