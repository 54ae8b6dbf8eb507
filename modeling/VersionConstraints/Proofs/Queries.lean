import VersionConstraints.Proofs.Expansion
import VersionConstraints.Proofs.Sorting

namespace VersionConstraints

namespace Query

variable {t expression : Text} {versions : List Text} {v : Version .semantic}
variable {set : ConstraintSet .semantic} {e : ConstraintError}

theorem satisfiesSet_eq (t : Text) (set : ConstraintSet .semantic) :
    satisfiesSet t set = (version? t).any fun v => set.check v := by
  rw [satisfiesSet, ConstraintSet.checkText, version?]
  cases Version.parse .semantic t <;> rfl

theorem satisfies_of_constraints (h : constraints expression = .ok set) (t : Text) :
    satisfies t expression = satisfiesSet t set := by
  rw [satisfies, h, satisfiesSet_eq]
  cases version? t <;> rfl

theorem satisfies_of_error (h : constraints expression = .error e) (t : Text) :
    satisfies t expression = false := by
  rw [satisfies, h]
  cases version? t <;> rfl

-- Asking for many versions at once comes to asking for each of them.
theorem satisfiedBy_eq_filter (versions : List Text) (expression : Text) :
    satisfiedBy versions expression = versions.filter (satisfies · expression) := by
  rw [satisfiedBy]
  split
  case h_1 set h => exact List.filter_congr fun t _ => (satisfies_of_constraints h t).symm
  case h_2 e h =>
    have hn : ∀ t ∈ versions, ¬ satisfies t expression := fun t _ => by simp [satisfies_of_error h]
    exact (List.filter_eq_nil_iff.mpr hn).symm

theorem satisfiedBy_eq_self :
    satisfiedBy versions expression = versions ↔ ∀ t ∈ versions, satisfies t expression := by
  rw [satisfiedBy_eq_filter, List.filter_eq_self]

-- What each version of a list is answered.
def answers (versions : List Text) (expression : Text) : List (Text × Bool) :=
  versions.map fun t => (t, satisfies t expression)

theorem all_answers :
    (answers versions expression).all (·.2) ↔ satisfiedBy versions expression = versions := by
  simp [satisfiedBy_eq_self, answers]

end Query

open Query (constraints version? satisfies satisfiesSet satisfiedBy answers)

variable {t expression : Text} {versions : List Text} {set : ConstraintSet .semantic}

namespace Command

theorem verdict_eq_answer (hc : constraints expression = .ok set) (ht : (version? t).isSome) :
    verdict false set t = .ok (t, satisfies t expression) := by
  have ⟨v, hv⟩ := Option.isSome_iff_exists.mp ht
  refine verdict_eq_ok.mpr ⟨v, Query.version?_eq_some.mp hv, ?_⟩
  rw [Query.satisfies_of_constraints hc, Query.satisfiesSet_eq, hv]
  rfl

-- The results of a check are these answers.
theorem exists_checked (hc : constraints expression = .ok set)
    (hv : ∀ t ∈ versions, (version? t).isSome) :
    ∃ c : Checked ⟨.semantic, false⟩ expression versions,
      c.results = answers versions expression := by
  have verdicts : versions.mapM (verdict false set) = .ok (answers versions expression) := by
    rw [mapM_eq_ok, answers, List.forall₂_map_right_iff, List.forall₂_same]
    exact fun t ht => verdict_eq_answer hc (hv t ht)
  have ⟨read, hr, he⟩ := mapM_verdict_eq_ok.mp verdicts
  exact ⟨⟨set, read, hc, hr⟩, he⟩

theorem Checked.code {s : Settings} (c : Checked s expression versions) (json : Bool) :
    (Outcome.report (.verdicts expression c.results) json).code = 0 ↔ c.results.all (·.2) := by
  simp [Outcome.code, Report.exitCode]

end Command

namespace Query

-- All ways to ask agree with asking for one version under one expression:
-- 1. many versions at once are those that are accepted one by one, as they stand in the list
-- 2. an expression that is read beforehand answers the same for every text
-- 3. one that can not be read accepts nothing
-- 4. where all can be read, the check of the command line shows these answers, and its code is zero
--    exactly if all versions are accepted
theorem queries_agree (versions : List Text) (expression : Text) :
    satisfiedBy versions expression = versions.filter (satisfies · expression) ∧
    (∀ set, constraints expression = .ok set → ∀ t, satisfiesSet t set = satisfies t expression) ∧
    (∀ e, constraints expression = .error e →
      (∀ t, satisfies t expression = false) ∧ satisfiedBy versions expression = []) ∧
    ∀ (tool : Tool) tree directory args options set,
      tool.request args = .run (.check expression versions) options →
      options.settings tool.decode tree directory = .ok ⟨.semantic, false⟩ →
      constraints expression = .ok set → (∀ t ∈ versions, ∃ v, Version.parse .semantic t = .ok v) →
        let outcome := tool.run tree directory args
        ∃ c : Command.Checked ⟨.semantic, false⟩ expression versions,
          c.results = versions.map (fun t => (t, satisfies t expression)) ∧
          tool.output outcome = (if options.json then tool.pretty c.json ++ ['\n'] else c.text) ∧
          (outcome.code = 0 ↔ satisfiedBy versions expression = versions) := by
  refine ⟨satisfiedBy_eq_filter versions expression, ?parsed, ?unread, ?command⟩
  case parsed => exact fun set hc t => (satisfies_of_constraints hc t).symm
  case unread =>
    intro e hc
    exact ⟨satisfies_of_error hc, by rw [satisfiedBy, hc]⟩
  case command =>
    intro tool tree directory args options set ha hs hc hv outcome
    have ⟨c, results⟩ := Command.exists_checked hc fun t ht =>
      Option.isSome_iff_exists.mpr <| (hv t ht).imp fun _ => version?_eq_some.mpr
    have hr : outcome = .report (.verdicts expression c.results) options.json :=
      Tool.report_of_request ha hs <| Command.report_check_eq_ok.mpr ⟨c, rfl⟩
    rw [hr]
    exact ⟨c, results, c.output tool _, (c.code _).trans <| results ▸ all_answers⟩

-- Two spellings of one version, a version of another group, and a prerelease that no group accepts.
-- An operator alone is no expression.
theorem queries_agree_refused :
    let tool := Tool.standard
    let versions := ["1.0".toList, "v1".toList, "3".toList, "2.0.0-rc.1".toList]
    let expression := "~1.0 || >=3".toList
    let outcome := tool.run (.ofList [] []) [] ("check".toList :: expression :: versions)
    (∃ set, constraints expression = .ok set ∧
      ∀ t, satisfiesSet t set = satisfies t expression) ∧
    (∃ c : Command.Checked ⟨.semantic, false⟩ expression versions,
      c.results = versions.map (fun t => (t, satisfies t expression)) ∧
      tool.output outcome = c.text) ∧
    outcome.code ≠ 0 ∧ satisfiedBy versions ">=".toList = [] := by
  intro tool versions expression outcome
  have ⟨set, hc, hs⟩ :
      ∃ set, constraints expression = .ok set ∧ !satisfiesSet "2.0.0-rc.1".toList set :=
    ConstraintSet.exists_parse_iff_flat.mpr (by decide)
  have he : constraints ">=".toList = .error (.invalidToken ">=".toList) :=
    (ConstraintSet.parse_eq_flat _ _).trans rfl
  have ha : tool.request ("check".toList :: expression :: versions) =
      .run (.check expression versions) ⟨none, false, false, false, 0⟩ := by decide
  have hv : ∀ t ∈ versions, (version? t).isSome := by decide
  have ⟨_, parsed, _, command⟩ := queries_agree versions expression
  have ⟨c, results, output, code⟩ := command tool (.ofList [] []) [] _ _ set ha rfl hc fun t ht =>
    (Option.isSome_iff_exists.mp <| hv t ht).imp fun _ => version?_eq_some.mp
  have ⟨_, _, unread, _⟩ := queries_agree versions ">=".toList
  refine ⟨⟨set, hc, parsed set hc⟩, ⟨c, results, output⟩, fun h => ?_, (unread _ he).2⟩
  have accepted := satisfiedBy_eq_self.mp (code.mp h) "2.0.0-rc.1".toList (by decide)
  rw [parsed set hc, accepted] at hs
  contradiction

end Query
end VersionConstraints
