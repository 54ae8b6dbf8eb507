import VersionConstraints.Proofs.Flags
import VersionConstraints.Proofs.Outcomes
import VersionConstraints.Proofs.StrictReading

namespace VersionConstraints

namespace Command

variable {scheme : Scheme} {strict : Bool} {t : Text} {command : Command} {s : Settings}
variable {options : Options} {decode : Decoder} {tree : FileTree} {directory : Path}

theorem readVersion_loosely :
    Simulates Eq (readVersion strict scheme t) (readVersion false scheme t) :=
  .mapError fun v hv => ⟨v, Version.read_loosely hv, rfl⟩

theorem verdict_loosely {set : ConstraintSet scheme} :
    Simulates Eq (verdict strict set t) (verdict false set t) :=
  readVersion_loosely.bind_eq fun _ => .refl _

-- Expressions are read loosely in any case.
theorem report_loosely (command : Command) (s : Settings) :
    Simulates Eq (command.report s) (command.report { s with strict := false }) := by
  cases command
  case compare =>
    exact readVersion_loosely.bind_eq fun _ => readVersion_loosely.bind_eq fun _ => .refl _
  case check _ versions =>
    exact .bind_eq (.refl _) fun _ =>
      .bind_eq (.mapM_eq (fun _ => verdict_loosely) versions) fun _ => .refl _
  case sort versions _ =>
    exact .bind_eq (.mapM_eq (fun _ => readVersion_loosely) versions) fun _ => .refl _
  case bump => exact readVersion_loosely.bind_eq fun _ => .refl _
  case explain => exact .refl _

theorem settings_loosely (h : options.settings decode tree directory = .ok s) :
    { options with strict := false, loose := true }.settings decode tree directory =
      .ok { s with strict := false } := by
  have ⟨config, hl, hs⟩ := Options.settings_eq_ok.mp h
  exact Options.settings_eq_ok.mpr ⟨config, hl, hs ▸ rfl⟩

theorem run_loosely (h : (command.run decode tree directory options).code ≠ 2) :
    command.run decode tree directory { options with strict := false, loose := true } =
      command.run decode tree directory options := by
  have ⟨s, r, hs, hr, hc⟩ := report_of_code_ne_two h
  have ⟨_, hl, he⟩ := report_loosely command s r hr
  rw [hc, run_eq_report (settings_loosely hs) hl, he]

end Command

namespace Tool

open Arguments

variable {tool : Tool} {tree : FileTree} {directory : Path} {args args' : List Text}

theorem run_loosened (h : (tool.run tree directory args).code ≠ 2)
    (hr : tool.request args' = (tool.request args).loosened) :
    tool.run tree directory args' = tool.run tree directory args := by
  rw [run] at h
  rw [run, run, hr]
  cases hq : tool.request args <;> rw [hq] at h
  case run command options => exact Command.run_loosely h
  all_goals rfl

theorem request_ne_of_code_ne_two (h : (tool.run tree directory args).code ≠ 2) :
    tool.request args ≠ .rejected ∧ tool.request args ≠ .none := by
  constructor <;>
  · intro hr
    rw [run, hr] at h
    exact h rfl

-- Arguments for which the code is zero or one:
-- 1. the same comes of all arguments that ask for the same with strictness taken back, be it a flag
--    or a file that asked for it
-- 2. so it does of the loose flag in place of the flags of strictness, and of the loose flag in
--    front, if the reader of arguments heeds it
theorem run_loosen (tool : Tool) (tree : FileTree) (directory : Path) (args : List Text)
    (h : (tool.run tree directory args).code < 2) :
    (∀ args', tool.request args' = (tool.request args).loosened →
      tool.run tree directory args' = tool.run tree directory args) ∧
    (HeedsLooseFlag tool.request →
      tool.run tree directory (loosen false args) = tool.run tree directory args ∧
      tool.run tree directory (looseFlag :: loosen true args) = tool.run tree directory args) := by
  have h := Nat.ne_of_lt h
  have ⟨hr, hn⟩ := request_ne_of_code_ne_two h
  refine ⟨fun _ => run_loosened h, fun heeds => ⟨?placed, run_loosened h <| heeds.front hr hn⟩⟩
  by_cases hf : flagged args
  case pos => exact run_loosened h <| heeds.placed hr hn hf
  case neg => rw [loosen_of_not_flagged hf]

-- Two versions that differ in their order, with the strict flag behind the first.
theorem run_loosen_compare :
    let args := ["compare".toList, "1.0.0".toList, "--strict".toList, "2.0.0".toList]
    let args' := ["compare".toList, "1.0.0".toList, "--no-strict".toList, "2.0.0".toList]
    let tree := FileTree.ofList [] []
    (standard.run tree [] args).code < 2 ∧ HeedsLooseFlag standard.request ∧
      standard.run tree [] args' = standard.run tree [] args := by
  intro args args' tree
  have h : (standard.run tree [] args).code < 2 := by decide
  have heeds : HeedsLooseFlag standard.request := read_heedsLooseFlag
  exact ⟨h, heeds, ((run_loosen standard tree [] args h).2 heeds).1⟩

end Tool
end VersionConstraints
