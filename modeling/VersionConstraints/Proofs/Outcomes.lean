import VersionConstraints.Command.Run
import VersionConstraints.Proofs.Nearest
import VersionConstraints.Proofs.Sequence

namespace VersionConstraints

namespace Command

-- A text that a command has to read.
inductive Input
  | expression (text : Text)
  | version (text : Text)

-- In the order in which they are read.
def inputs : Command → List Input
  | compare left right => [.version left, .version right]
  | check expression versions => .expression expression :: versions.map .version
  | sort versions _ => versions.map .version
  | bump _ version => [.version version]
  | explain expression => [.expression expression]

section Inputs

variable (s : Settings)

-- What is said about an input that can not be read.
def Input.Fails : Input → Failure → Prop
  | expression t, f => ∃ e, ConstraintSet.parse s.scheme t = .error e ∧ .constraint t e = f
  | version t, f => ∃ e, Version.read s.strict s.scheme t = .error e ∧ .version s.scheme t e = f

-- The first input that fails, and its failure.
inductive FailsFirst : List Input → Failure → Prop
  | head {i : Input} {is : List Input} {f : Failure} (h : i.Fails s f) : FailsFirst (i :: is) f
  | tail {i : Input} {is : List Input} {f : Failure} (h : ∀ g, ¬ i.Fails s g)
    (hf : FailsFirst is f) :
    FailsFirst (i :: is) f

end Inputs

variable {s : Settings} {i : Input} {is js : List Input} {f : Failure} {t : Text}

theorem not_failsFirst_nil : ¬ FailsFirst s [] f :=
  nofun

theorem failsFirst_cons :
    FailsFirst s (i :: is) f ↔ i.Fails s f ∨ (∀ g, ¬ i.Fails s g) ∧ FailsFirst s is f := by
  constructor
  case mp =>
    intro h
    cases h
    case head h => exact .inl h
    case tail h hf => exact .inr ⟨h, hf⟩
  case mpr =>
    intro h
    cases h
    case inl h => exact .head h
    case inr h => exact .tail h.1 h.2

theorem failsFirst_singleton : FailsFirst s [i] f ↔ i.Fails s f := by
  simp [failsFirst_cons, not_failsFirst_nil]

theorem exists_failsFirst : (∃ f, FailsFirst s is f) ↔ ∃ i ∈ is, ∃ f, i.Fails s f := by
  induction is
  case nil => simp [not_failsFirst_nil]
  case cons i is hi =>
    simp only [failsFirst_cons, List.exists_mem_cons_iff, ← hi]
    grind

theorem failsFirst_append :
    FailsFirst s (is ++ js) f ↔
      FailsFirst s is f ∨ (∀ g, ¬ FailsFirst s is g) ∧ FailsFirst s js f := by
  induction is
  case nil => simp [not_failsFirst_nil]
  case cons i is hi =>
    simp only [List.cons_append, failsFirst_cons, hi]
    grind

-- Whether a computation fails, and with what, depends on inputs alone, and on the first that fails.
def Reads {α : Type} (s : Settings) (x : Except Failure α) (is : List Input) : Prop :=
  ∀ f, x = .error f ↔ FailsFirst s is f

namespace Reads

variable {α β : Type} {x : Except Failure α}

theorem pure (a : α) : Reads s (pure a) [] :=
  fun _ => iff_of_false nofun not_failsFirst_nil

theorem bind {k : α → Except Failure β} (h : Reads s x is) (hk : ∀ a, Reads s (k a) js) :
    Reads s (x >>= k) (is ++ js) := by
  intro f
  have readable : (∃ a, x = .ok a) ↔ ∀ g, ¬ FailsFirst s is g := by
    simp only [← forall_ne_error, Ne, h _]
  rw [failsFirst_append, bind_eq_error, h f, ← readable]
  simp only [hk _ f, exists_and_right]

-- Nothing is read after the last input.
theorem bind_pure {g : α → β} (h : Reads s x is) : Reads s (x >>= fun a => Pure.pure (g a)) is :=
  List.append_nil is ▸ h.bind fun _ => pure _

theorem mapM {k : Text → Except Failure α} {input : Text → Input} (h : ∀ t, Reads s (k t) [input t])
    (ts : List Text) : Reads s (ts.mapM k) (ts.map input) := by
  induction ts
  case nil => exact pure []
  case cons t ts hi =>
    rw [List.mapM_cons]
    exact (h t).bind fun _ => hi.bind_pure

theorem one (h : ∀ f, x = .error f ↔ i.Fails s f) : Reads s x [i] :=
  fun f => (h f).trans failsFirst_singleton.symm

theorem version (t : Text) : Reads s (readVersion s.strict s.scheme t) [.version t] :=
  one fun _ => mapError_eq_error

theorem expression (t : Text) : Reads s (readExpression s.scheme t) [.expression t] :=
  one fun _ => mapError_eq_error

theorem verdict (set : ConstraintSet s.scheme) (t : Text) :
    Reads s (verdict s.strict set t) [.version t] :=
  (version t).bind_pure

theorem report (c : Command) : Reads s (c.report s) c.inputs := by
  cases c
  case compare left right => exact (version left).bind fun _ => (version right).bind_pure
  case check e versions =>
    exact (expression e).bind fun set => (mapM (verdict set) versions).bind_pure
  case sort versions _ => exact (mapM version versions).bind_pure
  case bump _ t => exact (version t).bind_pure
  case explain e => exact (expression e).bind_pure

end Reads

-- The expression and the versions of a check, all of them read.
structure Checked (s : Settings) (expression : Text) (versions : List Text) where
  set     : ConstraintSet s.scheme
  read    : List (Version s.scheme)
  set_eq  : ConstraintSet.parse s.scheme expression = .ok set
  read_eq : List.Forall₂ (fun t v => Version.read s.strict s.scheme t = .ok v) versions read

namespace Checked

variable {expression : Text} {versions : List Text} (c : Checked s expression versions)

-- One result for each version, in the order of the versions.
def results : List (Text × Bool) :=
  versions.zip (c.read.map (c.set.check ·.toPrecedence))

def text : Text :=
  c.results.flatMap fun (t, satisfied) =>
    (if satisfied then '✓' else '✗') :: ' ' :: t ++ ' ' :: expression ++ ['\n']

def json : Json :=
  .object [("constraint".toList, .string expression),
    ("results".toList, .array (c.results.map fun (t, satisfied) =>
      .object [("version".toList, .string t), ("satisfied".toList, .boolean satisfied)]))]

theorem map_results : c.results.map Prod.snd = c.read.map (c.set.check ·.toPrecedence) :=
  List.map_snd_zip <| Nat.le_of_eq <| by rw [List.length_map, c.read_eq.length_eq]

theorem exists_mem_results :
    (∃ p ∈ c.results, ¬ p.2) ↔ ∃ v ∈ c.read, ¬ c.set.check v.toPrecedence := by
  have h : false ∈ c.results.map Prod.snd ↔ false ∈ c.read.map (c.set.check ·.toPrecedence) := by
    rw [map_results]
  simpa only [List.mem_map, ← Bool.not_eq_true] using h

-- Both forms show the same results.
theorem output (tool : Tool) (json : Bool) :
    tool.output (.report (.verdicts expression c.results) json) =
      if json then tool.pretty c.json ++ ['\n'] else c.text := by
  rw [Tool.output]
  split
  case isTrue => rfl
  case isFalse => exact List.flatMap_map ..

end Checked

theorem verdict_eq_ok {strict : Bool} {scheme : Scheme} {set : ConstraintSet scheme}
    {p : Text × Bool} :
    verdict strict set t = .ok p ↔
      ∃ v, Version.read strict scheme t = .ok v ∧ (t, set.check v.toPrecedence) = p := by
  simp only [verdict, bind_eq_ok, pure_eq_ok, readVersion, mapError_eq_ok]

theorem mapM_verdict_eq_ok {strict : Bool} {scheme : Scheme} {set : ConstraintSet scheme}
    {versions : List Text} {results : List (Text × Bool)} :
    versions.mapM (verdict strict set) = .ok results ↔
      ∃ vs, List.Forall₂ (fun t v => Version.read strict scheme t = .ok v) versions vs ∧
        versions.zip (vs.map (set.check ·.toPrecedence)) = results := by
  simp only [mapM_eq_ok, verdict_eq_ok]
  induction versions generalizing results
  case nil => simp [eq_comm]
  case cons t versions hi =>
    simp only [List.forall₂_cons_left_iff, hi]
    constructor
    case mp =>
      intro ⟨_, _, ⟨v, hv, hp⟩, ⟨vs, hvs, hr⟩, he⟩
      exact ⟨v :: vs, ⟨v, vs, hv, hvs, rfl⟩, he ▸ hp ▸ hr ▸ rfl⟩
    case mpr =>
      intro ⟨_, ⟨v, vs, hv, hvs, he⟩, hr⟩
      exact ⟨_, _, ⟨v, hv, rfl⟩, ⟨vs, hvs, rfl⟩, by rw [← hr, he]; rfl⟩

theorem report_check_eq_ok {expression : Text} {versions : List Text} {r : Report} :
    report s (.check expression versions) = .ok r ↔
      ∃ c : Checked s expression versions, r = .verdicts expression c.results := by
  simp only [report, bind_eq_ok, pure_eq_ok, readExpression, mapError_eq_ok, mapM_verdict_eq_ok]
  constructor
  case mp =>
    intro ⟨set, hs, _, ⟨vs, hv, he⟩, hr⟩
    exact ⟨⟨set, vs, hs, hv⟩, by rw [← hr, ← he]; rfl⟩
  case mpr =>
    intro ⟨c, hr⟩
    exact ⟨c.set, c.set_eq, _, ⟨c.read, c.read_eq, rfl⟩, hr.symm⟩

-- Nothing but a check gives verdicts.
theorem report_eq_verdicts {command : Command} {expression : Text} {results : List (Text × Bool)}
    (h : report s command = .ok (.verdicts expression results)) :
    ∃ versions, command = .check expression versions ∧
      ∃ c : Checked s expression versions, results = c.results := by
  cases command
  case check e versions =>
    have ⟨c, hr⟩ := report_check_eq_ok.mp h
    cases hr
    exact ⟨versions, rfl, c, rfl⟩
  all_goals simp only [report, bind_eq_ok, pure_eq_ok, reduceCtorEq, and_false, exists_false] at h

end Command

namespace Report

variable {r : Report}

theorem exitCode_le_one (r : Report) : r.exitCode ≤ 1 := by
  unfold exitCode
  grind

theorem exitCode_eq_one :
    r.exitCode = 1 ↔ ∃ expression results, r = .verdicts expression results ∧
      ∃ p ∈ results, ¬ p.2 := by
  cases r <;> simp [exitCode]

end Report

namespace Options

variable {options : Options} {decode : Decoder} {tree : FileTree} {directory : Path}

-- The settings of a command, with those of the closest file.
def settings (o : Options) (decode : Decoder) (tree : FileTree) (directory : Path) :
    Except ConfigError Settings :=
  (Config.load decode tree directory).map fun config => Settings.resolve config o.scheme? o.strict?

theorem settings_eq_error {e : ConfigError} :
    options.settings decode tree directory = .error e ↔
      ∃ d, Config.Nearest tree directory d ∧ Config.read decode tree d = .error e := by
  rw [← Config.load_eq_error, settings]
  cases Config.load decode tree directory <;> simp [Except.map]

theorem settings_eq_ok {s : Settings} :
    options.settings decode tree directory = .ok s ↔
      ∃ config, Config.load decode tree directory = .ok config ∧
        Settings.resolve config options.scheme? options.strict? = s := by
  rw [settings]
  cases Config.load decode tree directory <;> simp [Except.map]

end Options

namespace Command

variable {decode : Decoder} {tree : FileTree} {directory : Path} {command : Command}
variable {options : Options} {s : Settings} {f : Failure} {r : Report}

-- What stops a command first: the closest settings, if they can not be read, or else an input.
inductive Stops (decode : Decoder) (tree : FileTree) (directory : Path) (command : Command)
    (options : Options) :
    Failure → Prop
  | settings {d : Path} {e : ConfigError} (nearest : Config.Nearest tree directory d)
    (h : Config.read decode tree d = .error e) :
    Stops decode tree directory command options (.settings e)
  | input {s : Settings} {f : Failure} (loaded : options.settings decode tree directory = .ok s)
    (h : FailsFirst s command.inputs f) : Stops decode tree directory command options f

theorem exists_stops :
    (∃ f, command.Stops decode tree directory options f) ↔
      (∃ d e, Config.Nearest tree directory d ∧ Config.read decode tree d = .error e) ∨
        ∃ s, options.settings decode tree directory = .ok s ∧
          ∃ i ∈ command.inputs, ∃ f, i.Fails s f := by
  constructor
  case mp =>
    intro ⟨f, h⟩
    cases h
    case settings d e nearest h => exact .inl ⟨d, e, nearest, h⟩
    case input s loaded h => exact .inr ⟨s, loaded, exists_failsFirst.mp ⟨f, h⟩⟩
  case mpr =>
    intro h
    cases h
    case inl h =>
      have ⟨d, e, nearest, h⟩ := h
      exact ⟨_, .settings nearest h⟩
    case inr h =>
      have ⟨s, loaded, h⟩ := h
      have ⟨f, h⟩ := exists_failsFirst.mpr h
      exact ⟨f, .input loaded h⟩

section Settings

variable (h : options.settings decode tree directory = .ok s)
include h

theorem run_eq_failure (hr : command.report s = .error f) :
    command.run decode tree directory options = .failure f (options.verbosity ≠ 0) := by
  have ⟨_, hl, hs⟩ := Options.settings_eq_ok.mp h
  simp only [run, hl, hs, hr]

theorem run_eq_report (hr : command.report s = .ok r) :
    command.run decode tree directory options = .report r options.json := by
  have ⟨_, hl, hs⟩ := Options.settings_eq_ok.mp h
  simp only [run, hl, hs, hr]

end Settings

theorem run_of_stops (h : command.Stops decode tree directory options f) :
    ∃ logged, command.run decode tree directory options = .failure f logged := by
  cases h
  case settings d e nearest h =>
    exact ⟨false, by rw [run, Config.load_eq_error.mpr ⟨d, nearest, h⟩]⟩
  case input s loaded h => exact ⟨_, run_eq_failure loaded <| (Reads.report command f).mpr h⟩

theorem run_of_not_stops (h : ¬ ∃ f, command.Stops decode tree directory options f) :
    ∃ s r, options.settings decode tree directory = .ok s ∧ command.report s = .ok r ∧
      command.run decode tree directory options = .report r options.json := by
  match hs : options.settings decode tree directory with
  | .error e =>
    have ⟨d, nearest, hd⟩ := Options.settings_eq_error.mp hs
    exact absurd ⟨_, .settings nearest hd⟩ h
  | .ok s =>
    match hr : command.report s with
    | .error f => exact absurd ⟨f, .input hs <| (Reads.report command f).mp hr⟩ h
    | .ok r => exact ⟨s, r, rfl, hr, run_eq_report hs hr⟩

theorem code_eq_two :
    (command.run decode tree directory options).code = 2 ↔
      ∃ f, command.Stops decode tree directory options f := by
  constructor
  case mp =>
    intro hc
    by_contra h
    have ⟨_, r, _, _, hr⟩ := run_of_not_stops h
    have hr : r.exitCode = 2 := by rwa [hr] at hc
    exact absurd r.exitCode_le_one <| by rw [hr]; decide
  case mpr =>
    intro ⟨f, h⟩
    have ⟨_, hr⟩ := run_of_stops h
    rw [hr]
    rfl

theorem failure_of_code_eq_two (tool : Tool)
    (h : (command.run decode tree directory options).code = 2) :
    ∃ f, command.Stops decode tree directory options f ∧
      tool.output (command.run decode tree directory options) = [] ∧
      tool.complaint (command.run decode tree directory options) = f.text := by
  have ⟨f, h⟩ := code_eq_two.mp h
  have ⟨_, hr⟩ := run_of_stops h
  exact ⟨f, h, by rw [hr]; rfl, by rw [hr]; rfl⟩

theorem report_of_code_ne_two (h : (command.run decode tree directory options).code ≠ 2) :
    ∃ s r, options.settings decode tree directory = .ok s ∧ command.report s = .ok r ∧
      command.run decode tree directory options = .report r options.json :=
  run_of_not_stops <| mt code_eq_two.mpr h

theorem code_eq_one :
    (command.run decode tree directory options).code = 1 ↔
      ∃ s, options.settings decode tree directory = .ok s ∧
        ∃ expression versions, command = .check expression versions ∧
          ∃ c : Checked s expression versions, ∃ v ∈ c.read, ¬ c.set.check v.toPrecedence := by
  constructor
  case mp =>
    intro h
    have ne : (command.run decode tree directory options).code ≠ 2 := by rw [h]; decide
    have ⟨s, r, hs, hr, hc⟩ := report_of_code_ne_two ne
    have h : r.exitCode = 1 := by rwa [hc] at h
    have ⟨e, results, he, h⟩ := Report.exitCode_eq_one.mp h
    have ⟨versions, hv, c, hc⟩ := report_eq_verdicts (he ▸ hr)
    exact ⟨s, hs, e, versions, hv, c, c.exists_mem_results.mp <| hc ▸ h⟩
  case mpr =>
    intro ⟨s, hs, e, versions, hc, c, h⟩
    have hr := report_check_eq_ok.mpr ⟨c, rfl⟩
    rw [hc, run_eq_report hs hr]
    exact Report.exitCode_eq_one.mpr ⟨e, _, rfl, c.exists_mem_results.mpr h⟩

theorem code_eq_zero (h₂ : (command.run decode tree directory options).code ≠ 2)
    (h₁ : (command.run decode tree directory options).code ≠ 1) :
    (command.run decode tree directory options).code = 0 := by
  have ⟨_, r, _, _, hr⟩ := report_of_code_ne_two h₂
  rw [hr] at h₁ ⊢
  exact Nat.lt_one_iff.mp <| Nat.lt_of_le_of_ne r.exitCode_le_one h₁

theorem output_of_check (tool : Tool) {expression : Text} {versions : List Text}
    (hs : options.settings decode tree directory = .ok s)
    (h : ((check expression versions).run decode tree directory options).code ≠ 2) :
    ∃ c : Checked s expression versions,
      tool.output ((check expression versions).run decode tree directory options) =
        if options.json then tool.pretty c.json ++ ['\n'] else c.text := by
  have ⟨s', r, hs', hr, hc⟩ := report_of_code_ne_two h
  cases hs.symm.trans hs'
  have ⟨c, hr⟩ := report_check_eq_ok.mp hr
  exact ⟨c, by rw [hc, hr, c.output]⟩

end Command

namespace Tool

open Command

variable {tool : Tool} {tree : FileTree} {directory : Path} {args : List Text}
variable {command : Command} {options : Options}

theorem run_of_request (h : tool.request args = .run command options) :
    tool.run tree directory args = command.run tool.decode tree directory options := by
  rw [run, h]

theorem report_of_request {s : Settings} {r : Report} (h : tool.request args = .run command options)
    (hs : options.settings tool.decode tree directory = .ok s) (hr : command.report s = .ok r) :
    tool.run tree directory args = .report r options.json :=
  (run_of_request h).trans <| run_eq_report hs hr

end Tool
end VersionConstraints
