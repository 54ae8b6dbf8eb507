import VersionConstraints.Proofs.Outcomes

namespace VersionConstraints

namespace Config

variable {decode : Decoder} {tree tree' : FileTree} {start directory : Path}
variable {result : Except ConfigError (Option Config)}

-- What the search for settings comes to:
-- 1. there are none if there is no file from the start upward
-- 2. the closest file that has a text is decoded, or is invalid
-- 3. the closest file that has none can not be read
-- An error names the closest file and what is wrong with it.
inductive Loads (decode : Decoder) (tree : FileTree) (start : Path) :
    Except ConfigError (Option Config) → Prop
  | absent (h : ∀ d, d <:+ start → ¬ tree.isFile (fileName :: d)) :
    Loads decode tree start (.ok none)
  | decoded {d : Path} {content : Text} {config : Config} (nearest : Nearest tree start d)
    (hf : tree.entry? (fileName :: d) = some (.file content)) (hc : decode content = .ok config) :
    Loads decode tree start (.ok (some config))
  | invalid {d : Path} {content cause : Text} (nearest : Nearest tree start d)
    (hf : tree.entry? (fileName :: d) = some (.file content)) (hc : decode content = .error cause) :
    Loads decode tree start (.error (.invalid (tree.pathText (fileName :: d)) cause))
  | unreadable {d : Path} {cause : Text} (nearest : Nearest tree start d)
    (hf : tree.entry? (fileName :: d) = some (.unreadable cause)) :
    Loads decode tree start (.error (.unreadable (tree.pathText (fileName :: d)) cause))

theorem nearest?_eq_none :
    nearest? tree start = none ↔ ∀ d, d <:+ start → ¬ tree.isFile (fileName :: d) := by
  induction start
  case nil => simp [nearest?]
  case cons name parent hi =>
    rw [nearest?]
    split
    case isTrue h =>
      refine iff_of_false (Option.some_ne_none _) ?_
      exact fun hn => hn _ List.suffix_rfl h
    case isFalse h =>
      simp only [List.suffix_cons_iff, forall_eq_or_imp]
      exact hi.trans (and_iff_right h).symm

theorem load_of_nearest (h : Nearest tree start directory) :
    load decode tree start = (read decode tree directory).map some := by
  rw [load, nearest?_eq_some.mpr h]

theorem read_of_file {content : Text}
    (h : tree.entry? (fileName :: directory) = some (.file content)) :
    read decode tree directory =
      (decode content).mapError (.invalid (tree.pathText (fileName :: directory))) := by
  rw [read, FileTree.read, h]
  rfl

theorem read_of_unreadable {cause : Text}
    (h : tree.entry? (fileName :: directory) = some (.unreadable cause)) :
    read decode tree directory =
      .error (.unreadable (tree.pathText (fileName :: directory)) cause) := by
  rw [read, FileTree.read, h]
  rfl

theorem load_of_loads (h : Loads decode tree start result) : load decode tree start = result := by
  cases h
  case absent h => rw [load, nearest?_eq_none.mpr h]
  case decoded hn hf hc =>
    rw [load_of_nearest hn, read_of_file hf, hc]
    rfl
  case invalid hn hf hc =>
    rw [load_of_nearest hn, read_of_file hf, hc]
    rfl
  case unreadable hn hf =>
    rw [load_of_nearest hn, read_of_unreadable hf]
    rfl

theorem exists_loads (decode : Decoder) (tree : FileTree) (start : Path) :
    ∃ result, Loads decode tree start result := by
  match hn : nearest? tree start with
  | none => exact ⟨_, .absent <| nearest?_eq_none.mp hn⟩
  | some directory =>
    have hn := nearest?_eq_some.mp hn
    match hf : tree.entry? (fileName :: directory) with
    | some (.file content) =>
      match hc : decode content with
      | .ok config => exact ⟨_, .decoded hn hf hc⟩
      | .error cause => exact ⟨_, .invalid hn hf hc⟩
    | some (.unreadable cause) => exact ⟨_, .unreadable hn hf⟩
    | some .directory | none => simpa [FileTree.isFile, hf] using hn.file

theorem load_eq_iff_loads : load decode tree start = result ↔ Loads decode tree start result := by
  constructor
  case mp =>
    rintro rfl
    have ⟨result, h⟩ := exists_loads decode tree start
    rwa [load_of_loads h]
  case mpr => exact load_of_loads

-- Two trees that have the same under the name of the settings file, from the start up to a
-- directory. All that lies above may differ.
structure SameUpTo (directory start : Path) (tree tree' : FileTree) : Prop where
  root  : tree'.root = tree.root
  entry : ∀ d, d <:+ start → directory <:+ d →
    tree'.entry? (fileName :: d) = tree.entry? (fileName :: d)

namespace SameUpTo

variable (h : SameUpTo directory start tree tree')
include h

theorem isFile {d : Path} (hs : d <:+ start) (hd : directory <:+ d) :
    tree'.isFile (fileName :: d) = tree.isFile (fileName :: d) := by
  rw [FileTree.isFile, h.entry d hs hd, FileTree.isFile]

-- The closest file hides what is above it.
theorem nearest (hn : Nearest tree start directory) : Nearest tree' start directory where
  above := hn.above
  file  := h.isFile hn.above List.suffix_rfl ▸ hn.file
  first d hs hf := by
    cases List.suffix_or_suffix_of_suffix hs hn.above
    case inl hd => exact hd
    case inr hd => exact hn.first d hs <| h.isFile hs hd ▸ hf

theorem load_eq (hn : Nearest tree start directory) :
    load decode tree' start = load decode tree start := by
  have read_eq : read decode tree' directory = read decode tree directory := by
    simp only [read, FileTree.read, FileTree.pathText,
      h.entry directory hn.above List.suffix_rfl, h.root]
  rw [load_of_nearest hn, load_of_nearest (h.nearest hn), read_eq]

end SameUpTo
end Config

namespace Settings

-- Where a setting comes from: it is asked for, or else the file gives it,
-- or else it is the default.
inductive Source {α : Type} (asked? given? : Option α) (default : α) : α → Prop
  | asked {a : α} (h : asked? = some a) : Source asked? given? default a
  | given {a : α} (h : asked? = none) (hg : given? = some a) : Source asked? given? default a
  | default (h : asked? = none) (hg : given? = none) : Source asked? given? default default

theorem source_iff {α : Type} {asked? given? : Option α} {default a : α} :
    Source asked? given? default a ↔ (asked? <|> given?).getD default = a := by
  constructor
  case mp =>
    intro h
    cases h
    case asked h => simp [h]
    case given h hg => simp [h, hg]
    case default h hg => simp [h, hg]
  case mpr =>
    rintro rfl
    match asked?, given? with
    | some _, _ => exact .asked rfl
    | none, some _ => exact .given rfl rfl
    | none, none => exact .default rfl rfl

-- Each setting has a source of its own.
structure Effective (config : Option Config) (options : Options) (s : Settings) : Prop where
  scheme : Source options.scheme? (config.bind (·.scheme?)) .semantic s.scheme
  strict : Source options.strict? (config.bind (·.strict?)) false s.strict

theorem resolve_eq_iff {config : Option Config} {options : Options} {s : Settings} :
    resolve config options.scheme? options.strict? = s ↔ s.Effective config options := by
  constructor
  case mp =>
    rintro rfl
    exact ⟨source_iff.mpr rfl, source_iff.mpr rfl⟩
  case mpr =>
    intro h
    rw [resolve, source_iff.mp h.scheme, source_iff.mp h.strict]

end Settings

namespace Command

-- What a command comes to under given settings.
def outcome (command : Command) (options : Options) (s : Settings) : Outcome :=
  match command.report s with
  | .error f => .failure f (options.verbosity ≠ 0)
  | .ok r => .report r options.json

variable {decode : Decoder} {tree : FileTree} {start : Path} {command : Command}
variable {options : Options} {s : Settings} {config : Option Config} {e : ConfigError}

theorem run_of_error (h : Config.Loads decode tree start (.error e)) :
    command.run decode tree start options = .failure (.settings e) false := by
  rw [run, Config.load_of_loads h]

theorem run_of_effective (h : Config.Loads decode tree start (.ok config))
    (hs : s.Effective config options) :
    command.run decode tree start options = command.outcome options s := by
  rw [run, Config.load_of_loads h, ← Settings.resolve_eq_iff.mpr hs]
  rfl

end Command

namespace Tool

theorem run_eq_of_load_eq {tool : Tool} {tree tree' : FileTree} {start : Path}
    (h : Config.load tool.decode tree' start = Config.load tool.decode tree start)
    (args : List Text) : tool.run tree' start args = tool.run tree start args := by
  rw [run, run]
  cases tool.request args
  case run command options =>
    change command.run tool.decode tree' start options = command.run tool.decode tree start options
    rw [Command.run, h, Command.run]
  all_goals rfl

end Tool
end VersionConstraints
