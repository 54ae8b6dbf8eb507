import VersionConstraints.Settings

namespace VersionConstraints.Config

variable {tree : FileTree} {start directory : Path} {e : ConfigError}

-- Of the directories from the start upward, the first with a settings file:
-- all others with one are above it.
structure Nearest (tree : FileTree) (start directory : Path) : Prop where
  above : directory <:+ start
  file  : tree.isFile (fileName :: directory)
  first : ∀ d, d <:+ start → tree.isFile (fileName :: d) → d <:+ directory

theorem Nearest.self (h : tree.isFile (fileName :: start)) : Nearest tree start start :=
  ⟨List.suffix_rfl, h, fun _ hd _ => hd⟩

theorem Nearest.unique {directory' : Path} (h : Nearest tree start directory)
    (h' : Nearest tree start directory') : directory = directory' :=
  (h'.first _ h.above h.file).eq_of_length_le (h.first _ h'.above h'.file).length_le

theorem Nearest.cons_iff {name : Text} (hn : ¬ tree.isFile (fileName :: name :: start)) :
    Nearest tree (name :: start) directory ↔ Nearest tree start directory := by
  have above {d : Path} (hf : tree.isFile (fileName :: d)) : d <:+ name :: start ↔ d <:+ start := by
    rw [List.suffix_cons_iff, or_iff_right]
    exact fun hd => hn <| hd ▸ hf
  constructor
  case mp =>
    intro ⟨ha, hf, first⟩
    exact ⟨(above hf).mp ha, hf, fun d hd hf => first d ((above hf).mpr hd) hf⟩
  case mpr =>
    intro ⟨ha, hf, first⟩
    exact ⟨(above hf).mpr ha, hf, fun d hd hf => first d ((above hf).mp hd) hf⟩

theorem nearest?_eq_some : nearest? tree start = some directory ↔ Nearest tree start directory := by
  have found {start : Path} (h : tree.isFile (fileName :: start)) :
      some start = some directory ↔ Nearest tree start directory :=
    ⟨fun he => Option.some.inj he ▸ .self h, fun hd => congrArg some <| (Nearest.self h).unique hd⟩
  induction start
  case nil =>
    rw [nearest?]
    split
    case isTrue h => exact found h
    case isFalse h => exact iff_of_false nofun fun hd => h <| List.suffix_nil.mp hd.above ▸ hd.file
  case cons name parent hi =>
    rw [nearest?]
    split
    case isTrue h => exact found h
    case isFalse h => exact hi.trans (Nearest.cons_iff h).symm

theorem load_eq_error {decode : Decoder} :
    load decode tree start = .error e ↔
      ∃ directory, Nearest tree start directory ∧ read decode tree directory = .error e := by
  simp only [load, ← nearest?_eq_some]
  split
  case h_1 directory hd => cases h : read decode tree directory <;> simp [hd, h, Except.map]
  case h_2 hd => simp [hd]

end VersionConstraints.Config
