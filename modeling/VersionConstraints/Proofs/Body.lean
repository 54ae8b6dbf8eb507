import Mathlib.Data.List.TakeWhile
import VersionConstraints.Constraint.Pattern
import VersionConstraints.Proofs.LooseReading
import VersionConstraints.Text.Blank

namespace VersionConstraints

-- A body told from its pieces: a tag, the segments in front of the first wildcard, the segments
-- from it on, and what follows the numbers. Every text can be taken apart in this way.
structure Body where
  tag      : Text
  front    : List Text
  back     : List Text
  suffix   : Text
  tag_eq   : tag = [] ∨ tag = ['v']
  untagged : tag = [] → ∀ n ∈ front.head?, n.head? ≠ some 'v'
  ne_nil   : front ++ back ≠ []
  plain    : ∀ n ∈ front ++ back, ∀ c ∈ n, Parts.inCore c ∧ c ≠ '.'
  number   : ∀ n ∈ front, Pattern.isWildcard n = false
  wildcard : ∀ n ∈ back.head?, Pattern.isWildcard n
  mark     : ∀ c ∈ suffix.head?, Parts.inCore c = false

namespace Text

theorem head_dotted_append {segments : List Text} {suffix : Text} {c : Char} (hd : c ≠ '.')
    (hs : suffix.head? ≠ some c) :
    (dotted segments ++ suffix).head? = some c ↔ ∃ n ∈ segments.head?, n.head? = some c := by
  match segments with
  | [] => simpa [dotted] using hs
  | [n] => cases n <;> simp [dotted, hs]
  | n :: m :: segments => cases n <;> simp [dotted, List.intercalate_cons_cons, hd.symm]

end Text

namespace Body

def render (b : Body) (segments : List Text) : Text :=
  b.tag ++ (Text.dotted segments ++ b.suffix)

def text (b : Body) : Text :=
  b.render (b.front ++ b.back)

-- The first wildcard and all segments after it are zero.
def zeroed (b : Body) : List Text :=
  b.front ++ b.back.map fun _ => ['0']

def concrete (b : Body) : Text :=
  b.render b.zeroed

-- Segments that are found again when they are written into a body.
structure Fits (b : Body) (segments : List Text) : Prop where
  ne_nil   : segments ≠ []
  plain    : ∀ n ∈ segments, ∀ c ∈ n, Parts.inCore c ∧ c ≠ '.'
  untagged : b.tag = [] → ∀ n ∈ segments.head?, n.head? ≠ some 'v'

namespace Fits

variable {b : Body} {segments : List Text} {s : Scheme} {p : Parts}

theorem inCore_of_mem (h : b.Fits segments) : ∀ c ∈ Text.dotted segments, Parts.inCore c := by
  intro c hc
  cases Text.mem_dotted hc
  case inl hc => rw [hc]; rfl
  case inr hc =>
    have ⟨n, hn, hc⟩ := hc
    exact (h.plain n hn c hc).1

theorem takeWhile (h : b.Fits segments) :
    ((Text.dotted segments ++ b.suffix).takeWhile Parts.inCore).splitOn '.' = segments := by
  rw [Parts.takeWhile_eq h.inCore_of_mem b.mark]
  exact List.splitOn_intercalate _ (fun n hn hc => (h.plain n hn _ hc).2 rfl) h.ne_nil

theorem dropWhile (h : b.Fits segments) :
    (Text.dotted segments ++ b.suffix).dropWhile Parts.inCore = b.suffix :=
  Parts.dropWhile_eq h.inCore_of_mem b.mark

theorem head_ne (h : b.Fits segments) (ht : b.tag = []) :
    (Text.dotted segments ++ b.suffix).head? ≠ some 'v' := by
  have hs : b.suffix.head? ≠ some 'v' := fun hs => absurd (b.mark _ hs) (by decide)
  rw [Ne, Text.head_dotted_append (by decide) hs]
  exact fun ⟨n, hn, hv⟩ => h.untagged ht n hn hv

theorem ofText_render (h : b.Fits segments) :
    Pattern.ofText (b.render segments) =
      { tagged := b.tag == ['v'], segments, suffix := b.suffix } := by
  have hu : Pattern.untag (b.render segments) =
      (b.tag == ['v'], Text.dotted segments ++ b.suffix) := by
    cases b.tag_eq
    case inr ht => rw [render, ht]; rfl
    case inl ht =>
      rw [render, ht]
      unfold Pattern.untag
      split
      case h_1 hv => exact absurd (congrArg List.head? hv) (h.head_ne ht)
      case h_2 => rfl
  simp only [Pattern.ofText, hu, h.takeWhile, h.dropWhile]

-- The version reader finds the same segments as the pattern does.
theorem core_of_shape (h : b.Fits segments) (hs : Shape s (b.render segments) p) :
    p.core = segments := by
  have ht : p.text = Text.dotted segments ++ b.suffix := by
    cases b.tag_eq <;> cases hs.text
    case inl.inl ht hp => rw [← hp, render, ht, List.nil_append]
    case inl.inr ht hp =>
      rw [render, ht, List.nil_append] at hp
      exact absurd (congrArg List.head? hp.2) (h.head_ne ht)
    case inr.inl ht hp =>
      rw [render, ht] at hp
      exact absurd (congrArg List.head? hp.symm) hs.head_text_ne
    case inr.inr ht hp =>
      rw [render, ht] at hp
      exact (List.cons.inj hp.2).2.symm
  rw [← Parts.ofText_text hs.plain, ht]
  exact h.takeWhile

end Fits

variable {b : Body} {s : Scheme} {v : Version s}

theorem isWildcard_iff {n : Text} : Pattern.isWildcard n ↔ n = ['*'] ∨ n = ['x'] ∨ n = ['X'] := by
  simp [Pattern.isWildcard, or_assoc]

theorem fits_text (b : Body) : b.Fits (b.front ++ b.back) where
  ne_nil := b.ne_nil
  plain := b.plain
  untagged ht n hn := by
    rw [List.head?_append, Option.mem_def, Option.or_eq_some_iff] at hn
    cases hn
    case inl hn => exact b.untagged ht n hn
    case inr hn => obtain rfl | rfl | rfl := isWildcard_iff.mp (b.wildcard n hn.2) <;> decide

theorem fits_zeroed (b : Body) : b.Fits b.zeroed where
  ne_nil h := b.ne_nil <| by simpa [zeroed] using h
  plain n hn := by
    cases List.mem_append.mp hn
    case inl hn => exact b.plain n (List.mem_append_left _ hn)
    case inr hn =>
      have ⟨_, _, hn⟩ := List.mem_map.mp hn
      simp [← hn, Parts.inCore]
  untagged ht n hn := by
    rw [zeroed, List.head?_append, Option.mem_def, Option.or_eq_some_iff] at hn
    cases hn
    case inl hn => exact b.untagged ht n hn
    case inr hn =>
      have ⟨_, _, hn⟩ := List.mem_map.mp (List.mem_of_mem_head? hn.2)
      simp [← hn]

theorem explicit_ofText (b : Body) : (Pattern.ofText b.text).explicit = b.front := by
  rw [text, b.fits_text.ofText_render, Pattern.explicit]
  exact Parts.takeWhile_eq (by simpa using b.number) (by simpa using b.wildcard)

theorem concrete_ofText (b : Body) : (Pattern.ofText b.text).concrete = b.concrete := by
  rw [Pattern.concrete, explicit_ofText, text, b.fits_text.ofText_render, List.drop_left]
  cases b.tag_eq <;> simp_all [concrete, render, zeroed]

theorem isUniversal_ofText (b : Body) :
    (Pattern.ofText b.text).isUniversal ↔ b.front = [] ∧ ∀ n ∈ b.back, Pattern.isWildcard n := by
  rw [text, b.fits_text.ofText_render, Pattern.isUniversal, List.all_append, Bool.and_eq_true]
  match h : b.front with
  | [] => simp
  | n :: front => simp [b.number n (h ▸ .head _)]

theorem not_isUniversal (b : Body) (h : b.front ≠ []) : ¬ (Pattern.ofText b.text).isUniversal :=
  fun hu => h (b.isUniversal_ofText.mp hu).1

theorem hasWildcard_ofText (b : Body) : (Pattern.ofText b.text).hasWildcard ↔ b.back ≠ [] := by
  rw [text, b.fits_text.ofText_render, Pattern.hasWildcard, List.any_append, Bool.or_eq_true]
  have hf : b.front.any Pattern.isWildcard = false :=
    List.any_eq_false.mpr (by simpa using b.number)
  match h : b.back with
  | [] => simp [hf]
  | n :: back => simp [b.wildcard n (by rw [h]; rfl)]

theorem back_eq_nil_of_text (h : b.text = []) : b.back = [] := by
  by_contra hw
  have hw := b.hasWildcard_ofText.mpr hw
  rw [h] at hw
  exact absurd hw (by decide)

theorem concrete_of_back_nil (h : b.back = []) : b.concrete = b.text := by
  simp [concrete, text, zeroed, h]

theorem dotted_segments_ofText (t : Text) :
    Text.dotted (Pattern.ofText t).segments ++ (Pattern.ofText t).suffix = (Pattern.untag t).2 := by
  simp only [Pattern.ofText, Text.dotted, List.intercalate_splitOn, List.takeWhile_append_dropWhile]

theorem plain_of_mem_segments {t n : Text} (h : n ∈ (Pattern.ofText t).segments) :
    ∀ c ∈ n, Parts.inCore c ∧ c ≠ '.' := by
  intro c hc
  have hc := List.mem_filter.mp <| (Text.sublist_of_mem_splitOnP h).mem hc
  exact ⟨List.mem_takeWhile_imp hc.1, by simpa using hc.2⟩

theorem untag_eq_or (t : Text) :
    (∃ u, t = 'v' :: u ∧ Pattern.untag t = (true, u)) ∨
      t.head? ≠ some 'v' ∧ Pattern.untag t = (false, t) := by
  unfold Pattern.untag
  split
  case h_1 u => exact .inl ⟨u, rfl, rfl⟩
  case h_2 h =>
    refine .inr ⟨fun hv => ?_, rfl⟩
    have ⟨u, hu⟩ := List.head?_eq_some_iff.mp hv
    exact h u hu

theorem head_ne_of_tagged_eq_false {t : Text} (ht : (Pattern.ofText t).tagged = false) :
    ∀ n ∈ (Pattern.ofText t).segments.head?, n.head? ≠ some 'v' := by
  intro n hn hv
  have hs : (Pattern.ofText t).suffix.head? ≠ some 'v' := fun hs =>
    absurd (Parts.head_dropWhile _ _ _ hs) (by decide)
  have hd := (Text.head_dotted_append (by decide) hs).mpr ⟨n, hn, hv⟩
  rw [dotted_segments_ofText] at hd
  cases untag_eq_or t
  case inl h =>
    have ⟨_, _, hu⟩ := h
    simp [Pattern.ofText, hu] at ht
  case inr h =>
    rw [h.2] at hd
    exact h.1 hd

-- A text, taken apart.
def ofText (t : Text) : Body where
  tag    := if (Pattern.ofText t).tagged then ['v'] else []
  front  := (Pattern.ofText t).segments.takeWhile (!Pattern.isWildcard ·)
  back   := (Pattern.ofText t).segments.dropWhile (!Pattern.isWildcard ·)
  suffix := (Pattern.ofText t).suffix
  tag_eq := by split <;> simp
  untagged ht n hn := by
    have ht : (Pattern.ofText t).tagged = false := by simpa using ht
    refine head_ne_of_tagged_eq_false ht n ?_
    rw [← List.takeWhile_append_dropWhile (l := (Pattern.ofText t).segments)
      (p := (!Pattern.isWildcard ·)), List.head?_append, Option.mem_def.mp hn]
    rfl
  ne_nil := by
    rw [List.takeWhile_append_dropWhile]
    exact List.splitOn_ne_nil _ _
  plain n hn := by
    rw [List.takeWhile_append_dropWhile] at hn
    exact plain_of_mem_segments hn
  number n hn := by simpa using List.mem_takeWhile_imp hn
  wildcard n hn := by simpa using Parts.head_dropWhile _ _ n hn
  mark c hc := Parts.head_dropWhile _ _ c hc

theorem text_ofText (t : Text) : (ofText t).text = t := by
  rw [text, render, ofText, List.takeWhile_append_dropWhile, dotted_segments_ofText]
  cases untag_eq_or t
  case inl h =>
    have ⟨u, ht, hu⟩ := h
    simp only [Pattern.ofText, hu, if_true]
    exact ht.symm
  case inr h => simp [Pattern.ofText, h.2]

-- A body that stands for a version has at most three segments.
theorem length_le_of_parse (h : Version.parse s b.concrete = .ok v) :
    b.front.length + b.back.length ≤ 3 := by
  have ⟨p, hs⟩ := Version.exists_shape h
  have hl := hs.core.length_le
  rwa [b.fits_zeroed.core_of_shape hs, zeroed, List.length_append, List.length_map] at hl

theorem text_ne_nil_of_parse (h : Version.parse s b.concrete = .ok v) : b.text ≠ [] := by
  intro ht
  rw [concrete_of_back_nil (back_eq_nil_of_text ht), ht] at h
  cases s <;> contradiction

end Body
end VersionConstraints
