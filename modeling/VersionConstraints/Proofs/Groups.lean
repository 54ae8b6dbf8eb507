import VersionConstraints.Proofs.Tokens

namespace VersionConstraints

namespace Clause

-- The words of a clause, which are its tokens as they are written. The hyphen of a range is none,
-- and no other that stands alone can be read.
def words (clause : Text) : List Text :=
  (Text.runs separates clause).filter (· ≠ ['-'])

-- What a word of a clause adds to the group. The first word on a side of a
-- range is read behind the operator of a bound.
structure Adds (s : Scheme) (word : Text) (cs : List (Constraint s)) : Prop where
  length : cs.length = 1 ∨ cs.length = 2
  expand : ∃ op ∈ [[], ['>', '='], ['<', '=']], Token.expand s (op ++ word) = .ok cs

-- A group that holds what the words add, one after another.
def Gathers (s : Scheme) (words : List Text) (group : List (Constraint s)) : Prop :=
  ∃ parts, List.Forall₂ (Adds s) words parts ∧ group = parts.flatten

-- The group of a clause. Each word of the clause adds one constraint or two, and the group is empty
-- exactly if the clause is made of blanks and commas, with at least one comma.
structure Fills (s : Scheme) (clause : Text) (group : List (Constraint s)) : Prop where
  empty  : group = [] ↔ (∀ c ∈ clause, Text.isBlank c ∨ c = ',') ∧ ',' ∈ clause
  parts  : Gathers s (words clause) group
  length : (words clause).length ≤ group.length ∧ group.length ≤ 2 * (words clause).length

variable {s : Scheme} {op t word lower upper clause : Text} {ws ts us : List Text}
variable {cs front back group : List (Constraint s)}

theorem Adds.of_expand (ho : op ∈ [[], ['>', '='], ['<', '=']])
    (h : Token.expand s (op ++ word) = .ok cs) : Adds s word cs where
  length := (Token.expand_carrying s _ cs h).length
  expand := ⟨op, ho, h⟩

namespace Gathers

theorem append (hf : Gathers s ts front) (hb : Gathers s us back) :
    Gathers s (ts ++ us) (front ++ back) := by
  have ⟨xs, hx, hf⟩ := hf
  have ⟨ys, hy, hb⟩ := hb
  exact ⟨xs ++ ys, List.rel_append hx hy, by rw [hf, hb, List.flatten_append]⟩

theorem singleton (h : Adds s word cs) : Gathers s [word] cs :=
  ⟨[cs], .cons h .nil, List.append_nil cs |>.symm⟩

theorem length (h : Gathers s ws group) :
    ws.length ≤ group.length ∧ group.length ≤ 2 * ws.length := by
  obtain ⟨parts, h, rfl⟩ := h
  induction h
  case nil => exact ⟨Nat.le_refl 0, Nat.le_refl 0⟩
  case cons h _ hi =>
    have := h.length
    simp only [List.flatten_cons, List.length_append, List.length_cons]
    omega

theorem group_eq_nil_iff (h : Gathers s ws group) : group = [] ↔ ws = [] := by
  have := h.length
  rw [← List.length_eq_zero_iff, ← List.length_eq_zero_iff]
  omega

-- Tokens that can be expanded are words without an operator in front.
theorem of_expand (h : Flat.expand s ts = .ok group) : Gathers s ts group := by
  have ⟨parts, h, hg⟩ := Flat.expand_eq_ok.mp h
  exact ⟨parts, h.imp fun _ _ => Adds.of_expand (.head _), hg⟩

end Gathers

theorem words_eq_runs (h : ['-'] ∉ Text.runs separates t) : words t = Text.runs separates t :=
  List.filter_eq_self.mpr fun word hw => by
    simpa using fun he : word = ['-'] => h (he ▸ hw)

theorem words_trim (t : Text) : words (Text.trim t) = words t := by
  rw [words, runs_trim, words]

theorem words_range (lower upper : Text) :
    words (lower ++ (hyphen ++ upper)) = words lower ++ words upper := by
  rw [words, runs_range, List.filter_append]
  rfl

theorem gathers_of_tokens (h : Flat.expand s (Text.runs separates t) = .ok group) :
    Gathers s (words t) group := by
  rw [words_eq_runs (Flat.hyphen_not_mem h)]
  exact .of_expand h

-- The operator of a bound does not stand alone, so it is read in front of the first word.
theorem gathers_of_side (ho : op ∈ [['>', '='], ['<', '=']])
    (h : Flat.expand s (Text.runs separates (op ++ t)) = .ok group) :
    Gathers s (words t) group := by
  have operator : ∀ op ∈ [['>', '='], ['<', '=']], op ∈ Token.operators ∧ op ≠ [] := by decide
  have ⟨hm, hn⟩ := operator op ho
  cases Text.runs_prefixed hn (fun c hc => (Token.solid_operator hm c hc).1) t
  case inl hr =>
    have ⟨_, he⟩ := Flat.exists_expand_of_mem h hr
    exact absurd he (Token.expand_operator_alone hm)
  case inr hr =>
    obtain ⟨word, ws, ht, hr⟩ := hr
    rw [hr, ← List.singleton_append, Flat.expand_append_eq_ok, Flat.expand_singleton] at h
    obtain ⟨front, back, hf, hb, rfl⟩ := h
    have not_hyphen : ['-'] ∉ word :: ws := by
      intro hw
      cases hw
      case head => exact Token.expand_hyphen hm hf
      case tail hw => exact Flat.hyphen_not_mem hb hw
    rw [words_eq_runs (ht ▸ not_hyphen), ht]
    exact (Gathers.singleton <| .of_expand (.tail _ ho) hf).append (.of_expand hb)

namespace Reads

variable (h : Reads s clause group)
include h

theorem gathers : Gathers s (words clause) group := by
  cases h.single_or_pair
  case inl hs => exact gathers_of_tokens <| runs_trim clause ▸ (iff_of_single h.nonblank hs).mp h
  case inr hs =>
    obtain ⟨lower, upper, hs⟩ := hs
    have ht := Text.splitAround.eq_append_of_pair (by decide) hs
    have he := (iff_of_pair hs).mp h
    obtain ⟨front, back, hl, hu, rfl⟩ := Flat.expand_append_eq_ok.mp he
    rw [← words_trim, ht, words_range, ← words_trim lower, ← words_trim upper]
    exact (gathers_of_side (.head _) hl).append (gathers_of_side (.tail _ (.head _)) hu)

-- The operators of a range are never left out, so that only a list of tokens can come to nothing.
theorem group_eq_nil_iff : group = [] ↔ ∀ c ∈ clause, separates c := by
  cases h.single_or_pair
  case inl hs =>
    have he := (iff_of_single h.nonblank hs).mp h
    rw [runs_trim] at he
    exact (Gathers.of_expand he).group_eq_nil_iff.trans Text.runs_eq_nil_iff
  case inr hs =>
    obtain ⟨lower, upper, hs⟩ := hs
    have he := (iff_of_pair hs).mp h
    constructor
    case mp =>
      intro hg
      have hr := (Gathers.of_expand he).group_eq_nil_iff.mp hg
      have hr := Text.runs_eq_nil_iff.mp (List.append_eq_nil_iff.mp hr).1
      exact absurd (hr '>' (.head _)) (by decide)
    case mpr =>
      intro hc
      have hm : '-' ∈ Text.trim clause := by
        rw [Text.splitAround.eq_append_of_pair (by decide) hs]
        simp [hyphen]
      exact absurd (hc '-' ((Text.trim_isInfix clause).subset hm)) (by decide)

-- What is not blank about such a clause is a comma.
theorem comma_mem (hc : ∀ c ∈ clause, separates c) : ',' ∈ clause := by
  have ⟨c, rest, ht⟩ := List.exists_cons_of_ne_nil h.nonblank
  have hm : c ∈ clause := (Text.trim_isInfix clause).subset (ht ▸ .head _)
  have hb : Text.isBlank c = false := Text.head_trim_not_blank clause c (by rw [ht]; rfl)
  have hs := hc c hm
  rw [separates, hb, Bool.false_or, beq_iff_eq] at hs
  exact hs ▸ hm

theorem fills : Fills s clause group where
  parts  := h.gathers
  length := h.gathers.length
  empty  := by
    have separates_iff (c : Char) : Text.isBlank c ∨ c = ',' ↔ separates c := by simp [separates]
    simp only [separates_iff]
    exact h.group_eq_nil_iff.trans (and_iff_left_of_imp h.comma_mem).symm

end Reads
end Clause

namespace ConstraintSet

variable {s : Scheme} {expression : Text} {set : ConstraintSet s}

-- Each clause fills a group of its own, and a group without any constraint makes
-- the set accept whatever it is asked about.
theorem parse_fills (h : parse s expression = .ok set) :
    List.Forall₂ (Clause.Fills s) (Flat.clauses expression) set.groups ∧
      ([] ∈ set.groups → ∀ candidate, set.check candidate) := by
  constructor
  case left => exact (parse_eq_ok.mp h).2.imp fun _ _ hr => hr.fills
  case right => exact fun hm candidate => List.any_eq_true.mpr ⟨[], hm, rfl⟩

-- A range whose upper side goes on, a clause without any word,
-- and a word that adds two constraints.
theorem parse_fills_comma :
    ∃ set, parse .semantic "1.1 - 2.x, !=1.5 || , || ^1".toList = .ok set ∧
      set.groups.map List.length = [3, 0, 2] ∧
      List.Forall₂ (Clause.Fills .semantic)
        (Flat.clauses "1.1 - 2.x, !=1.5 || , || ^1".toList) set.groups ∧
      ∀ candidate, set.check candidate := by
  have ⟨set, h, hl⟩ : ∃ set, parse .semantic "1.1 - 2.x, !=1.5 || , || ^1".toList = .ok set ∧
      decide (set.groups.map List.length = [3, 0, 2]) := exists_parse_iff_flat.mpr (by decide)
  have hl := of_decide_eq_true hl
  have hm : 0 ∈ set.groups.map List.length := hl ▸ .tail _ (.head _)
  have ⟨group, hm, hg⟩ := List.mem_map.mp hm
  have ⟨fills, accepts⟩ := parse_fills h
  exact ⟨set, h, hl, fills, accepts <| List.length_eq_zero_iff.mp hg ▸ hm⟩

end ConstraintSet
end VersionConstraints
