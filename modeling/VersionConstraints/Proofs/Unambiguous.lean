import VersionConstraints.Proofs.Agreement
import VersionConstraints.Proofs.Rendering
import VersionConstraints.Proofs.Tokens

namespace VersionConstraints

theorem Operator.symbol_inj {o o' : Operator} (h : o.symbol = o'.symbol) : o = o' := by
  have ho := congrArg ofText? h
  rwa [ofText?_symbol, ofText?_symbol, Option.some_inj] at ho

namespace Constraint

-- What is written around the words of a set, next to the bars between its groups.
def isMark (c : Char) : Bool :=
  [' ', '[', ']'].contains c

-- What has to be told from the text of a constraint.
def words {s : Scheme} (c : Constraint s) : List Text :=
  [c.operator.symbol, c.bound.text]

-- Two constraints that differ at most in the token they stand for
-- and in how their bounds are spelled.
structure Alike {s : Scheme} (c d : Constraint s) : Prop extends Agrees c d where
  metadata : c.bound.metadata = d.bound.metadata

variable {s : Scheme} {c d : Constraint s} {group group' : List (Constraint s)}

theorem plain_symbol (o : Operator) : ∀ c ∈ o.symbol, isMark c = false ∧ c ≠ '|' := by
  cases o <;> simp [Operator.symbol, isMark]

theorem plain_bound (c : Constraint s) : ∀ d ∈ c.bound.text, isMark d = false ∧ d ≠ '|' := by
  intro d hd
  have hb := c.bound.inBody_of_mem_text d hd
  constructor
  case left =>
    rw [isMark, ← Bool.not_eq_true, List.contains_iff_mem]
    intro hm
    simp only [List.mem_cons, List.not_mem_nil, or_false] at hm
    obtain rfl | rfl | rfl := hm <;> contradiction
  case right =>
    rintro rfl
    contradiction

theorem not_bar_text (c : Constraint s) : '|' ∉ c.text := by
  rw [text, List.mem_append, List.mem_cons]
  rintro (h | h | h)
  case inl => exact (plain_symbol _ _ h).2 rfl
  case inr.inl => contradiction
  case inr.inr => exact (c.plain_bound _ h).2 rfl

theorem runs_text (c : Constraint s) : Text.runs isMark c.text = c.words := by
  have symbol_ne_nil : c.operator.symbol ≠ [] := by cases c.operator <;> exact List.cons_ne_nil _ _
  have hs := Text.runs_eq_singleton symbol_ne_nil fun d hd => (plain_symbol _ d hd).1
  have hb := Text.runs_eq_singleton c.bound.text_ne_nil fun d hd => (c.plain_bound d hd).1
  rw [text, Text.runs_append_cons rfl, hs, hb, List.singleton_append, words]

theorem words_eq_iff : c.words = d.words ↔ c.Alike d := by
  simp only [words, List.cons.injEq, and_true, Version.text_eq_iff]
  constructor
  case mp => exact fun ⟨ho, hb, hm⟩ => ⟨⟨Operator.symbol_inj ho, hb⟩, hm⟩
  case mpr => exact fun h => ⟨congrArg _ h.operator, h.bound, h.metadata⟩

theorem Alike.text_eq (h : c.Alike d) : c.text = d.text := by
  rw [text, text, h.operator, Version.text_eq_iff.mpr ⟨h.bound, h.metadata⟩]

-- Each constraint has two words, so that it is known where the next one begins.
theorem flatMap_words_eq_iff :
    group.flatMap words = group'.flatMap words ↔ List.Forall₂ Alike group group' := by
  induction group generalizing group' <;> cases group'
  case nil.nil => simp
  case nil.cons | cons.nil => simp [words]
  case cons.cons c group hi d group' =>
    rw [List.forall₂_cons, ← words_eq_iff, ← hi]
    simp [words, and_assoc]

end Constraint

namespace ConstraintSet

open Constraint (isMark words Alike)

variable {s : Scheme} {a b : Text} {set set' : ConstraintSet s} {group group' : List (Constraint s)}

theorem not_bar_groupText (group : List (Constraint s)) : '|' ∉ groupText group := by
  have not_bar : '|' ∉ [' '].intercalate (group.map (·.text)) := by
    intro h
    cases Text.mem_intercalate h
    case inl h => exact absurd h (by decide)
    case inr h =>
      have ⟨t, ht, h⟩ := h
      have ⟨c, _, hc⟩ := List.mem_map.mp ht
      exact c.not_bar_text <| hc ▸ h
  unfold groupText
  split
  case h_1 c => exact c.not_bar_text
  case h_2 => simpa using not_bar

-- Brackets and spaces are put around the words of a group, and nothing else.
theorem runs_groupText (group : List (Constraint s)) :
    Text.runs isMark (groupText group) = group.flatMap words := by
  have runs_texts :
      Text.runs isMark ([' '].intercalate <| group.map (·.text)) = group.flatMap words := by
    rw [Text.runs_intercalate rfl, List.flatMap_map]
    exact congrArg group.flatMap <| funext Constraint.runs_text
  unfold groupText
  split
  case h_1 c => rw [c.runs_text, List.flatMap_singleton]
  case h_2 =>
    have hl : ∀ c ∈ ['['], isMark c := List.forall_mem_singleton.mpr rfl
    have hr : ∀ c ∈ [']'], isMark c := List.forall_mem_singleton.mpr rfl
    rw [← List.singleton_append, List.append_assoc, Text.runs_append_left hl,
      Text.runs_append_right hr, runs_texts]

theorem runs_clauses (hn : set.groups ≠ []) :
    (Flat.clauses set.text).map (Text.runs isMark) = set.groups.map (·.flatMap words) := by
  have hb : ∀ t ∈ set.groups.map groupText, '|' ∉ t := by
    intro t ht
    have ⟨group, _, hg⟩ := List.mem_map.mp ht
    exact hg ▸ not_bar_groupText group
  rw [text, Flat.runs_clauses rfl (by simpa using hn) hb, List.map_map]
  exact List.map_congr_left fun group _ => runs_groupText group

theorem groupText_eq_of_alike (h : List.Forall₂ Alike group group') :
    groupText group = groupText group' := by
  have ht := map_eq_map_iff_forall₂.mpr <| h.imp fun _ _ hc => hc.text_eq
  cases h
  case nil => rfl
  case cons hc h =>
    cases h
    case nil => exact hc.text_eq
    case cons => exact congrArg (fun texts => '[' :: [' '].intercalate texts ++ [']']) ht

theorem text_eq_iff_alike (hs : set.groups ≠ []) (hs' : set'.groups ≠ []) :
    set.text = set'.text ↔ List.Forall₂ (List.Forall₂ Alike) set.groups set'.groups := by
  constructor
  case mp =>
    intro h
    have hw := runs_clauses hs
    rw [h, runs_clauses hs', eq_comm, map_eq_map_iff_forall₂] at hw
    exact hw.imp fun _ _ => Constraint.flatMap_words_eq_iff.mp
  case mpr =>
    intro h
    have ht := map_eq_map_iff_forall₂.mpr <| h.imp fun _ _ => groupText_eq_of_alike
    rw [text, text, ht]

-- The text of a set tells what the set is:
-- 1. two sets have one text if they have the same groups of the same constraints, and only then
-- 2. two sets that have one text accept the same versions
theorem text_unambiguous (h : parse s a = .ok set) (h' : parse s b = .ok set') :
    (set.text = set'.text ↔ List.Forall₂ (List.Forall₂ Alike) set.groups set'.groups) ∧
    (set.text = set'.text → ∀ r, set.check r = set'.check r) := by
  have he := text_eq_iff_alike (groups_ne_nil h) (groups_ne_nil h')
  refine ⟨he, fun ht => check_eq_of_agrees ?_⟩
  exact (he.mp ht).imp fun _ _ hg => hg.imp fun _ _ hc => hc.toAgrees

-- A caret and the range that it stands for, a group without any constraint, and the bottom.
theorem text_unambiguous_caret :
    ∃ set set', parse .semantic "^v1.2-rc+b || , || =*".toList = .ok set ∧
      parse .semantic ">=1.2.0-rc+b,<2 || ,, || >=0-0".toList = .ok set' ∧ set.text = set'.text ∧
      List.Forall₂ (List.Forall₂ Alike) set.groups set'.groups ∧
        ∀ r, set.check r = set'.check r := by
  let text := "[>= 1.2.0-rc+b < 2.0.0] || [] || >= 0.0.0-0".toList
  have ⟨set, h, hs⟩ := exists_parse_iff_flat.mpr
    (show (Flat.parse .semantic "^v1.2-rc+b || , || =*".toList).toOption.any
      (·.text == text) by decide)
  have ⟨set', h', hs'⟩ := exists_parse_iff_flat.mpr
    (show (Flat.parse .semantic ">=1.2.0-rc+b,<2 || ,, || >=0-0".toList).toOption.any
      (·.text == text) by decide)
  have ht : set.text = set'.text := (beq_iff_eq.mp hs).trans (beq_iff_eq.mp hs').symm
  have hu := text_unambiguous h h'
  exact ⟨set, set', h, h', ht, hu.1.mp ht, hu.2 ht⟩

end ConstraintSet
end VersionConstraints
