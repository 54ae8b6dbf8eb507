import VersionConstraints.Proofs.Clauses

namespace VersionConstraints

namespace Clause

-- A text with a hyphen in it that has nothing but blanks next to it.
def Lone (t : Text) : Prop :=
  ∃ x y, t = x ++ '-' :: y ∧ (x = [] ∨ ∃ x', x = x' ++ [' ']) ∧ (y = [] ∨ ∃ y', y = ' ' :: y')

variable {op t u w x y p q : Text} {ps qs : List Text}

theorem mem_runs_append (hn : u ≠ []) (hu : ∀ c ∈ u, separates c = false)
    (hy : y = [] ∨ ∃ y', y = ' ' :: y') : u ∈ Text.runs separates (u ++ y) := by
  have hs : ∀ c ∈ y.head?, separates c := by
    obtain rfl | ⟨y', rfl⟩ := hy <;> simp [separates, Text.isBlank, Text.blanks]
  rw [Text.runs_solid_append hn hu hs]
  exact .head _

namespace Lone

theorem of_head (hy : Text.splitAround hyphen y = q :: qs) (h : ['-', ' '] <+: y) : Lone q := by
  have ⟨t, ht⟩ := h
  have ⟨r, rs, hr⟩ := Text.splitAround.exists_cons hyphen (' ' :: t)
  have hp := Text.splitAround.head_isPrefix (by decide) hr
  have hn : ¬ hyphen <+: '-' :: ' ' :: t := by simp [hyphen, List.cons_prefix_cons]
  change '-' :: ' ' :: t = y at ht
  rw [← ht, Text.splitAround.cons_of_not hn, hr, List.modifyHead_cons, List.cons.injEq] at hy
  refine ⟨[], r, hy.1.symm, .inl rfl, ?_⟩
  cases List.prefix_cons_iff.mp hp
  case inl hp => exact .inl hp
  case inr hp =>
    obtain ⟨r', hr', _⟩ := hp
    exact .inr ⟨r', hr'⟩

theorem of_getLast (h : [' ', '-'] <:+ p) : Lone p := by
  have ⟨t, ht⟩ := h
  exact ⟨t ++ [' '], [], by simp [← ht], .inr ⟨t, rfl⟩, .inl rfl⟩

theorem trim (h : Lone t) : Lone (Text.trim t) := by
  have ⟨x, y, ht, hx, hy⟩ := h
  refine ⟨_, _, ht ▸ Text.trim_append_cons rfl x y, ?before, ?after⟩
  case before =>
    have hs : x.dropWhile Text.isBlank <:+ x := List.dropWhile_suffix _
    cases hx
    case inl hx => exact .inl <| by rw [hx]; rfl
    case inr hx =>
      have ⟨x', hx⟩ := hx
      rw [hx, List.suffix_concat_iff] at hs
      exact hx ▸ hs.imp_right fun ⟨x', hx', _⟩ => ⟨x', hx'⟩
  case after =>
    have hp : y.rdropWhile Text.isBlank <+: y := List.rdropWhile_prefix _ _
    cases hy
    case inl hy => exact .inl <| by rw [hy]; rfl
    case inr hy =>
      have ⟨y', hy⟩ := hy
      rw [hy, List.prefix_cons_iff] at hp
      exact hy ▸ hp.imp_right fun ⟨y', hy', _⟩ => ⟨y', hy'⟩

-- The hyphen is a token of its own, or all of the body of the first token.
theorem mem_runs (h : Lone t) (ho : ∀ c ∈ op, separates c = false) :
    ['-'] ∈ Text.runs separates (op ++ t) ∨ op ++ ['-'] ∈ Text.runs separates (op ++ t) := by
  have ⟨x, y, ht, hx, hy⟩ := h
  cases hx
  case inl hx =>
    have hs : ∀ c ∈ op ++ ['-'], separates c = false := by
      intro c hc
      cases List.mem_append.mp hc
      case inl hc => exact ho c hc
      case inr hc => cases List.mem_singleton.mp hc; rfl
    have hm := mem_runs_append (by simp) hs hy
    rw [ht, hx]
    exact .inr <| by simpa using hm
  case inr hx =>
    have ⟨x', hx⟩ := hx
    have hs : ∀ c ∈ ['-'], separates c = false := List.forall_mem_singleton.mpr rfl
    have hm := mem_runs_append (by simp) hs hy
    rw [ht, hx, List.append_assoc, ← List.append_assoc, List.singleton_append,
      Text.runs_append_cons rfl]
    exact .inl <| List.mem_append_right _ hm

end Lone

-- A gap makes a new range only of a hyphen that was alone at its end of one of the texts.
theorem split_append (hx : Text.splitAround hyphen x = ps ++ [p])
    (hy : Text.splitAround hyphen y = q :: qs) (hp : ¬ Lone p) (hq : ¬ Lone q) (hw : Text.Gap w) :
    Text.splitAround hyphen (x ++ (w ++ y)) = ps ++ (p ++ (w ++ q)) :: qs := by
  have not_mem : '-' ∉ w := fun h => absurd (hw.blank _ h) (by decide)
  have gap : Text.splitAround hyphen w = [] ++ [w] :=
    Text.splitAround.eq_singleton fun h => not_mem <| h.subset (by decide)
  have behind : Text.splitAround hyphen (w ++ y) = (w ++ q) :: qs := by
    apply Text.splitAround.append (by decide) gap hy
    intro u hu hn h
    match u, hn with
    | [c], _ => exact hq <| .of_head hy (List.cons_prefix_cons.mp h).2
    | c :: d :: u, _ =>
      have hd : '-' = d := (List.cons_prefix_cons.mp (List.cons_prefix_cons.mp h).2).1
      exact not_mem <| hu.subset <| hd ▸ .tail _ (.head _)
  apply Text.splitAround.append (by decide) hx behind
  intro u hu hn h
  match u, hn with
  | [c], _ =>
    have ⟨d, w', hd⟩ := List.exists_cons_of_ne_nil hw.ne_nil
    have h := (List.cons_prefix_cons.mp h).2
    rw [hd] at h
    exact not_mem <| hd ▸ (List.cons_prefix_cons.mp h).1 ▸ .head _
  | [c, d], _ =>
    have ⟨hc, h⟩ := List.cons_prefix_cons.mp h
    have ⟨hd, _⟩ := List.cons_prefix_cons.mp h
    exact hp <| .of_getLast <| hc ▸ hd ▸ hu
  | c :: d :: e :: u, _ =>
    have h : hyphen <+: c :: d :: e :: u :=
      List.prefix_of_prefix_length_le h (List.prefix_append _ _) (by simp [hyphen])
    exact Text.splitAround.not_isInfix_of_mem (by decide)
      (hx ▸ List.mem_append_right _ (.head _)) <|
      h.isInfix.trans hu.isInfix

variable {s : Scheme} {a b clause lower upper : Text} {group group' : List (Constraint s)}

namespace Reads

theorem of_side (ho : op ∈ Token.operators)
    (h : Flat.expand s (Text.runs separates (op ++ Text.trim t)) = .ok group) :
    ¬ Lone t ∧ (op ≠ [] → Text.trim t ≠ []) := by
  have hs : ∀ c ∈ op, separates c = false := fun c hc => (Token.solid_operator ho c hc).1
  constructor
  case left =>
    intro hl
    cases hl.trim.mem_runs hs
    case inl hm => exact Flat.hyphen_not_mem h hm
    case inr hm =>
      have ⟨_, he⟩ := Flat.exists_expand_of_mem h hm
      exact Token.expand_hyphen ho he
  case right =>
    intro hn ht
    rw [ht, List.append_nil, Text.runs_eq_singleton hn hs, Flat.expand_singleton] at h
    exact Token.expand_operator_alone ho h

-- No side of a clause that can be read is blank, and none has a lone hyphen.
theorem side (h : Reads s clause group) :
    ∀ side ∈ Text.splitAround hyphen (Text.trim clause), ¬ Lone side ∧ Text.trim side ≠ [] := by
  intro side hm
  cases h.single_or_pair
  case inl hs =>
    have he :
        Flat.expand s (Text.runs separates ([] ++ Text.trim (Text.trim clause))) = .ok group := by
      rw [Text.trim_trim]
      exact (iff_of_single h.nonblank hs).mp h
    have ⟨lone, _⟩ := of_side (.head _) he
    rw [hs, List.mem_singleton] at hm
    exact hm ▸ ⟨lone, (Text.trim_trim clause).symm ▸ h.nonblank⟩
  case inr hs =>
    have ⟨lower, upper, hs⟩ := hs
    have ⟨_, _, hl, hu, _⟩ := Flat.expand_append_eq_ok.mp <| (iff_of_pair hs).mp h
    have ⟨lone_lower, blank_lower⟩ := of_side (by decide) hl
    have ⟨lone_upper, blank_upper⟩ := of_side (by decide) hu
    rw [hs, List.mem_cons, List.mem_singleton] at hm
    cases hm
    case inl hm => exact hm ▸ ⟨lone_lower, blank_lower (by decide)⟩
    case inr hm => exact hm ▸ ⟨lone_upper, blank_upper (by decide)⟩

end Reads

-- Two clauses in one.
def join (a b : Text) : Text :=
  a ++ ([' '] ++ b)

theorem runs_gap (ha : Text.trim a ≠ []) (hb : Text.trim b ≠ []) (hw : Text.Gap w) (op : Text) :
    Text.runs separates (op ++ Text.trim (a ++ (w ++ b))) =
      Text.runs separates (op ++ Text.trim a) ++ Text.runs separates (Text.trim b) := by
  have ⟨m, hm, ht⟩ := Text.trim_append ha hb hw
  rw [ht, ← List.append_assoc]
  exact Text.runs_gap (fun c hc => by simp [separates, hm.blank c hc]) hm.ne_nil _ _

-- The sides of a joined clause are those of the two, and the two at which they meet become one.
theorem Reads.split_join (ha : Reads s a group) (hb : Reads s b group')
    (hsa : Text.splitAround hyphen (Text.trim a) = ps ++ [p])
    (hsb : Text.splitAround hyphen (Text.trim b) = q :: qs) :
    ∃ w, Text.Gap w ∧ Text.splitAround hyphen (Text.trim (join a b)) =
      ps ++ (p ++ (w ++ q)) :: qs := by
  have ⟨w, hw, ht⟩ := Text.trim_append ha.nonblank hb.nonblank Text.gap_space
  have hp := (ha.side p <| hsa ▸ List.mem_append_right _ (.head _)).1
  have hq := (hb.side q <| hsb ▸ .head _).1
  exact ⟨w, hw, ht ▸ split_append hsa hsb hp hq hw⟩

theorem trim_join_ne_nil (ha : Text.trim a ≠ []) (hb : Text.trim b ≠ []) :
    Text.trim (join a b) ≠ [] := by
  have ⟨_, _, ht⟩ := Text.trim_append ha hb Text.gap_space
  rw [join, ht]
  exact List.append_ne_nil_of_left_ne_nil ha _

-- What follows a clause belongs to its last side, so that only tokens can be added to it.
theorem Reads.join (ha : Reads s a group) (hb : Reads s b group') (hn : ¬ hyphen <:+: b) :
    Reads s (join a b) (group ++ group') := by
  have hsb := split_of_not_isInfix hn
  have hb' := (iff_of_single hb.nonblank hsb).mp hb
  cases ha.single_or_pair
  case inl hsa =>
    have ⟨w, _, hs⟩ := Reads.split_join ha hb (List.nil_append [Text.trim a] ▸ hsa) hsb
    have ha' := (iff_of_single ha.nonblank hsa).mp ha
    apply (iff_of_single (trim_join_ne_nil ha.nonblank hb.nonblank) hs).mpr
    have hr := runs_gap ha.nonblank hb.nonblank Text.gap_space []
    exact hr ▸ Flat.expand_append_eq_ok.mpr ⟨_, _, ha', hb', rfl⟩
  case inr hsa =>
    have ⟨lower, upper, hsa⟩ := hsa
    have ⟨w, hw, hs⟩ := Reads.split_join ha hb (show _ = [lower] ++ [upper] from hsa) hsb
    have ha' := (iff_of_pair hsa).mp ha
    have hu := (ha.side upper <| hsa ▸ .tail _ (.head _)).2
    have hr := runs_gap hu ((Text.trim_trim b).symm ▸ hb.nonblank) hw ['<', '=']
    rw [iff_of_pair hs, hr, Text.trim_trim, ← List.append_assoc]
    exact Flat.expand_append_eq_ok.mpr ⟨_, _, ha', hb', rfl⟩

-- In front of a range, a clause becomes the beginning of its lower side: the operator of the lower
-- bound goes to the first token there is, and the lower bound itself is a token like any other.
theorem Reads.join_range_iff (ha : Reads s a group) (hb : Reads s b group') (hn : ¬ hyphen <:+: a)
    (hsb : Text.splitAround hyphen (Text.trim b) = [lower, upper]) {all : List (Constraint s)} :
    Reads s (Clause.join a b) all ↔ ∃ front middle back, Reads s (['>', '='] ++ Text.trim a) front ∧
      Reads s lower middle ∧ Reads s (['<', '='] ++ Text.trim upper) back ∧
        all = front ++ middle ++ back := by
  have not_hyphen : ∀ side ∈ [lower, upper], ¬ hyphen <:+: side := fun _ h =>
    Text.splitAround.not_isInfix_of_mem (by decide) (hsb ▸ h)
  have hsa := split_of_not_isInfix hn
  have hl := (hb.side lower <| hsb ▸ .head _).2
  have ⟨w, hw, hs⟩ := Reads.split_join ha hb (List.nil_append [Text.trim a] ▸ hsa) hsb
  have hr := runs_gap ((Text.trim_trim a).symm ▸ ha.nonblank) hl hw ['>', '=']
  have front_iff (g : List (Constraint s)) : Reads s (['>', '='] ++ Text.trim a) g ↔ _ :=
    iff_of_operator (by decide) (by decide) hn
  have middle_iff (g : List (Constraint s)) : Reads s lower g ↔ _ :=
    iff_of_single hl <| split_of_not_isInfix <| not_hyphen lower (.head _)
  have back_iff (g : List (Constraint s)) : Reads s (['<', '='] ++ Text.trim upper) g ↔ _ :=
    iff_of_operator (by decide) (by decide) <| not_hyphen upper (.tail _ <| .head _)
  rw [iff_of_pair hs, hr, Text.trim_trim]
  simp only [Flat.expand_append_eq_ok, front_iff, middle_iff, back_iff]
  grind

end Clause

namespace ConstraintSet

open Clause (hyphen join)

variable {s : Scheme} {op a b t lower upper : Text} {r : Precedence}

theorem not_bars_append (ho : op ∈ Token.operators) (ht : ¬ ['|', '|'] <:+: t) :
    ¬ ['|', '|'] <:+: op ++ Text.trim t := fun h =>
  ht <| (Text.isInfix_append_right (fun hc => (Token.solid_operator ho _ hc).2 rfl) h).trans
    (Text.trim_isInfix t)

section Join

variable (ha : ¬ ['|', '|'] <:+: a) (hb : ¬ ['|', '|'] <:+: b)
include ha hb

theorem not_bars_join : ¬ ['|', '|'] <:+: join a b := by
  intro h
  cases Text.isInfix_of_append_cons (by decide) (by decide) h
  case inl h => exact ha h
  case inr h => exact hb h

variable (hpa : Parses s a) (hpb : Parses s b)
include hpa hpb

theorem join_tokens (hn : ¬ hyphen <:+: b) :
    Parses s (join a b) ∧ ∀ r, Accepts s (join a b) r ↔ Accepts s a r ∧ Accepts s b r := by
  have ⟨g, hg⟩ := (parses_clause ha).mp hpa
  have ⟨g', hg'⟩ := (parses_clause hb).mp hpb
  have hj := hg.join hg' hn
  have hbars := not_bars_join ha hb
  refine ⟨(parses_clause hbars).mpr ⟨_, hj⟩, fun r => ?_⟩
  rw [accepts_of_reads hbars hj, accepts_of_reads ha hg, accepts_of_reads hb hg',
    List.forall_mem_append]

theorem join_range (hn : ¬ hyphen <:+: a)
    (hs : Text.splitAround hyphen (Text.trim b) = [lower, upper]) :
    (Parses s (join a b) ↔ Parses s (['>', '='] ++ Text.trim a) ∧ Parses s lower ∧
      Parses s (['<', '='] ++ Text.trim upper)) ∧
    ∀ r, Accepts s (join a b) r ↔ Accepts s (['>', '='] ++ Text.trim a) r ∧ Accepts s lower r ∧
      Accepts s (['<', '='] ++ Text.trim upper) r := by
  have ⟨_, hg⟩ := (parses_clause ha).mp hpa
  have ⟨_, hg'⟩ := (parses_clause hb).mp hpb
  have hbars := not_bars_join ha hb
  have hfront : ¬ ['|', '|'] <:+: ['>', '='] ++ Text.trim a := not_bars_append (by decide) ha
  have side_bars {side : Text} (h : side ∈ [lower, upper]) : ¬ ['|', '|'] <:+: side := fun hi =>
    hb <| hi.trans <| (Text.splitAround.isInfix_of_mem (by decide) (hs ▸ h)).trans
      (Text.trim_isInfix b)
  have hmiddle := side_bars (.head _)
  have hback : ¬ ['|', '|'] <:+: ['<', '='] ++ Text.trim upper :=
    not_bars_append (by decide) <| side_bars (.tail _ <| .head _)
  have join_iff (all : List (Constraint s)) : Clause.Reads s (join a b) all ↔ _ :=
    hg.join_range_iff hg' hn hs
  constructor
  case left =>
    simp only [parses_clause, hbars, hfront, hmiddle, hback, not_false_eq_true, join_iff]
    grind
  case right =>
    intro r
    simp only [accepts_clause, hbars, hfront, hmiddle, hback, not_false_eq_true, join_iff]
    grind

end Join

-- What the place of a range does to a clause that is made of two.
structure Joined (s : Scheme) (a b : Text) : Prop where
  -- Behind a range there is room for tokens.
  tokens : ¬ hyphen <:+: b → Parses s (join a b) ∧
    ∀ r, Accepts s (join a b) r ↔ Accepts s a r ∧ Accepts s b r
  comm   : ¬ hyphen <:+: a → ¬ hyphen <:+: b → ∀ r, Accepts s (join b a) r ↔ Accepts s (join a b) r
  -- In front of a range there is none.
  range  : ¬ hyphen <:+: a → ∀ lower upper, Text.splitAround hyphen (Text.trim b) = [lower, upper] →
    (Parses s (join a b) ↔ Parses s (['>', '='] ++ Text.trim a) ∧ Parses s lower ∧
      Parses s (['<', '='] ++ Text.trim upper)) ∧
    ∀ r, Accepts s (join a b) r ↔ Accepts s (['>', '='] ++ Text.trim a) r ∧ Accepts s lower r ∧
      Accepts s (['<', '='] ++ Text.trim upper) r

theorem joined_of_parses (ha : ¬ ['|', '|'] <:+: a) (hb : ¬ ['|', '|'] <:+: b) (hpa : Parses s a)
    (hpb : Parses s b) : Joined s a b where
  tokens hn := join_tokens ha hb hpa hpb hn
  range hn _ _ hs := join_range ha hb hpa hpb hn hs
  comm hna hnb r := by
    have hab := (join_tokens ha hb hpa hpb hnb).2 r
    have hba := (join_tokens hb ha hpb hpa hna).2 r
    rw [hab, hba, and_comm]

-- A range with tokens behind it, a token behind a token, and a token in front of a range.
theorem joined_of_parses_range :
    (∀ r, Accepts .semantic (join "1.1 - 3,".toList ">=2, !=2.5.0".toList) r ↔
      Accepts .semantic "1.1 - 3,".toList r ∧ Accepts .semantic ">=2, !=2.5.0".toList r) ∧
    (∀ r, Accepts .semantic (join "<3".toList ">1".toList) r ↔
      Accepts .semantic (join ">1".toList "<3".toList) r) ∧
    ∀ r, Accepts .semantic (join "2".toList "1 - 3".toList) r ↔
      Accepts .semantic (['>', '='] ++ Text.trim ['2']) r ∧ Accepts .semantic ['1'] r ∧
        Accepts .semantic (['<', '='] ++ Text.trim ['3']) r := by
  have parses {t : Text} (h : (Flat.parse .semantic t).isOk) : Parses .semantic t :=
    parses_iff_flat.mpr h
  have bars {t : Text} (h : '|' ∉ t) : ¬ ['|', '|'] <:+: t := fun hi => h <| hi.subset (.head _)
  have hyphen {t : Text} (h : '-' ∉ t) : ¬ hyphen <:+: t :=
    fun hi => h <| hi.subset (.tail _ <| .head _)
  refine ⟨?tokens, ?comm, ?range⟩
  case tokens =>
    have h : Joined .semantic "1.1 - 3,".toList ">=2, !=2.5.0".toList :=
      joined_of_parses (bars (by decide)) (bars (by decide)) (parses (by decide))
        (parses (by decide))
    exact (h.tokens <| hyphen (by decide)).2
  case comm =>
    have h : Joined .semantic ">1".toList "<3".toList :=
      joined_of_parses (bars (by decide)) (bars (by decide)) (parses (by decide))
        (parses (by decide))
    exact h.comm (hyphen (by decide)) (hyphen (by decide))
  case range =>
    have h : Joined .semantic "2".toList "1 - 3".toList :=
      joined_of_parses (bars (by decide)) (bars (by decide)) (parses (by decide))
        (parses (by decide))
    exact (h.range (hyphen (by decide)) ['1'] ['3'] (by decide)).2

-- Not every clause with one range in it is met by what meets its parts. In front of the range, a
-- version becomes a lower bound, and the lower bound becomes a version.
theorem not_forall_join :
    ¬ ∀ s a b, ¬ ['|', '|'] <:+: a → ¬ ['|', '|'] <:+: b → Parses s a → Parses s b →
      (Text.splitAround hyphen (join a b)).length ≤ 2 →
      Parses s (join a b) ∧ ∀ r, Accepts s (join a b) r ↔ Accepts s a r ∧ Accepts s b r := by
  intro h
  have ⟨_, h⟩ := h .semantic "2".toList "1 - 3".toList (by decide) (by decide)
    (parses_iff_flat.mpr (by decide)) (parses_iff_flat.mpr (by decide)) (by decide)
  have h := (h ⟨2, 0, 0, Dotted.none⟩).mpr ⟨by decide, by decide⟩
  exact absurd h (by decide)

end ConstraintSet
end VersionConstraints
