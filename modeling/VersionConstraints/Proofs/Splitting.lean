import Mathlib.Data.List.DropRight
import VersionConstraints.Text.Blank
import VersionConstraints.Text.Separator

namespace VersionConstraints.Text

variable {sep a b m p q t x y : Text} {ps qs : List Text}

-- Nothing of an occurrence can lie in a text without the first character of the separator.
theorem isInfix_append_right {c : Char} {sep : Text} (ha : c ∉ a) (h : c :: sep <:+: a ++ t) :
    c :: sep <:+: t := by
  induction a
  case nil => exact h
  case cons d a hi =>
    have ⟨hd, ha⟩ := not_or.mp (mt List.mem_cons.mpr ha)
    rw [List.cons_append, List.infix_cons_iff, List.cons_prefix_cons] at h
    cases h
    case inl h => exact absurd h.1 hd
    case inr h => exact hi ha h

theorem isPrefix_of_append_cons {c : Char} (hc : c ∉ sep) (h : sep <+: x ++ c :: y) :
    sep <+: x := by
  cases List.prefix_or_prefix_of_prefix h (List.prefix_append x (c :: y))
  case inl h => exact h
  case inr hx =>
    have ⟨t, ht⟩ := hx
    rw [← ht, List.prefix_append_right_inj] at h
    match t with
    | [] => simp [← ht]
    | d :: t =>
      have hd := (List.cons_prefix_cons.mp h).1
      simp [← ht, hd] at hc

-- An occurrence does not reach over a character that the separator does not hold.
theorem isInfix_of_append_cons {c : Char} (hs : sep ≠ []) (hc : c ∉ sep)
    (h : sep <:+: x ++ c :: y) :
    sep <:+: x ∨ sep <:+: y := by
  induction x
  case nil =>
    cases List.infix_cons_iff.mp h
    case inl h =>
      have h : sep <+: [] := isPrefix_of_append_cons hc (List.nil_append (c :: y) ▸ h)
      exact absurd (List.prefix_nil.mp h) hs
    case inr h => exact .inr h
  case cons d x hi =>
    cases List.infix_cons_iff.mp h
    case inl h => exact .inl (isPrefix_of_append_cons hc h).isInfix
    case inr h => exact (hi h).imp_left List.infix_cons

namespace splitAround

theorem eq_singleton (h : ¬ sep <:+: t) : splitAround sep t = [t] := by
  induction t
  case nil => rfl
  case cons c t hi =>
    rw [List.infix_cons_iff, not_or] at h
    rw [cons_of_not h.1, hi h.2, List.modifyHead_cons]

theorem head_isPrefix (hs : sep ≠ []) {ps : List Text} (h : splitAround sep t = p :: ps) :
    p <+: t := by
  rw [← intercalate hs t, h]
  cases ps <;> simp [List.intercalate_cons_cons]

theorem isInfix_of_mem (hs : sep ≠ []) (h : p ∈ splitAround sep t) : p <:+: t := by
  have ⟨i, hi, hp⟩ := List.getElem_of_mem h
  rw [List.getElem_eq_getElem_intersperse_two_mul hi] at hp
  rw [← intercalate hs t]
  exact List.infix_of_mem_flatten <| hp ▸ List.getElem_mem _

-- An occurrence inside a piece would have been met when the text was read.
theorem not_isInfix_of_mem (hs : sep ≠ []) (h : p ∈ splitAround sep t) : ¬ sep <:+: p := by
  induction t using splitAround.induction hs generalizing p
  case nil =>
    rw [splitAround.nil, List.mem_singleton] at h
    simpa [h] using hs
  case sep_append t hi =>
    rw [sep_append hs, List.mem_cons] at h
    cases h
    case inl h => simpa [h] using hs
    case inr h => exact hi h
  case cons c t hc hi =>
    have ⟨q, qs, hq⟩ := splitAround.exists_cons sep t
    rw [cons_of_not hc, hq, List.modifyHead_cons, List.mem_cons] at h
    cases h
    case inr h => exact hi (hq ▸ .tail _ h)
    case inl h =>
      rw [h, List.infix_cons_iff, not_or]
      have hp := head_isPrefix hs hq
      exact ⟨fun h => hc <| h.trans <| List.prefix_cons_inj c |>.mpr hp, hi (hq ▸ .head _)⟩

theorem eq_of_singleton (hs : sep ≠ []) (h : splitAround sep t = [p]) : p = t := by
  rw [← intercalate hs t, h, List.intercalate_singleton]

theorem length_sep_le (hs : sep ≠ []) (h : splitAround sep t = q :: (ps ++ [p])) :
    sep.length ≤ t.length := by
  have ⟨r, rs, hr⟩ :=
    List.exists_cons_of_ne_nil <| List.append_ne_nil_of_right_ne_nil ps (List.cons_ne_nil p [])
  have ht := congrArg List.length <| intercalate hs t
  rw [h, hr, List.intercalate_cons_cons] at ht
  simp only [List.length_append] at ht
  omega

-- Two texts can be split one after the other if no occurrence starts in the last piece of the first
-- and reaches into the second. The pieces at which they meet become one.
theorem append (hs : sep ≠ []) (hx : splitAround sep x = ps ++ [p])
    (hy : splitAround sep y = q :: qs)
    (h : ∀ u, u <:+ p → u ≠ [] → ¬ sep <+: u ++ y) :
    splitAround sep (x ++ y) = ps ++ (p ++ q) :: qs := by
  induction x using splitAround.induction hs generalizing ps p
  case nil =>
    rw [nil] at hx
    cases ps <;> simp_all
  case sep_append x hi =>
    rw [sep_append hs] at hx
    rw [List.append_assoc, sep_append hs]
    cases ps
    case nil => exact absurd (List.cons.inj hx).2 (ne_nil sep x)
    case cons r ps =>
      have ⟨hr, hx⟩ := List.cons.inj hx
      rw [hi hx h, hr, List.cons_append]
  case cons c x hc hi =>
    have ⟨r, rs, hr⟩ := exists_cons sep x
    have hx' := hx
    rw [cons_of_not hc, hr, List.modifyHead_cons] at hx'
    cases ps
    case nil =>
      have hp := eq_of_singleton hs hx
      have ⟨hr', hrs⟩ := List.cons.inj hx'
      have hs : splitAround sep x = [] ++ [r] := by rw [hr, hrs, List.nil_append]
      have hi := hi hs fun u hu => h u <| hu.trans <| hr' ▸ List.suffix_cons c r
      have hc' : ¬ sep <+: c :: (x ++ y) := h (c :: x) (hp ▸ List.suffix_rfl) (List.cons_ne_nil c x)
      rw [List.cons_append, cons_of_not hc', hi, ← hr']
      rfl
    case cons d ps =>
      -- With an occurrence still ahead, what is left of the first text is as long as the separator.
      have hc' : ¬ sep <+: c :: (x ++ y) := fun hp =>
        hc <| List.prefix_of_prefix_length_le hp (List.prefix_append (c :: x) y)
          (length_sep_le hs hx)
      have ⟨hd, hrs⟩ := List.cons.inj hx'
      have hi := hi (show splitAround sep x = (r :: ps) ++ [p] by rw [hr, hrs]; rfl) h
      rw [List.cons_append, cons_of_not hc', hi, ← hd]
      rfl

theorem append_sep {c : Char} {sep : Text} (hc : c ∉ x) (y : Text) :
    splitAround (c :: sep) (x ++ (c :: sep ++ y)) = x :: splitAround (c :: sep) y := by
  have hx : splitAround (c :: sep) x = [] ++ [x] := eq_singleton fun h => hc <| h.subset (.head _)
  have hy := sep_append (List.cons_ne_nil c sep) y
  have ha := append (List.cons_ne_nil c sep) hx hy fun u hu hn hp => by
    have ⟨d, u', hd⟩ := List.exists_cons_of_ne_nil hn
    rw [hd, List.cons_append, List.cons_prefix_cons] at hp
    exact hc <| hu.subset <| hd ▸ hp.1 ▸ .head _
  rw [ha, List.append_nil, List.nil_append]

-- Between two texts, a doubled character is met where it stands, unless the first text has a single
-- one left at its end. Then it is met one place too early,
-- and what is left of it begins the next piece.
theorem append_twice (c : Char) (x y : Text) :
    splitAround [c, c] (x ++ ([c, c] ++ y)) = splitAround [c, c] x ++ splitAround [c, c] y ∨
      (∃ p ∈ splitAround [c, c] x, c ∈ p) ∧
        ∃ q ∈ (splitAround [c, c] (x ++ ([c, c] ++ y))).tail, q = [] ∨ c ∈ q := by
  have hs : [c, c] ≠ [] := List.cons_ne_nil _ _
  induction x using splitAround.induction hs
  case nil => exact .inl <| sep_append hs y
  case sep_append x hi =>
    rw [List.append_assoc, sep_append hs, sep_append hs]
    refine hi.imp (congrArg ([] :: ·)) fun ⟨⟨p, hp, hc⟩, q, hq, hb⟩ => ?_
    exact ⟨⟨p, .tail _ hp, hc⟩, q, List.mem_of_mem_tail hq, hb⟩
  case cons d x hd hi =>
    by_cases hx : c = d ∧ x = []
    case pos =>
      obtain ⟨rfl, rfl⟩ := hx
      have he : [c] ++ ([c, c] ++ y) = [c, c] ++ c :: y := rfl
      have ⟨q, qs, hq⟩ := exists_cons [c, c] (c :: y)
      have hb := List.prefix_cons_iff.mp <| head_isPrefix hs hq
      rw [cons_of_not hd, he, sep_append hs, List.tail_cons, hq]
      refine .inr ⟨⟨[c], .head _, .head _⟩, q, .head _, hb.imp_right ?_⟩
      rintro ⟨_, rfl, _⟩
      exact .head _
    case neg =>
      have hd' : ¬ [c, c] <+: d :: (x ++ ([c, c] ++ y)) := by
        intro h
        have hx : x ≠ [] := fun hn => hx ⟨(List.cons_prefix_cons.mp h).1, hn⟩
        have hl := List.length_pos_iff.mpr hx
        exact hd <| List.prefix_of_prefix_length_le h (List.prefix_append (d :: x) _)
          (Nat.succ_le_succ hl)
      have ⟨p, ps, hp⟩ := exists_cons [c, c] x
      have ⟨q, qs, hq⟩ := exists_cons [c, c] (x ++ ([c, c] ++ y))
      rw [List.cons_append, cons_of_not hd, cons_of_not hd', hp, hq]
      rw [hp, hq] at hi
      -- The first pieces grow by the same character, and the others stay.
      cases hi
      case inl hi =>
        rw [hi]
        exact .inl rfl
      case inr hi =>
        have ⟨⟨r, hr, hc⟩, hb⟩ := hi
        refine .inr ⟨?_, hb⟩
        cases hr
        case head => exact ⟨d :: p, .head _, .tail _ hc⟩
        case tail hr => exact ⟨r, .tail _ hr, hc⟩

end splitAround

theorem trim_eq_self (hh : ∀ c ∈ t.head?, isBlank c = false)
    (hl : ∀ c ∈ t.getLast?, isBlank c = false) :
    trim t = t := by
  have hd : t.dropWhile isBlank = t := by
    cases t <;> simp_all
  change (t.dropWhile isBlank).rdropWhile isBlank = t
  rw [hd, List.rdropWhile_eq_self_iff]
  intro h
  simp [hl _ (List.getLast_mem_getLast? h)]

theorem trim_of_not_blank (h : ∀ c ∈ t, isBlank c = false) : trim t = t :=
  trim_eq_self (fun c hc => h c <| List.mem_of_mem_head? hc)
    fun c hc => h c <| List.mem_of_mem_getLast? hc

theorem head_trim_not_blank (t : Text) : ∀ c ∈ (trim t).head?, isBlank c = false := by
  intro c hc
  have ⟨u, hu⟩ : trim t <+: t.dropWhile isBlank := List.rdropWhile_prefix _ _
  have hh : (t.dropWhile isBlank).head? = some c := by
    rw [← hu, List.head?_append]
    exact Option.or_eq_some_iff.mpr <| .inl hc
  have hd := List.head?_dropWhile_not isBlank t
  simpa [hh] using hd

theorem getLast_trim_not_blank (t : Text) : ∀ c ∈ (trim t).getLast?, isBlank c = false := by
  intro c hc
  have hn : trim t ≠ [] := by
    intro h
    simp [h] at hc
  rw [List.getLast?_eq_some_getLast hn, Option.mem_some] at hc
  rw [← hc, ← Bool.not_eq_true]
  exact List.rdropWhile_last_not isBlank _ hn

theorem trim_append_trim (ha : a ≠ []) (h : ∀ c ∈ a, isBlank c = false) (t : Text) :
    trim (a ++ trim t) = a ++ trim t := by
  apply trim_eq_self
  case hh =>
    intro c hc
    rw [List.head?_append_of_ne_nil a ha] at hc
    exact h c <| List.mem_of_mem_head? hc
  case hl =>
    intro c hc
    rw [List.getLast?_append, Option.mem_def, Option.or_eq_some_iff] at hc
    cases hc
    case inl hc => exact getLast_trim_not_blank t c hc
    case inr hc => exact h c <| List.mem_of_mem_getLast? hc.2

theorem trim_trim (t : Text) : trim (trim t) = trim t :=
  trim_eq_self (head_trim_not_blank t) (getLast_trim_not_blank t)

-- Blanks at the ends of a text do not count.
theorem trim_pad (hx : ∀ c ∈ x, isBlank c) (hy : ∀ c ∈ y, isBlank c) :
    trim (x ++ (t ++ y)) = trim t := by
  change ((x ++ (t ++ y)).dropWhile isBlank).rdropWhile isBlank =
    (t.dropWhile isBlank).rdropWhile isBlank
  rw [List.dropWhile_append_of_pos hx, List.dropWhile_append]
  split
  case isTrue h => rw [List.dropWhile_eq_nil_iff.mpr hy, List.isEmpty_iff.mp h]
  case isFalse h =>
    have hy : ∀ c ∈ y.reverse, isBlank c := by simpa using hy
    rw [List.rdropWhile, List.reverse_append, List.dropWhile_append_of_pos hy, List.rdropWhile]

theorem exists_pad (t : Text) :
    ∃ x y, (∀ c ∈ x, isBlank c) ∧ (∀ c ∈ y, isBlank c) ∧ t = x ++ (trim t ++ y) := by
  refine ⟨t.takeWhile isBlank, (t.dropWhile isBlank).rtakeWhile isBlank, ?_, ?_, ?_⟩
  · exact fun _ => List.mem_takeWhile_imp
  · exact fun _ => List.mem_rtakeWhile_imp
  · change t = _ ++ ((t.dropWhile isBlank).rdropWhile isBlank ++ _)
    rw [List.rdropWhile_append_rtakeWhile, List.takeWhile_append_dropWhile]

theorem mem_trim {c : Char} (hc : isBlank c = false) (h : c ∈ t) : c ∈ trim t := by
  have ⟨x, y, hx, hy, ht⟩ := exists_pad t
  rw [ht, List.mem_append, List.mem_append] at h
  obtain h | h | h := h
  case inl => simp [hx c h] at hc
  case inr.inl => exact h
  case inr.inr => simp [hy c h] at hc

theorem trim_eq_nil_iff : trim t = [] ↔ ∀ c ∈ t, isBlank c := by
  constructor
  case mp =>
    intro h
    have ⟨x, y, hx, hy, ht⟩ := exists_pad t
    rw [ht, h, List.nil_append]
    exact List.forall_mem_append.mpr ⟨hx, hy⟩
  case mpr =>
    intro h
    have ht := trim_pad (t := []) h <| List.forall_mem_nil _
    rwa [List.append_nil, List.append_nil] at ht

theorem dropWhile_append_cons {blank : Char → Bool} {c : Char} (hc : blank c = false) (x y : Text) :
    (x ++ c :: y).dropWhile blank = x.dropWhile blank ++ c :: y := by
  rw [List.dropWhile_append]
  split
  case isTrue hx => simp [List.isEmpty_iff.mp hx, hc]
  case isFalse => rfl

-- The two ends of a text are trimmed apart.
theorem trim_append_cons {c : Char} (hc : isBlank c = false) (x y : Text) :
    trim (x ++ c :: y) = x.dropWhile isBlank ++ c :: y.rdropWhile isBlank := by
  rw [trim, dropWhile_append_cons hc, List.reverse_append, List.reverse_cons, List.append_assoc,
    List.singleton_append, dropWhile_append_cons hc]
  simp [List.rdropWhile]

-- What stands between two texts that are read apart.
structure Gap (t : Text) : Prop where
  ne_nil : t ≠ []
  blank  : ∀ c ∈ t, isBlank c

theorem gap_space : Gap [' '] where
  ne_nil := List.cons_ne_nil ' ' []
  blank := List.forall_mem_singleton.mpr rfl

theorem trim_append (ha : trim a ≠ []) (hb : trim b ≠ []) (hm : Gap m) :
    ∃ w, Gap w ∧ trim (a ++ (m ++ b)) = trim a ++ (w ++ trim b) := by
  have ⟨x, a', hx, ha', hae⟩ := exists_pad a
  have ⟨b', y, hb', hy, hbe⟩ := exists_pad b
  have hw : Gap (a' ++ (m ++ b')) := ⟨by simp [hm.ne_nil], by grind [hm.blank]⟩
  have he : a ++ (m ++ b) = x ++ ((trim a ++ ((a' ++ (m ++ b')) ++ trim b)) ++ y) := by
    conv_lhs => rw [hae, hbe]
    simp only [List.append_assoc]
  refine ⟨_, hw, ?_⟩
  rw [he, trim_pad hx hy]
  apply trim_eq_self
  case hh =>
    rw [List.head?_append_of_ne_nil _ ha]
    exact head_trim_not_blank a
  case hl =>
    rw [List.getLast?_append_of_ne_nil _ (by simp [hb]), List.getLast?_append_of_ne_nil _ hb]
    exact getLast_trim_not_blank b

variable {separates : Char → Bool} {c : Char}

theorem exists_mem_runs (hc : separates c = false) (h : c ∈ t) : ∃ r ∈ runs separates t, c ∈ r := by
  have hm : c ∈ (t.splitOnP separates).flatten := by
    rw [flatten_splitOnP]
    exact List.mem_filter.mpr ⟨h, by simp [hc]⟩
  have ⟨r, hr, hc⟩ := List.mem_flatten.mp hm
  exact ⟨r, List.mem_filter.mpr ⟨hr, by simp [List.ne_nil_of_mem hc]⟩, hc⟩

theorem runs_eq_singleton (hn : t ≠ []) (h : ∀ c ∈ t, separates c = false) :
    runs separates t = [t] := by
  rw [runs, List.splitOnP_eq_singleton h]
  simpa using hn

theorem runs_append_cons (h : separates c) (s t : Text) :
    runs separates (s ++ c :: t) = runs separates s ++ runs separates t := by
  rw [runs, List.splitOnP_append_cons s t h, List.filter_append]
  rfl

-- A text without separators is a run if one follows, or nothing at all.
theorem runs_solid_append (hn : x ≠ []) (hx : ∀ c ∈ x, separates c = false)
    (ht : ∀ c ∈ t.head?, separates c) : runs separates (x ++ t) = x :: runs separates t := by
  match t with
  | [] =>
    rw [List.append_nil, runs_eq_singleton hn hx]
    rfl
  | c :: t =>
    have hc := ht c rfl
    have hr : runs separates (c :: t) = runs separates t := runs_append_cons hc [] t
    rw [runs_append_cons hc, runs_eq_singleton hn hx, hr]
    rfl

theorem runs_append_left (hx : ∀ c ∈ x, separates c) (t : Text) :
    runs separates (x ++ t) = runs separates t := by
  induction x
  case nil => rfl
  case cons c x hi =>
    have ⟨hc, hx⟩ := List.forall_mem_cons.mp hx
    have hr := runs_append_cons hc [] (x ++ t)
    exact hr.trans <| hi hx

theorem runs_append_right (hy : ∀ c ∈ y, separates c) (t : Text) :
    runs separates (t ++ y) = runs separates t := by
  match y with
  | [] => rw [List.append_nil]
  | c :: y =>
    have ⟨hc, hy⟩ := List.forall_mem_cons.mp hy
    have hr : runs separates y = [] := List.append_nil y ▸ runs_append_left hy []
    rw [runs_append_cons hc, hr, List.append_nil]

theorem runs_eq_nil_iff : runs separates t = [] ↔ ∀ c ∈ t, separates c := by
  constructor
  case mp =>
    intro h c hc
    by_contra hs
    have hs : separates c = false := by simpa using hs
    have ⟨r, hr, _⟩ := exists_mem_runs hs hc
    exact List.not_mem_nil <| h ▸ hr
  case mpr => exact fun h => List.append_nil t ▸ runs_append_left h []

-- What is put in front of a text without separators is a run of its own, or goes to the first run.
theorem runs_prefixed (hn : x ≠ []) (hx : ∀ c ∈ x, separates c = false) (t : Text) :
    x ∈ runs separates (x ++ t) ∨
      ∃ r rs, runs separates t = r :: rs ∧ runs separates (x ++ t) = (x ++ r) :: rs := by
  have hr : ∀ c ∈ t.takeWhile (!separates ·), separates c = false := fun c hc => by
    simpa using List.mem_takeWhile_imp hc
  have hs : ∀ c ∈ (t.dropWhile (!separates ·)).head?, separates c := by
    intro c hc
    have h := List.head?_dropWhile_not (!separates ·) t
    simpa [Option.mem_def.mp hc] using h
  rw [← List.takeWhile_append_dropWhile (p := (!separates ·)) (l := t)]
  generalize t.takeWhile (!separates ·) = r at hr
  generalize t.dropWhile (!separates ·) = u at hs
  by_cases h : r = []
  case pos =>
    rw [h, List.nil_append, runs_solid_append hn hx hs]
    exact .inl (.head _)
  case neg =>
    have hxr : ∀ c ∈ x ++ r, separates c = false := List.forall_mem_append.mpr ⟨hx, hr⟩
    refine .inr ⟨r, runs separates u, runs_solid_append h hr hs, ?_⟩
    rw [← List.append_assoc, runs_solid_append (List.append_ne_nil_of_left_ne_nil hn r) hxr hs]

theorem runs_gap (hm : ∀ c ∈ m, separates c) (hn : m ≠ []) (s t : Text) :
    runs separates (s ++ (m ++ t)) = runs separates s ++ runs separates t := by
  match m, hn with
  | c :: m, _ =>
    have ⟨hc, hm⟩ := List.forall_mem_cons.mp hm
    rw [List.cons_append, runs_append_cons hc, runs_append_left hm]

theorem runs_trim (h : ∀ c, isBlank c → separates c) (t : Text) :
    runs separates (trim t) = runs separates t := by
  have ⟨x, y, hx, hy, ht⟩ := exists_pad t
  conv_rhs => rw [ht]
  rw [runs_append_left fun c hc => h c (hx c hc), runs_append_right fun c hc => h c (hy c hc)]

theorem runs_intercalate (hc : separates c) (ts : List Text) :
    runs separates ([c].intercalate ts) = ts.flatMap (runs separates) := by
  induction ts
  case nil => rfl
  case cons t ts hi =>
    by_cases hn : ts = []
    case pos => rw [hn, List.intercalate_singleton, List.flatMap_singleton]
    case neg =>
      rw [List.intercalate_cons_of_ne_nil hn, List.append_assoc, List.singleton_append,
        runs_append_cons hc, hi, List.flatMap_cons]

-- Texts that hold no separator are found again when they are written with one between them.
theorem runs_intercalate_solid (hc : separates c) (hn : [] ∉ ps)
    (h : ∀ p ∈ ps, ∀ d ∈ p, separates d = false) : runs separates ([c].intercalate ps) = ps := by
  have hp : ∀ p ∈ ps, runs separates p = [p] :=
    fun p hm => runs_eq_singleton (fun he => hn <| he ▸ hm) (h p hm)
  rw [runs_intercalate hc, List.flatMap_congr hp, List.flatMap_singleton']

end VersionConstraints.Text
