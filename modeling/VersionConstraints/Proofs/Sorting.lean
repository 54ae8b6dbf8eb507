import VersionConstraints.Proofs.Interval
import VersionConstraints.Proofs.Outcomes
import VersionConstraints.Proofs.Reading
import VersionConstraints.Query

namespace VersionConstraints

section

variable {α : Type} (rank? : α → Option Precedence) (r : Precedence → Precedence → Prop)

-- Two entries whose ranks stand in the order given.
def Ranked (x y : α) : Prop :=
  ∃ p q, rank? x = some p ∧ rank? y = some q ∧ r p q

-- The entries that have a rank, in the order of their ranks. Those of one rank stay as they stood.
structure Sorts (xs ys : List α) : Prop where
  perm    : ys.Perm (xs.filter (rank? · |>.isSome))
  ordered : ys.Pairwise (Ranked rank? r)
  stable  : ∀ p, ys.filter (rank? · = some p) = xs.filter (rank? · = some p)

end

namespace Sorts

variable {α β : Type} {rank? : α → Option Precedence} {r : Precedence → Precedence → Prop}
variable {x y z : α} {p q : Precedence} {xs ys zs : List α}

theorem ranked_iff (hx : rank? x = some p) (hy : rank? y = some q) :
    Ranked rank? r x y ↔ r p q := by
  simp [Ranked, hx, hy]

theorem exists_rank (h : Sorts rank? r xs ys) (hy : y ∈ ys) : ∃ p, rank? y = some p :=
  Option.isSome_iff_exists.mp (List.mem_filter.mp <| h.perm.mem_iff.mp hy).2

theorem head_rank (hs : (y :: ys).Pairwise (Ranked rank? r)) (hy : rank? y = some p)
    (hz : rank? z = some q) (hm : z ∈ y :: ys) : p = q ∨ r p q := by
  cases hm
  case head => exact .inl <| Option.some.inj <| hy.symm.trans hz
  case tail hm => exact .inr <| (ranked_iff hy hz).mp <| List.rel_of_pairwise_cons hs hm

section Heads

variable (h : ∀ p, (y :: ys).filter (rank? · = some p) = (z :: zs).filter (rank? · = some p))
include h

theorem mem_iff_of_filter_eq (hx : rank? x = some p) : x ∈ y :: ys ↔ x ∈ z :: zs := by
  have hm : x ∈ (y :: ys).filter (rank? · = some p) ↔ x ∈ (z :: zs).filter (rank? · = some p) := by
    rw [h p]
  simpa only [List.mem_filter, hx, decide_true, and_true] using hm

-- Each of two lists starts with an entry of the lowest rank in both,
-- and with the first of that rank.
theorem head_eq [Std.Antisymm r] (hp : rank? y = some p) (hq : rank? z = some q)
    (hy : (y :: ys).Pairwise (Ranked rank? r)) (hz : (z :: zs).Pairwise (Ranked rank? r)) :
    y = z := by
  have hpq := head_rank hy hp hq <| (mem_iff_of_filter_eq h hq).mpr (.head _)
  have hqp := head_rank hz hq hp <| (mem_iff_of_filter_eq h hp).mp (.head _)
  have he : p = q := hpq.elim id fun hpq => hqp.elim Eq.symm (Std.Antisymm.antisymm p q hpq)
  have hh := h p
  rw [List.filter_cons_of_pos (by simpa using hp),
    List.filter_cons_of_pos (by simpa [he] using hq)] at hh
  exact (List.cons.inj hh).1

theorem filter_tail_eq (he : y = z) (p : Precedence) :
    ys.filter (rank? · = some p) = zs.filter (rank? · = some p) := by
  have ht := h p
  rw [he, List.filter_cons, List.filter_cons] at ht
  split at ht
  case isTrue => exact (List.cons.inj ht).2
  case isFalse => exact ht

end Heads

-- Lists in order are told by their entries of each rank: these say which entries there are,
-- and the ranks say where they stand.
theorem eq_of_filter_eq [Std.Antisymm r] (hys : ∀ y ∈ ys, ∃ p, rank? y = some p)
    (hzs : ∀ z ∈ zs, ∃ p, rank? z = some p) (hy : ys.Pairwise (Ranked rank? r))
    (hz : zs.Pairwise (Ranked rank? r))
    (h : ∀ p, ys.filter (rank? · = some p) = zs.filter (rank? · = some p)) : ys = zs := by
  induction ys generalizing zs <;> cases zs
  case nil.nil => rfl
  case nil.cons z zs =>
    have ⟨q, hq⟩ := hzs z (.head _)
    simpa [hq] using h q
  case cons.nil y ys _ =>
    have ⟨p, hp⟩ := hys y (.head _)
    simpa [hp] using h p
  case cons.cons y ys hi z zs =>
    have ⟨⟨p, hp⟩, hys⟩ := List.forall_mem_cons.mp hys
    have ⟨⟨q, hq⟩, hzs⟩ := List.forall_mem_cons.mp hzs
    have he := head_eq h hp hq hy hz
    rw [he, hi hys hzs hy.of_cons hz.of_cons (filter_tail_eq h he)]

theorem unique [Std.Antisymm r] (hy : Sorts rank? r xs ys) (hz : Sorts rank? r xs zs) : ys = zs :=
  eq_of_filter_eq (fun _ => hy.exists_rank) (fun _ => hz.exists_rank) hy.ordered hz.ordered
    fun p => (hy.stable p).trans (hz.stable p).symm

theorem reverse (h : Sorts rank? r xs ys) : Sorts rank? (flip r) xs.reverse ys.reverse where
  perm := by
    rw [List.filter_reverse]
    exact ys.reverse_perm.trans <| h.perm.trans (List.reverse_perm _).symm
  ordered := by
    rw [List.pairwise_reverse]
    exact h.ordered.imp fun ⟨p, q, hp, hq, hr⟩ => ⟨q, p, hq, hp, hr⟩
  stable p := by rw [List.filter_reverse, List.filter_reverse, h.stable]

-- What is sorted already stays as it is.
theorem self (h : Sorts rank? r xs ys) : Sorts rank? r ys ys where
  perm := by
    rw [List.filter_eq_self.mpr fun y hy => Option.isSome_iff_exists.mpr <| h.exists_rank hy]
  ordered := h.ordered
  stable _ := rfl

-- Entries are sorted by sorting what they are read as.
theorem map {key? : β → Option Precedence} {f : β → α} {vs ws : List β}
    (hv : vs.map f = xs.filter (rank? · |>.isSome)) (hr : ∀ v ∈ vs, key? v = rank? (f v))
    (h : Sorts key? r vs ws) : Sorts rank? r xs (ws.map f) := by
  have hs : vs.filter (key? · |>.isSome) = vs := by
    refine List.filter_eq_self.mpr fun v hm => ?_
    have hf : f v ∈ xs.filter (rank? · |>.isSome) := hv ▸ List.mem_map_of_mem hm
    exact hr v hm ▸ (List.mem_filter.mp hf).2
  have mem_of_mem : ∀ w ∈ ws, w ∈ vs := fun w hw => (List.mem_filter.mp <| h.perm.mem_iff.mp hw).1
  have filter_map {us : List β} (hu : ∀ u ∈ us, u ∈ vs) (p : Precedence) :
      (us.map f).filter (rank? · = some p) = (us.filter (key? · = some p)).map f := by
    rw [List.filter_map]
    exact congrArg _ <| List.filter_congr fun u hm => by simp [hr u (hu u hm)]
  constructor
  case perm => exact hv ▸ hs ▸ h.perm.map f
  case ordered =>
    refine List.pairwise_map.mpr <| h.ordered.imp_of_mem fun hv hw => ?_
    rw [Ranked, Ranked, hr _ (mem_of_mem _ hv), hr _ (mem_of_mem _ hw)]
    exact id
  case stable =>
    intro p
    rw [filter_map mem_of_mem, h.stable, ← filter_map fun _ => id, hv, List.filter_filter]
    refine List.filter_congr fun x _ => ?_
    cases rank? x <;> simp

end Sorts

section

variable {α : Type} {le : α → α → Bool} (trans : ∀ x y z, le x y → le y z → le x z)
variable (total : ∀ x y, le x y || le y x) (xs : List α)
include trans total

-- Entries among which any order would do stay in the order given.
theorem filter_mergeSort {q : α → Bool} (h : ∀ x y, q x → q y → le x y) :
    (xs.mergeSort le).filter q = xs.filter q := by
  have sorted : (xs.filter q).Pairwise (le · ·) :=
    List.pairwise_of_forall_mem_list fun x hx y hy =>
      h x y (List.mem_filter.mp hx).2 (List.mem_filter.mp hy).2
  have sublist := (List.sublist_mergeSort trans total sorted List.filter_sublist).filter q
  simp only [List.filter_filter, Bool.and_self] at sublist
  exact (sublist.eq_of_length ((List.mergeSort_perm xs le).filter q).length_eq.symm).symm

theorem mergeSort_sorts {rank : α → Precedence} {r : Precedence → Precedence → Prop} [Std.Refl r]
    (h : ∀ x y, le x y ↔ r (rank x) (rank y)) : Sorts (some ∘ rank) r xs (xs.mergeSort le) where
  perm := by simpa using List.mergeSort_perm xs le
  ordered := (List.pairwise_mergeSort trans total xs).imp fun hr => ⟨_, _, rfl, rfl, (h _ _).mp hr⟩
  stable p := by
    refine filter_mergeSort trans total xs fun x y hx hy => (h x y).mpr ?_
    have hx : rank x = p := by simpa using hx
    have hy : rank y = p := by simpa using hy
    exact hx ▸ hy ▸ refl_of r p

end

namespace Version

variable {s : Scheme} (vs : List (Version s))

theorem sort_sorts : Sorts (some ∘ toPrecedence) (· ≤ ·) vs (sort vs) := by
  apply mergeSort_sorts
  case h => exact fun _ _ => decide_eq_true_iff
  case trans =>
    exact fun _ _ _ h h' => decide_eq_true <| le_trans (of_decide_eq_true h) (of_decide_eq_true h')
  case total => simpa using fun v w : Version s => le_total v.toPrecedence w

theorem rsort_sorts : Sorts (some ∘ toPrecedence) (· ≥ ·) vs (rsort vs) := by
  apply mergeSort_sorts
  case h => exact fun _ _ => decide_eq_true_iff
  case trans =>
    exact fun _ _ _ h h' => decide_eq_true <| le_trans (of_decide_eq_true h') (of_decide_eq_true h)
  case total => simpa using fun v w : Version s => le_total w.toPrecedence v

end Version

namespace Query

-- What a text that can be read ranks by.
def rank? (t : Text) : Option Precedence :=
  (version? t).map (·.toPrecedence)

variable {t : Text} {v : Version .semantic} {texts : List Text}

theorem version?_eq_some : version? t = some v ↔ Version.parse .semantic t = .ok v := by
  rw [version?]
  cases Version.parse .semantic t <;> simp [Except.toOption]

theorem spelling_of_version? (h : version? t = some v) : v.spelling = t :=
  Version.spelling_of_read <| version?_eq_some.mp h

theorem map_spelling (texts : List Text) :
    (texts.filterMap version?).map (·.spelling) = texts.filter (rank? · |>.isSome) := by
  induction texts
  case nil => rfl
  case cons t texts hi =>
    cases h : version? t
    case none => simpa [rank?, h] using hi
    case some v => simpa [rank?, h, spelling_of_version? h] using hi

theorem sorts_texts {r : Precedence → Precedence → Prop} {ws : List (Version .semantic)}
    (h : Sorts (some ∘ Version.toPrecedence) r (texts.filterMap version?) ws) :
    Sorts rank? r texts (ws.map (·.spelling)) := by
  refine h.map (map_spelling texts) fun v hv => ?_
  have ⟨t, _, ht⟩ := List.mem_filterMap.mp hv
  rw [spelling_of_version? ht, rank?, ht]
  rfl

theorem sort_sorts (texts : List Text) : Sorts rank? (· ≤ ·) texts (sort texts) :=
  sorts_texts <| Version.sort_sorts _

theorem rsort_sorts (texts : List Text) : Sorts rank? (· ≥ ·) texts (rsort texts) :=
  sorts_texts <| Version.rsort_sorts _

end Query

namespace Command

variable {texts before after : List Text} {t : Text} {e : VersionError} {reverse : Bool}

theorem mapM_readVersion (h : ∀ t ∈ texts, (Query.rank? t).isSome) :
    texts.mapM (readVersion false .semantic) = .ok (texts.filterMap Query.version?) := by
  rw [mapM_eq_ok]
  induction texts
  case nil => exact .nil
  case cons t texts hi =>
    have ⟨ht, h⟩ := List.forall_mem_cons.mp h
    have ⟨v, hv⟩ : ∃ v, Query.version? t = some v := by
      simpa [Query.rank?, Option.isSome_iff_exists] using ht
    rw [List.filterMap_cons_some hv]
    exact .cons (mapError_eq_ok.mpr <| Query.version?_eq_some.mp hv) (hi h)

theorem report_sort (h : ∀ t ∈ texts, (Query.rank? t).isSome) :
    report ⟨.semantic, false⟩ (.sort texts reverse) =
      .ok (.sorted (if reverse then Query.rsort texts else Query.sort texts)) := by
  simp only [report, mapM_readVersion h]
  cases reverse <;> rfl

theorem report_sort_unread (hb : ∀ u ∈ before, (Query.rank? u).isSome)
    (ht : Version.parse .semantic t = .error e) :
    report ⟨.semantic, false⟩ (.sort (before ++ t :: after) reverse) =
      .error (.version .semantic t e) := by
  have readable : ¬ ∃ f, FailsFirst ⟨.semantic, false⟩ (before.map .version) f := by
    rw [exists_failsFirst]
    intro ⟨i, hi, f, hf⟩
    have ⟨u, hu, hi⟩ := List.mem_map.mp hi
    have ⟨_, he, _⟩ : (Input.version u).Fails ⟨.semantic, false⟩ f := hi ▸ hf
    have he : Version.parse .semantic u = _ := he
    have hu := hb u hu
    simp [Query.rank?, Query.version?, he, Except.toOption] at hu
  apply (Reads.report _ _).mpr
  rw [inputs, List.map_append, List.map_cons, failsFirst_append]
  exact .inr ⟨not_exists.mp readable, .head ⟨e, ht, rfl⟩⟩

end Command

namespace Query

variable {texts before after : List Text} {t : Text} {e : VersionError} {reverse : Bool}

section Run

variable {tool : Tool} {tree : FileTree} {directory : Path} {args : List Text} {options : Options}
variable (ha : tool.request args = .run (.sort texts reverse) options)
variable (hs : options.settings tool.decode tree directory = .ok ⟨.semantic, false⟩)
include ha hs

theorem run_sort (h : ∀ t ∈ texts, (rank? t).isSome) :
    let sorted := if reverse then rsort texts else sort texts
    let outcome := tool.run tree directory args
    outcome = .report (.sorted sorted) options.json ∧
      tool.output outcome =
        if options.json then tool.pretty (.array (sorted.map .string)) ++ ['\n']
        else sorted.flatMap (· ++ ['\n']) := by
  intro sorted outcome
  have hr : outcome = .report (.sorted sorted) options.json :=
    Tool.report_of_request ha hs <| Command.report_sort h
  exact ⟨hr, by rw [hr]; rfl⟩

theorem run_sort_unread (ht : texts = before ++ t :: after) (hb : ∀ u ∈ before, (rank? u).isSome)
    (he : Version.parse .semantic t = .error e) :
    let outcome := tool.run tree directory args
    outcome = .failure (.version .semantic t e) (options.verbosity ≠ 0) ∧
      tool.output outcome = [] := by
  intro outcome
  have hr : outcome = .failure (.version .semantic t e) (options.verbosity ≠ 0) := by
    rw [ht] at ha
    exact (Tool.run_of_request ha).trans <| Command.run_eq_failure hs <|
      Command.report_sort_unread hb he
  exact ⟨hr, by rw [hr]; rfl⟩

end Run

-- The texts that can be read are sorted by rank:
-- 1. upward and downward alike, those of one rank stay in the order given and no text is changed
-- 2. sorting downward is sorting upward from the other end
-- 3. what is sorted stays as it is
-- 4. the command writes these very texts if all can be read
-- 5. otherwise it fails at the first that can not, and writes nothing
theorem sort_stably (texts : List Text) :
    Sorts rank? (· ≤ ·) texts (sort texts) ∧ Sorts rank? (· ≥ ·) texts (rsort texts) ∧
    rsort texts = (sort texts.reverse).reverse ∧
    sort (sort texts) = sort texts ∧ rsort (rsort texts) = rsort texts ∧
    ∀ (tool : Tool) tree directory args reverse options,
      tool.request args = .run (.sort texts reverse) options →
      options.settings tool.decode tree directory = .ok ⟨.semantic, false⟩ →
        let outcome := tool.run tree directory args
        ((∀ t ∈ texts, (rank? t).isSome) →
          let sorted := if reverse then rsort texts else sort texts
          outcome = .report (.sorted sorted) options.json ∧
            tool.output outcome =
              if options.json then tool.pretty (.array (sorted.map .string)) ++ ['\n']
              else sorted.flatMap (· ++ ['\n'])) ∧
        ∀ before t after e, texts = before ++ t :: after → (∀ u ∈ before, (rank? u).isSome) →
          Version.parse .semantic t = .error e →
            outcome = .failure (.version .semantic t e) (options.verbosity ≠ 0) ∧
              tool.output outcome = [] := by
  have upward := sort_sorts texts
  have downward := rsort_sorts texts
  refine ⟨upward, downward, ?reverse, ?sort, ?rsort, fun _ _ _ _ _ _ ha hs => ⟨?read, ?unread⟩⟩
  case reverse =>
    have h := (sort_sorts texts.reverse).reverse
    rw [List.reverse_reverse] at h
    exact downward.unique h
  case sort => exact (sort_sorts (sort texts)).unique upward.self
  case rsort => exact (rsort_sorts (rsort texts)).unique downward.self
  case read => exact run_sort ha hs
  case unread => exact fun _ _ _ _ => run_sort_unread ha hs

-- Three spellings of one version, downward, and a text between others that is no version.
theorem sort_stably_ties :
    let tool := Tool.standard
    let texts := ["1.0.0+b".toList, "2".toList, "v1".toList, "1.0".toList]
    let unread := ["2".toList, "one".toList, "v1".toList]
    (∀ t ∈ texts, (rank? t).isSome) ∧
      tool.output (tool.run (.ofList [] []) [] ("sort".toList :: "-r".toList :: texts)) =
        (rsort texts).flatMap (· ++ ['\n']) ∧
      ∃ e, tool.run (.ofList [] []) [] ("sort".toList :: unread) =
        .failure (.version .semantic "one".toList e) false := by
  intro tool texts unread
  have ha : tool.request ("sort".toList :: "-r".toList :: texts) =
      .run (.sort texts true) ⟨none, false, false, false, 0⟩ := by decide
  have hu : tool.request ("sort".toList :: unread) =
      .run (.sort unread false) ⟨none, false, false, false, 0⟩ := by decide
  have h : ∀ t ∈ texts, (rank? t).isSome := by decide
  have written := (sort_stably texts).2.2.2.2.2 tool (.ofList [] []) [] _ true _ ha rfl
  have failed := (sort_stably unread).2.2.2.2.2 tool (.ofList [] []) [] _ false _ hu rfl
  have unread_one := failed.2 ["2".toList] "one".toList ["v1".toList] _ rfl (by decide) rfl
  exact ⟨h, (written.1 h).2, _, unread_one.1⟩

end Query
end VersionConstraints
