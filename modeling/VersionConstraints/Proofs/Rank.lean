import VersionConstraints.Precedence
import VersionConstraints.Proofs.Decimal

namespace VersionConstraints

namespace Text

def bytes (t : Text) : List UInt8 :=
  t.flatMap String.utf8EncodeChar

variable {c d : Char} {s t : Text}

theorem bytes_cons (h : c.toNat < 128) : bytes (c :: t) = c.val.toUInt8 :: bytes t := by
  have hc : c.utf8Size = 1 := by
    simp only [Char.utf8Size, UInt32.le_iff_toNat_le]
    exact if_pos <| Nat.le_of_lt_succ h
  rw [bytes, List.flatMap_cons, String.utf8EncodeChar_eq_singleton hc]
  rfl

theorem toNat_byte (h : c.toNat < 128) : c.val.toUInt8.toNat = c.toNat := by
  have hc : c.val.toNat < 2 ^ 8 := Nat.lt_trans h (by decide)
  rw [UInt32.toNat_toUInt8, Nat.mod_eq_of_lt hc, Char.toNat]

theorem compare_byte (hc : c.toNat < 128) (hd : d.toNat < 128) :
    compare c.val.toUInt8 d.val.toUInt8 = compare c d := by
  have hlt : c.val.toUInt8 < d.val.toUInt8 ↔ c < d := by
    rw [UInt8.lt_iff_toNat_lt, toNat_byte hc, toNat_byte hd, Char.lt_def, UInt32.lt_iff_toNat_lt]
    rfl
  have heq : c.val.toUInt8 = d.val.toUInt8 ↔ c = d := by
    rw [← UInt8.toNat_inj, toNat_byte hc, toNat_byte hd, Char.toNat_inj]
  change compareOfLessAndEq _ _ = compareOfLessAndEq c d
  simp only [compareOfLessAndEq, hlt, heq]

-- One byte stands for each character of an identifier.
theorem compare_bytes (hs : ∀ c ∈ s, c.toNat < 128) (ht : ∀ c ∈ t, c.toNat < 128) :
    compare s.bytes t.bytes = compare s t := by
  induction s generalizing t <;> cases t
  case nil.nil => rfl
  case nil.cons d t => rw [bytes_cons (ht d (.head _))]; rfl
  case cons.nil c s _ => rw [bytes_cons (hs c (.head _))]; rfl
  case cons.cons c s hi d t =>
    have hc := hs c (.head _)
    have hd := ht d (.head _)
    rw [bytes_cons hc, bytes_cons hd, List.compare_cons_cons, List.compare_cons_cons,
      compare_byte hc hd, hi (fun c h => hs c (.tail _ h)) (fun c h => ht c (.tail _ h))]

end Text

-- What an identifier ranks by.
inductive Rank
  | number (value : Nat)
  | word (bytes : List UInt8)
deriving DecidableEq

namespace Rank

-- Every number ranks below every word. Numbers rank by value and words by byte.
def order : Rank → Rank → Ordering
  | number m, number n => compare m n
  | number _, word _   => .lt
  | word _,   number _ => .gt
  | word b,   word c   => compare b c

instance : Std.TransCmp order where
  eq_swap {q r} := by
    cases q <;> cases r
    case number.number => exact Std.OrientedOrd.eq_swap
    case word.word => exact Std.OrientedOrd.eq_swap
    all_goals rfl
  isLE_trans {q r s} hq hr := by
    cases q <;> cases r <;> cases s <;> simp only [order] at *
    case number.number.number => exact Std.TransOrd.isLE_trans hq hr
    case word.word.word => exact Std.TransOrd.isLE_trans hq hr
    all_goals first | rfl | contradiction

instance : Std.LawfulEqCmp order where
  compare_self {q} := by cases q <;> exact Std.ReflOrd.compare_self
  eq_of_compare {q r} h := by
    cases q <;> cases r <;> simp only [order] at h
    case number.number => exact congrArg number <| Std.LawfulEqOrd.eq_of_compare h
    case word.word => exact congrArg word <| Std.LawfulEqOrd.eq_of_compare h
    all_goals contradiction

def ofIdentifier (i : Text) : Rank :=
  if Identifier.isNumber i then number (Decimal.value i) else word i.bytes

end Rank

namespace Identifier

variable {i j : Text}

theorem isAlpha_ascii {c : Char} (h : c.isAlpha) : c.toNat < 128 := by
  cases Bool.or_eq_true_iff.mp h
  case inl h =>
    have h : c.val ≤ 'Z'.val := (of_decide_eq_true h).2
    exact Nat.lt_of_le_of_lt h (by decide)
  case inr h =>
    have h : c.val ≤ 'z'.val := of_decide_eq_true (Bool.and_eq_true_iff.mp h).2
    exact Nat.lt_of_le_of_lt h (by decide)

theorem isLetter_ascii {c : Char} (h : isLetter c) : c.toNat < 128 := by
  cases Bool.or_eq_true_iff.mp h
  case inr h => rw [beq_iff_eq.mp h]; decide
  case inl h =>
    cases Bool.or_eq_true_iff.mp h
    case inl h => exact isAlpha_ascii h
    case inr h => exact Nat.lt_of_le_of_lt (Char.isDigit_iff_toNat.mp h).2 (by decide)

theorem wellFormed_ascii (h : wellFormed i) : ∀ c ∈ i, c.toNat < 128 := by
  simp only [wellFormed, Bool.and_eq_true, List.all_eq_true] at h
  exact fun c hc => isLetter_ascii <| h.2 c hc

theorem isNumeral_of_canonical (h : canonical i) (hn : isNumber i) : Decimal.isNumeral i := by
  simp only [canonical, wellFormed, hn, Bool.and_eq_true, Bool.true_and] at h
  obtain ⟨⟨hi, _⟩, hz⟩ := h
  simp only [Decimal.isNumeral, Decimal.isRun, Bool.and_eq_true]
  exact ⟨⟨hi, hn⟩, hz⟩

-- The empty text is below every identifier, so that a list that ends first is the lower one.
theorem order_nil_left (h : wellFormed j) : order [] j = .lt := by
  simp [order, (ne_nil h).symm]

theorem order_nil_right (h : wellFormed i) : order i [] = .gt := by
  simp [order, ne_nil h]

theorem order_eq_rank (hi : wellFormed i) (hj : wellFormed j) :
    order i j = Rank.order (.ofIdentifier i) (.ofIdentifier j) := by
  by_cases h : i = j
  case pos =>
    subst h
    rw [order, if_pos rfl]
    exact Std.ReflCmp.compare_self.symm
  case neg =>
    have hb := Text.compare_bytes (wellFormed_ascii hi) (wellFormed_ascii hj)
    cases hni : isNumber i <;> cases hnj : isNumber j <;>
    simp only [order, h, ne_nil hi, ne_nil hj, significant?, hni, hnj, Rank.ofIdentifier,
      Rank.order, List.isEmpty_iff, if_false, if_true, Bool.false_eq_true]
    case false.false => exact hb.symm
    case true.true => exact Decimal.compare_significant hni hnj

-- Canonical identifiers are told apart by what they rank by: there is one numeral for each number.
theorem rank_inj (hi : canonical i) (hj : canonical j)
    (h : Rank.ofIdentifier i = Rank.ofIdentifier j) : i = j := by
  have hwi := wellFormed_of_canonical hi
  have hwj := wellFormed_of_canonical hj
  cases hni : isNumber i <;> cases hnj : isNumber j <;>
  simp only [Rank.ofIdentifier, hni, hnj, if_false, if_true, Bool.false_eq_true, Rank.number.injEq,
    Rank.word.injEq, reduceCtorEq] at h
  case false.false =>
    have hb := Text.compare_bytes (wellFormed_ascii hwi) (wellFormed_ascii hwj)
    rw [h, Std.ReflOrd.compare_self] at hb
    exact Std.LawfulEqOrd.eq_of_compare hb.symm
  case true.true =>
    exact Decimal.value_inj (isNumeral_of_canonical hi hni) (isNumeral_of_canonical hj hnj) h

end Identifier

namespace Prerelease

variable {is js : List Text}

theorem orderParts_eq_rank (hi : ∀ i ∈ is, Identifier.wellFormed i)
    (hj : ∀ j ∈ js, Identifier.wellFormed j) :
    orderParts is js =
      List.compareLex Rank.order (is.map Rank.ofIdentifier) (js.map Rank.ofIdentifier) := by
  induction is generalizing js <;> cases js
  case nil.nil => rfl
  case nil.cons j js =>
    simp [orderParts, Identifier.order_nil_left (hj j (.head _)), List.compareLex_nil_cons]
  case cons.nil i is _ =>
    simp [orderParts, Identifier.order_nil_right (hi i (.head _)), List.compareLex_cons_nil]
  case cons.cons i is h j js =>
    have h := h (fun i hm => hi i (.tail _ hm)) (fun j hm => hj j (.tail _ hm))
    have ho := Identifier.order_eq_rank (hi i (.head _)) (hj j (.head _))
    simp only [orderParts, List.zipWithAll_cons_cons, List.foldr_cons, Option.getD_some] at h ⊢
    rw [h, ho, List.map_cons, List.map_cons, List.compareLex_cons_cons]

theorem parts_inj (hi : ∀ i ∈ is, Identifier.canonical i) (hj : ∀ j ∈ js, Identifier.canonical j)
    (h : is.map Rank.ofIdentifier = js.map Rank.ofIdentifier) : is = js := by
  induction is generalizing js <;> cases js <;>
  simp only [List.map_nil, List.map_cons, List.cons.injEq, reduceCtorEq] at h
  case nil.nil => rfl
  case cons.cons i is hr j js =>
    have ⟨h, ht⟩ := h
    rw [Identifier.rank_inj (hi i (.head _)) (hj j (.head _)) h,
      hr (fun i hm => hi i (.tail _ hm)) (fun j hm => hj j (.tail _ hm)) ht]

-- What the identifiers of the written prerelease rank by, in order. A release has none.
def rank (p : Prerelease) : List Rank :=
  p.text.pieces.map Rank.ofIdentifier

-- A release is above every prerelease, and two prereleases compare as their identifiers do.
def compareRanks : List Rank → List Rank → Ordering
  | [],     []     => .eq
  | [],     _ :: _ => .gt
  | _ :: _, []     => .lt
  | p,      q      => List.compareLex Rank.order p q

variable {p q : Prerelease}

theorem rank_eq (p : Prerelease) : p.rank = p.parts.map Rank.ofIdentifier := by
  rw [rank, Dotted.pieces_text fun _ => Identifier.wellFormed_of_canonical]

theorem rank_inj (h : p.rank = q.rank) : p = q := by
  rw [rank_eq, rank_eq] at h
  exact Dotted.ext <| parts_inj p.valid q.valid h

theorem orderParts_eq (p q : Prerelease) :
    orderParts p.parts q.parts = List.compareLex Rank.order p.rank q.rank := by
  rw [rank_eq, rank_eq]
  apply orderParts_eq_rank
  case hi => exact fun i h => Identifier.wellFormed_of_canonical (p.valid i h)
  case hj => exact fun j h => Identifier.wellFormed_of_canonical (q.valid j h)

theorem order_eq_compareRanks (p q : Prerelease) : order p q = compareRanks p.rank q.rank := by
  change (compare p.isAbsent q.isAbsent).then (orderParts p.parts q.parts) = _
  rw [orderParts_eq, rank_eq, rank_eq, Dotted.isAbsent, Dotted.isAbsent]
  cases p.parts <;> cases q.parts <;> rfl

instance : Std.TransCmp order :=
  have lex : Std.TransCmp (List.compareLex Rank.order) := inferInstance
  have : Std.TransCmp fun p q : Prerelease => orderParts p.parts q.parts := {
    eq_swap := by
      simp only [orderParts_eq]
      exact lex.eq_swap
    isLE_trans := by
      simp only [orderParts_eq]
      exact lex.isLE_trans
  }
  inferInstanceAs (Std.TransCmp (compareLex _ _))

instance : Std.LawfulEqCmp order where
  compare_self := (inferInstance : Std.ReflCmp order).compare_self
  eq_of_compare {p q} h := by
    simp only [order, compareLex_eq_eq, orderParts_eq] at h
    exact rank_inj <| Std.LawfulEqCmp.eq_of_compare h.2

end Prerelease
end VersionConstraints
