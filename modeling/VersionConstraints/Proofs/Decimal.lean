import Mathlib.Algebra.Group.Nat.Defs
import VersionConstraints.Text.Decimal

namespace VersionConstraints.Decimal

variable {c d : Char} {s t : Text}

def digit (c : Char) : Nat :=
  c.toNat - '0'.toNat

theorem digit_lt (h : c.isDigit) : digit c < 10 := by
  have ⟨_, h⟩ := Char.isDigit_iff_toNat.mp h
  simp only [digit, Char.reduceToNat] at *
  omega

theorem digit_pos (h : c.isDigit) (hz : c ≠ '0') : 0 < digit c := by
  have ⟨h, _⟩ := Char.isDigit_iff_toNat.mp h
  have := mt Char.toNat_inj.mp hz
  simp only [digit, Char.reduceToNat] at *
  omega

-- Characters rank by code point, so that digits rank by what they stand for.
theorem digit_lt_iff (hc : c.isDigit) (hd : d.isDigit) : digit c < digit d ↔ c < d := by
  have ⟨_, _⟩ := Char.isDigit_iff_toNat.mp hc
  have ⟨_, _⟩ := Char.isDigit_iff_toNat.mp hd
  rw [Char.lt_def, UInt32.lt_iff_toNat_lt]
  change _ ↔ c.toNat < d.toNat
  simp only [digit, Char.reduceToNat] at *
  omega

theorem digit_inj (hc : c.isDigit) (hd : d.isDigit) : digit c = digit d ↔ c = d := by
  have ⟨_, _⟩ := Char.isDigit_iff_toNat.mp hc
  have ⟨_, _⟩ := Char.isDigit_iff_toNat.mp hd
  rw [← Char.toNat_inj]
  simp only [digit, Char.reduceToNat] at *
  omega

theorem value_cons : value (c :: t) = digit c * 10 ^ t.length + value t := by
  rw [value, Nat.ofDigitChars_cons, Nat.ofDigitChars_eq_ofDigitChars_zero, value, digit]
  simp [Nat.mul_comm]

theorem value_lt (h : t.all Char.isDigit) : value t < 10 ^ t.length := by
  induction t
  case nil => decide
  case cons c t hi =>
    simp only [List.all_cons, Bool.and_eq_true] at h
    have := hi h.2
    have : digit c * 10 ^ t.length ≤ 9 * 10 ^ t.length :=
      Nat.mul_le_mul_right _ (Nat.le_of_lt_succ (digit_lt h.1))
    rw [value_cons, List.length_cons, Nat.pow_succ]
    omega

theorem le_value (h : c.isDigit) (hz : c ≠ '0') : 10 ^ t.length ≤ value (c :: t) := by
  have := Nat.le_mul_of_pos_left (10 ^ t.length) (digit_pos h hz)
  rw [value_cons]
  omega

-- Of two numbers with digits of the same weight in front, the digits in front decide.
theorem value_cons_lt (ht : t.all Char.isDigit) (hl : s.length = t.length) (h : digit d < digit c) :
    value (d :: t) < value (c :: s) := by
  have := value_lt ht
  have := Nat.mul_le_mul_right (10 ^ t.length) (Nat.succ_le_of_lt h)
  rw [Nat.succ_mul] at this
  rw [value_cons, value_cons, hl]
  omega

theorem compare_digit (hc : c.isDigit) (hd : d.isDigit) :
    compare c d = compare (digit c) (digit d) := by
  change compareOfLessAndEq c d = compareOfLessAndEq (digit c) (digit d)
  simp only [compareOfLessAndEq, digit_lt_iff hc hd, digit_inj hc hd]

theorem compare_value_cons (hs : s.all Char.isDigit) (ht : t.all Char.isDigit)
    (hl : s.length = t.length) :
    compare (value (c :: s)) (value (d :: t)) =
      (compare (digit c) (digit d)).then (compare (value s) (value t)) := by
  match Nat.lt_trichotomy (digit c) (digit d) with
  | .inl h =>
    rw [Nat.compare_eq_lt.mpr h, Nat.compare_eq_lt.mpr (value_cons_lt hs hl.symm h)]
    rfl
  | .inr (.inl h) =>
    rw [Nat.compare_eq_eq.mpr h, Ordering.then, value_cons, value_cons, h, hl]
    change compareOfLessAndEq _ _ = compareOfLessAndEq _ _
    simp only [compareOfLessAndEq, Nat.add_lt_add_iff_left, Nat.add_left_cancel_iff]
  | .inr (.inr h) =>
    rw [Nat.compare_eq_gt.mpr h, Nat.compare_eq_gt.mpr (value_cons_lt ht hl h)]
    rfl

-- Runs of one length rank as their values do.
theorem compare_of_length_eq (hs : s.all Char.isDigit) (ht : t.all Char.isDigit)
    (hl : s.length = t.length) : compare s t = compare (value s) (value t) := by
  induction s generalizing t
  case nil =>
    cases List.eq_nil_of_length_eq_zero hl.symm
    rfl
  case cons c s hi =>
    match t with
    | d :: t =>
      simp only [List.all_cons, Bool.and_eq_true, List.length_cons, Nat.add_right_cancel_iff] at *
      have ⟨hc, hs⟩ := hs
      have ⟨hd, ht⟩ := ht
      rw [List.compare_cons_cons, compare_value_cons hs ht hl, compare_digit hc hd, hi hs ht hl]

-- A longer run without zeros in front has the greater value.
theorem value_lt_of_length_lt (hs : s.all Char.isDigit) (ht : t.all Char.isDigit)
    (hz : t.head? ≠ some '0') (hl : s.length < t.length) : value s < value t := by
  match t with
  | d :: t =>
    simp only [List.all_cons, Bool.and_eq_true, List.length_cons] at ht hl
    calc value s
      _ < 10 ^ s.length    := value_lt hs
      _ ≤ 10 ^ t.length    := Nat.pow_le_pow_right (by decide) (Nat.le_of_lt_succ hl)
      _ ≤ value (d :: t)   := le_value ht.1 (by simpa using hz)

-- Without zeros in front, the number of digits decides, and then the first difference.
theorem compare_of_no_zeros (hs : s.all Char.isDigit) (ht : t.all Char.isDigit)
    (hzs : s.head? ≠ some '0') (hzt : t.head? ≠ some '0') :
    (compare s.length t.length).then (compare s t) = compare (value s) (value t) := by
  match Nat.lt_trichotomy s.length t.length with
  | .inl h =>
    rw [Nat.compare_eq_lt.mpr h, Nat.compare_eq_lt.mpr (value_lt_of_length_lt hs ht hzt h)]
    rfl
  | .inr (.inl h) => rw [Nat.compare_eq_eq.mpr h, Ordering.then, compare_of_length_eq hs ht h]
  | .inr (.inr h) =>
    rw [Nat.compare_eq_gt.mpr h, Nat.compare_eq_gt.mpr (value_lt_of_length_lt ht hs hzs h)]
    rfl

theorem all_significant (h : t.all Char.isDigit) : (significant t).all Char.isDigit := by
  simp only [List.all_eq_true] at *
  exact fun c hc => h c <| (List.dropWhile_sublist _).mem hc

theorem head_significant (t : Text) : (significant t).head? ≠ some '0' := by
  intro h
  have hn := List.head?_dropWhile_not (· == '0') t
  rw [significant] at h
  simp [h] at hn

theorem value_significant (t : Text) : value (significant t) = value t := by
  induction t
  case nil => rfl
  case cons c t hi =>
    by_cases hc : c = '0'
    case pos => simpa [significant, hc, value_cons, digit] using hi
    case neg => simp [significant, hc]

-- The digits that count rank by their number and then by the first difference, which is how the
-- values rank, however long the runs are.
theorem compare_significant (hs : s.all Char.isDigit) (ht : t.all Char.isDigit) :
    (compare (significant s).length (significant t).length).then
      (compare (significant s) (significant t)) = compare (value s) (value t) := by
  rw [compare_of_no_zeros (all_significant hs) (all_significant ht) (head_significant s)
    (head_significant t), value_significant, value_significant]

theorem all_of_isNumeral (h : isNumeral t) : t.all Char.isDigit := by
  simp only [isNumeral, isRun, Bool.and_eq_true] at h
  exact h.1.2

-- Only the zero itself is written with a digit that does not count.
theorem significant_of_isNumeral (h : isNumeral t) :
    (t = ['0'] ∧ significant t = []) ∨ (t ≠ [] ∧ significant t = t) := by
  match t with
  | [] => simp [isNumeral, isRun] at h
  | [c] => by_cases hc : c = '0' <;> simp [significant, hc]
  | c :: d :: t =>
    by_cases hc : c = '0'
    case pos => simp [isNumeral, leadingZero, hc] at h
    case neg => simp [significant, hc]

theorem significant_inj (hs : isNumeral s) (ht : isNumeral t) (h : significant s = significant t) :
    s = t := by
  cases significant_of_isNumeral hs <;> cases significant_of_isNumeral ht
  case inl.inl hs ht => rw [hs.1, ht.1]
  case inl.inr hs ht => exact absurd (ht.2 ▸ h ▸ hs.2) ht.1
  case inr.inl hs ht => exact absurd (hs.2 ▸ h ▸ ht.2) hs.1
  case inr.inr hs ht => rw [← hs.2, h, ht.2]

theorem value_inj (hs : isNumeral s) (ht : isNumeral t) (h : value s = value t) : s = t := by
  have hc := compare_significant (all_of_isNumeral hs) (all_of_isNumeral ht)
  rw [Nat.compare_eq_eq.mpr h, Ordering.then_eq_eq] at hc
  exact significant_inj hs ht <| Std.LawfulEqOrd.eq_of_compare hc.2

theorem isDigit_of_mem_digits {n : Nat} (h : c ∈ digits n) : c.isDigit :=
  Nat.isDigit_of_mem_toDigits (by decide) (by decide) h

theorem isDigit_of_mem_padded {n : Nat} (h : c ∈ padded n) : c.isDigit := by
  rw [padded] at h
  split at h
  case isFalse => exact isDigit_of_mem_digits h
  case isTrue =>
    cases List.mem_cons.mp h
    case inl h => rw [h]; rfl
    case inr h => exact isDigit_of_mem_digits h

theorem all_digits (n : Nat) : (digits n).all Char.isDigit :=
  List.all_eq_true.mpr fun _ => isDigit_of_mem_digits

theorem length_digits_le_iff {n k : Nat} (hk : 0 < k) : (digits n).length ≤ k ↔ n < 10 ^ k :=
  Nat.length_toDigits_le_iff (by decide) hk

theorem length_digits_eq_iff {n k : Nat} (hk : 0 < k) :
    (digits n).length = k + 1 ↔ 10 ^ k ≤ n ∧ n < 10 ^ (k + 1) := by
  have hle := length_digits_le_iff (n := n) hk
  have hle' := length_digits_le_iff (n := n) k.succ_pos
  omega

theorem length_padded_le_two_iff {n : Nat} : (padded n).length ≤ 2 ↔ n ≤ 99 := by
  rw [padded]
  split
  case isTrue hn =>
    have hl : (digits n).length ≤ 1 := (length_digits_le_iff (by decide)).mpr hn
    rw [List.length_cons]
    omega
  case isFalse => exact (length_digits_le_iff (by decide)).trans Nat.lt_succ_iff

theorem leadingZero_digits (n : Nat) : leadingZero (digits n) = false := by
  match h : digits n with
  | [] | [_] => simp [leadingZero]
  | c :: d :: t =>
    by_cases hc : c = '0'
    case neg => simp [leadingZero, hc]
    case pos =>
      -- A zero in front adds nothing to the value, so that one digit less would be enough.
      have hd := all_digits n
      rw [h, List.all_cons, Bool.and_eq_true] at hd
      have hn : n = value (d :: t) := by
        rw [← value_digits n, h, value_cons (c := c), hc]
        simp [digit]
      have hv := value_lt hd.2
      have hl := (length_digits_le_iff (Nat.succ_pos t.length)).mpr (hn ▸ hv)
      rw [h, List.length_cons, List.length_cons] at hl
      omega

theorem isNumeral_digits (n : Nat) : isNumeral (digits n) := by
  have hn : digits n ≠ [] := Nat.toDigits_ne_nil
  simp [isNumeral, isRun, hn, all_digits, leadingZero_digits]

theorem isRun_digits (n : Nat) : isRun (digits n) :=
  (Bool.and_eq_true_iff.mp <| isNumeral_digits n).1

theorem isRun_padded (n : Nat) : isRun (padded n) := by
  rw [padded]
  split
  case isTrue => simp [isRun, all_digits]
  case isFalse => exact isRun_digits n

-- A numeral is the one text for its value.
theorem digits_value (h : isNumeral t) : digits (value t) = t :=
  value_inj (isNumeral_digits _) h (value_digits _)

theorem digits_inj {m n : Nat} (h : digits m = digits n) : m = n := by
  rw [← value_digits m, h, value_digits]

theorem value_padded (n : Nat) : value (padded n) = n := by
  rw [padded]
  split
  case isTrue => simp [value_cons, digit, value_digits]
  case isFalse => exact value_digits n

theorem padded_inj {m n : Nat} (h : padded m = padded n) : m = n := by
  rw [← value_padded m, h, value_padded]

end VersionConstraints.Decimal
