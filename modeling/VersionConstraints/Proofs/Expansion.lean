import VersionConstraints.Proofs.Body
import VersionConstraints.Proofs.FlatReading
import VersionConstraints.Proofs.Interval

namespace VersionConstraints

-- What it means that the order of a candidate against a bound is the one that is asked for.
def Operator.Relates : Operator → Precedence → Precedence → Prop
  | equal,          p, q => p = q
  | notEqual,       p, q => p ≠ q
  | greater,        p, q => q < p
  | greaterOrEqual, p, q => q ≤ p
  | less,           p, q => p < q
  | lessOrEqual,    p, q => p ≤ q

theorem Operator.mem_operators {operator : Text} {o : Operator} (h : ofText? operator = some o) :
    operator ∈ Token.operators ∧ operator ≠ ['^'] ∧ operator ≠ ['~'] := by
  unfold ofText? at h
  split at h
  case h_1 => decide
  case h_2 =>
    have ⟨_, _, hs, _⟩ := List.lookup_eq_some_iff.mp h
    have h : (operator, o) ∈ spellings := by simp [hs]
    simp only [spellings, List.mem_cons, Prod.mk.injEq, List.not_mem_nil, or_false] at h
    obtain h | h | h | h | h | h | h | h := h <;> rw [h.1] <;> decide

-- All that can stand in front of a body is a comparison, a caret or a tilde.
theorem Operator.exists_ofText? {operator : Text} (hm : operator ∈ Token.operators)
    (hc : operator ≠ ['^']) (ht : operator ≠ ['~']) : ∃ o, ofText? operator = some o := by
  have spelled : ∀ op ∈ Token.operators, op ≠ ['^'] → op ≠ ['~'] → ofText? op ≠ none := by decide
  exact Option.ne_none_iff_exists'.mp <| spelled operator hm hc ht

-- Whether an operator can stand in front of a wildcard with the given bounds. Those that need the
-- upper bound need it above the lower one.
def Operator.Closes : Operator → (lower upper : Precedence) → Prop
  | equal,          l, u => l < u
  | notEqual,       _, _ => False
  | greater,        l, u => l < u
  | greaterOrEqual, _, _ => True
  | less,           _, _ => True
  | lessOrEqual,    l, u => l < u

-- Where a candidate lies that an operator in front of a wildcard asks for.
def Operator.Spans : Operator → (lower upper candidate : Precedence) → Prop
  | equal,          l, u, r => l ≤ r ∧ r < u
  | notEqual,       l, u, r => r < l ∨ u ≤ r
  | greater,        _, u, r => u ≤ r
  | greaterOrEqual, l, _, r => l ≤ r
  | less,           l, _, r => r < l
  | lessOrEqual,    _, u, r => r < u

namespace Constraint

variable {s : Scheme} {c : Constraint s} {r : Precedence} {source : Text} {lower upper : Version s}
variable {part : Part} {cs : List (Constraint s)} {o : Operator}

theorem accepts_iff : c.accepts r ↔ c.operator.Relates r c.bound := by
  have hlt : r < c.bound.toPrecedence ↔ compare r c.bound.toPrecedence = .lt := .rfl
  have hle : r ≤ c.bound.toPrecedence ↔ (compare r c.bound.toPrecedence).isLE := .rfl
  have heq : r = c.bound.toPrecedence ↔ compare r c.bound.toPrecedence = .eq :=
    Std.LawfulEqOrd.compare_eq_iff_eq.symm
  rw [accepts]
  cases c.operator <;>
  simp only [Operator.Relates, Operator.accepts, heq, hlt, hle, ne_eq, ← not_le, ← not_lt] <;>
  cases compare r c.bound.toPrecedence <;> decide

-- A range can be closed where the bump goes up.
theorem ceiling_eq_ok :
    ceiling source lower part = .ok upper ↔
      (lower : Precedence) < lower.toPrecedence.bump part ∧ lower.bump part = upper := by
  change (if (lower : Precedence) < lower.toPrecedence.bump part then _ else _) = _ ↔ _
  split
  case isTrue h => simp [h]
  case isFalse h => simp only [h, false_and, reduceCtorEq]

theorem range_eq_ok :
    range source lower part = .ok cs ↔
      (lower : Precedence) < lower.toPrecedence.bump part ∧
        [⟨.greaterOrEqual, lower, source⟩, ⟨.less, lower.bump part, source⟩] = cs := by
  rw [range, bind_eq_ok]
  simp only [ceiling_eq_ok, pure_eq_ok]
  grind

-- Whether constraints could be read and all are met.
def Met (constraints : Except ConstraintError (List (Constraint s))) (r : Precedence) : Prop :=
  ∃ cs, constraints = .ok cs ∧ ∀ c ∈ cs, c.operator.Relates r c.bound

theorem met_pure : Met (pure cs) r ↔ ∀ c ∈ cs, c.operator.Relates r c.bound := by
  simp [Met, pure_eq_ok]

theorem met_bind {α : Type} {x : Except ConstraintError α}
    {f : α → Except ConstraintError (List (Constraint s))} :
    Met (x >>= f) r ↔ ∃ a, x = .ok a ∧ Met (f a) r := by
  simp only [Met, bind_eq_ok]
  grind

theorem met_range :
    Met (range source lower part) r ↔
      Operator.equal.Closes lower (lower.toPrecedence.bump part) ∧
        Operator.equal.Spans lower (lower.toPrecedence.bump part) r := by
  simp only [range, met_bind, met_pure, ceiling_eq_ok, List.forall_mem_cons, List.not_mem_nil,
    false_implies, implies_true, and_true]
  constructor
  case mp =>
    rintro ⟨_, ⟨h, rfl⟩, hr⟩
    exact ⟨h, hr⟩
  case mpr =>
    rintro ⟨h, hr⟩
    exact ⟨_, ⟨h, rfl⟩, hr⟩

theorem met_wildcard :
    Met (wildcard source o lower part) r ↔
      o.Closes lower (lower.toPrecedence.bump part) ∧
        o.Spans lower (lower.toPrecedence.bump part) r := by
  cases o <;>
  simp only [wildcard, met_bind, met_pure, ceiling_eq_ok, List.forall_mem_singleton]
  case equal => exact met_range
  case notEqual => exact ⟨nofun, nofun⟩
  case greaterOrEqual | less => exact (and_iff_right trivial).symm
  case greater | lessOrEqual =>
    simp only [and_assoc, exists_and_left, exists_eq_left']
    exact .rfl

theorem wildcard_isOk :
    (∃ cs, wildcard source o lower part = .ok cs) ↔
      o.Closes lower (lower.toPrecedence.bump part) := by
  cases o <;>
  simp only [wildcard, range_eq_ok, bind_eq_ok, ceiling_eq_ok, pure_eq_ok, Operator.Closes]
  case notEqual => exact ⟨nofun, nofun⟩
  all_goals simp

end Constraint

namespace Token

variable {s : Scheme} {op body t : Text} {o : Operator} {b : Body} {v : Version s}
variable {cs : List (Constraint s)} {r : Precedence}

theorem not_inBody_of_mem (ho : op ∈ operators) : ∀ c ∈ op, inBody c = false := by
  have h : ∀ op ∈ operators, op.all (!inBody ·) := by decide
  simpa using h op ho

theorem toNat_of_isAlphanum {c : Char} (h : c.isAlphanum) : 48 ≤ c.toNat ∧ c.toNat ≤ 122 := by
  cases Bool.or_eq_true_iff.mp h
  case inr h =>
    have ⟨hl, hu⟩ := Char.isDigit_iff_toNat.mp h
    exact ⟨hl, Nat.le_trans hu (by decide)⟩
  case inl h =>
    cases Bool.or_eq_true_iff.mp h
    case inl h =>
      have ⟨hl, hu⟩ : 'A'.val ≤ c.val ∧ c.val ≤ 'Z'.val := of_decide_eq_true h
      exact ⟨Nat.le_trans (by decide) hl, Nat.le_trans hu (by decide)⟩
    case inr h =>
      have ⟨hl, hu⟩ := Bool.and_eq_true_iff.mp h
      have hl : 'a'.val ≤ c.val := of_decide_eq_true hl
      have hu : c.val ≤ 'z'.val := of_decide_eq_true hu
      exact ⟨Nat.le_trans (by decide) hl, Nat.le_trans hu (by decide)⟩

-- What a token is made of neither separates tokens nor clauses.
def Solid (t : Text) : Prop :=
  ∀ c ∈ t, Clause.separates c = false ∧ c ≠ '|'

theorem solid_of_inBody (hb : ∀ c ∈ body, inBody c) : Solid body := by
  intro c hc
  have hc := hb c hc
  simp only [inBody, Bool.or_eq_true, List.contains_iff_mem, List.mem_cons, List.not_mem_nil,
    or_false] at hc
  obtain hc | rfl | rfl | rfl | rfl | rfl := hc
  case inl =>
    have hr := toNat_of_isAlphanum hc
    constructor
    case left =>
      have hs : c ≠ ',' := by
        rintro rfl
        exact absurd hc (by decide)
      simp only [Clause.separates, Text.isBlank, Text.blanks, List.any_cons, List.any_nil]
      grind
    case right =>
      rintro rfl
      exact absurd hc (by decide)
  all_goals decide

theorem solid_append (ho : op ∈ operators) (hb : ∀ c ∈ body, inBody c) : Solid (op ++ body) := by
  have h : ∀ op ∈ operators, op.all fun c => !Clause.separates c && c != '|' := by decide
  intro c hc
  cases List.mem_append.mp hc
  case inl hc => simpa using List.all_eq_true.mp (h op ho) c hc
  case inr hc => exact solid_of_inBody hb c hc

theorem ofText?_append (ho : op ∈ operators) (hb : ∀ c ∈ body, inBody c) :
    ofText? (op ++ body) = if body = [] then none else some ⟨op, body⟩ := by
  have hop : ∀ c ∈ op, !inBody c := fun c hc => by simp [not_inBody_of_mem ho c hc]
  have hbody : ∀ c ∈ body.head?, (!inBody c) = false := fun c hc => by
    simp [hb c (List.mem_of_mem_head? hc)]
  have hall : body.all inBody := by simpa using hb
  rw [ofText?, Parts.takeWhile_eq hop hbody, Parts.dropWhile_eq hop hbody]
  by_cases hn : body = [] <;> simp [hn, ho, hall]

theorem bound_eq_ok : bound s t = .ok v ↔ Version.parse s t = .ok v :=
  mapError_eq_ok

section Body

variable (hb : ∀ c ∈ b.text, inBody c) (hn : b.text ≠ [])
include hb hn

-- A body without a wildcard is its own concrete text.
theorem expand_append (ho : op ∈ operators) (hf : b.front ≠ []) :
    expand s (op ++ b.text) =
      if op = ['^'] then do
        let lower ← bound s b.concrete
        Constraint.range (op ++ b.text) lower (Part.ofCaret lower b.front.length)
      else if op = ['~'] then do
        let lower ← bound s b.concrete
        Constraint.range (op ++ b.text) lower (Part.ofWritten b.front.length)
      else
        match Operator.ofText? op with
        | none => throw (.invalidOperator op)
        | some o => (do
          let lower ← bound s b.concrete
          if b.back = [] then return [⟨o, lower, op ++ b.text⟩]
          else Constraint.wildcard (op ++ b.text) o lower (Part.ofWritten b.front.length)) := by
  have hz : b.front.length ≠ 0 := mt List.eq_nil_of_length_eq_zero hf
  rw [expand, ofText?_append ho hb, if_neg hn]
  simp only [b.explicit_ofText, b.concrete_ofText, if_neg (b.not_isUniversal hf), if_neg hz,
    b.hasWildcard_ofText]
  by_cases hw : b.back = [] <;> cases Operator.ofText? op
  case pos.none | pos.some =>
    simp only [hw, ne_eq, not_true, if_false, if_true, b.concrete_of_back_nil hw]
  case neg.none | neg.some => simp only [hw, ne_eq, not_false_eq_true, if_false, if_true]

theorem expand_caret (hf : b.front ≠ []) :
    expand s (['^'] ++ b.text) = (do
      let lower ← bound s b.concrete
      Constraint.range (['^'] ++ b.text) lower (Part.ofCaret lower b.front.length)) :=
  expand_append hb hn (by decide) hf

theorem expand_tilde (hf : b.front ≠ []) :
    expand s (['~'] ++ b.text) = (do
      let lower ← bound s b.concrete
      Constraint.range (['~'] ++ b.text) lower (Part.ofWritten b.front.length)) :=
  expand_append hb hn (by decide) hf

theorem expand_operator (hf : b.front ≠ []) (ho : Operator.ofText? op = some o) :
    expand s (op ++ b.text) = (do
      let lower ← bound s b.concrete
      if b.back = [] then return [⟨o, lower, op ++ b.text⟩]
      else Constraint.wildcard (op ++ b.text) o lower (Part.ofWritten b.front.length)) := by
  have ⟨hm, hc, ht⟩ := Operator.mem_operators ho
  rw [expand_append hb hn hm hf, if_neg hc, if_neg ht, ho]

-- Without a segment in front of the wildcards only equality has a meaning.
theorem expand_of_front_nil (hf : b.front = []) (ho : op ∈ operators)
    (he : Operator.ofText? op ≠ some .equal) : expand s (op ++ b.text) ≠ .ok cs := by
  rw [expand, ofText?_append ho hb, if_neg hn]
  simp only [b.explicit_ofText, hf, if_neg he, List.length_nil, if_true]
  split <;> exact nofun

end Body

theorem body_ne_nil_of_expand (ho : op ∈ operators) (hb : ∀ c ∈ body, inBody c)
    (h : expand s (op ++ body) = .ok cs) : body ≠ [] := by
  intro hn
  rw [expand, ofText?_append ho hb, if_pos hn] at h
  contradiction

end Token

namespace ConstraintSet

variable {s : Scheme} {t expression : Text} {cs : List (Constraint s)} {r : Precedence}

def Parses (s : Scheme) (expression : Text) : Prop :=
  ∃ set, parse s expression = .ok set

instance : Decidable (Parses s expression) :=
  decidable_of_iff (parse s expression).isOk <| by
    rw [Parses]
    cases parse s expression <;> simp [Except.isOk, Except.toBool]

-- Reading flat needs no recursion on the length of a clause, so that it can be run.
theorem parses_iff_flat : Parses s expression ↔ (Flat.parse s expression).isOk := by
  rw [Parses, parse_eq_flat]
  cases Flat.parse s expression <;> simp [Except.isOk, Except.toBool]

theorem exists_parse_iff_flat {p : ConstraintSet s → Bool} :
    (∃ set, parse s expression = .ok set ∧ p set) ↔ (Flat.parse s expression).toOption.any p := by
  rw [parse_eq_flat]
  cases Flat.parse s expression <;> simp [Except.toOption]

-- Whether an expression can be read and accepts a candidate, which may be of any scheme.
def Accepts (s : Scheme) (expression : Text) (candidate : Precedence) : Prop :=
  ∃ set, parse s expression = .ok set ∧ set.check candidate

theorem accepts_iff_flat :
    Accepts s expression r ↔ (Flat.parse s expression).toOption.any (·.check r) :=
  exists_parse_iff_flat

instance : Decidable (Accepts s expression r) :=
  decidable_of_iff _ accepts_iff_flat.symm

-- A token is an expression with one group.
theorem parse_token (hn : t ≠ []) (ht : Token.Solid t) :
    parse s t = (do return { groups := [← Token.expand s t], expression := t }) := by
  have hs : ∀ c ∈ t, Clause.separates c = false := fun c hc => (ht c hc).1
  have htrim : Text.trim t = t :=
    Text.trim_of_not_blank fun c hc => Clause.not_isBlank_of_not_separates (hs c hc)
  have hbars : Text.splitAround ['|', '|'] t = [t] :=
    Text.splitAround.eq_singleton fun h => (ht '|' (h.subset (.head _))).2 rfl
  have he : ¬ t.isEmpty := by simpa using hn
  have hg : group s t t = Token.expand s t := by
    rw [group, htrim, if_neg he, Clause.expand_token hs]
  rw [parse, htrim, if_neg he, hbars, List.mapM_cons, List.mapM_nil, hg]
  cases Token.expand s t <;> rfl

theorem parses_token (hn : t ≠ []) (ht : Token.Solid t) :
    Parses s t ↔ ∃ cs, Token.expand s t = .ok cs := by
  simp only [Parses, parse_token hn ht, bind_eq_ok, pure_eq_ok]
  grind

theorem accepts_token (hn : t ≠ []) (ht : Token.Solid t) :
    Accepts s t r ↔ Constraint.Met (Token.expand s t) r := by
  simp only [Accepts, parse_token hn ht, bind_eq_ok, pure_eq_ok, Constraint.Met,
    ← Constraint.accepts_iff]
  constructor
  case mp =>
    rintro ⟨_, ⟨cs, he, rfl⟩, h⟩
    exact ⟨cs, he, by simpa [check] using h⟩
  case mpr =>
    rintro ⟨cs, he, h⟩
    exact ⟨_, ⟨cs, he, rfl⟩, by simpa [check] using h⟩

end ConstraintSet
end VersionConstraints
