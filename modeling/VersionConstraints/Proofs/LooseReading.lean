import VersionConstraints.Proofs.Precedence
import VersionConstraints.Proofs.Shape

namespace VersionConstraints

namespace Segment

-- Whether a digit run stands for a number above the largest segment.
def overflows (digits : Text) : Bool :=
  largest.toNat < Decimal.value digits

variable {digits : Text}

theorem ofDigits_of_overflows (h : overflows digits) :
    ofDigits digits = .error (.segmentOverflow digits) := by
  have h : ¬ Decimal.value digits < UInt64.size := Nat.not_lt.mpr (of_decide_eq_true h)
  rw [ofDigits, dif_neg h]

theorem ofDigits_of_not_overflows (h : overflows digits = false) :
    ∃ n, ofDigits digits = .ok n ∧ n.toNat = Decimal.value digits := by
  have h : Decimal.value digits < UInt64.size :=
    Nat.lt_succ_of_le <| Nat.le_of_not_lt <| of_decide_eq_false h
  exact ⟨_, dif_pos h, UInt64.toNat_ofNatLT⟩

end Segment

namespace Identifier

-- A number of several digits that starts with zero.
def Padded (i : Text) : Prop :=
  (∀ c ∈ i, c.isDigit) ∧ 1 < i.length ∧ i.head? = some '0'

variable {i : Text}

theorem leadingZero_iff : Decimal.leadingZero i ↔ 1 < i.length ∧ i.head? = some '0' := by
  match i with
  | [] | [_] => simp [Decimal.leadingZero]
  | c :: d :: i => by_cases hc : c = '0' <;> simp [Decimal.leadingZero, hc]

theorem canonical_iff : canonical i ↔ wellFormed i ∧ ¬ Padded i := by
  rw [Padded, ← leadingZero_iff, canonical, Bool.and_eq_true, Bool.not_eq_true', ← Bool.not_eq_true,
    Bool.and_eq_true, isNumber, List.all_eq_true]

end Identifier

theorem Prerelease.ofParts_of_padded {parts : List Text} {i : Text}
    (hw : ∀ i ∈ parts, Identifier.wellFormed i) (hi : i ∈ parts) (hp : Identifier.Padded i) :
    ofParts parts = .error (.leadingZero (Text.dotted parts)) := by
  have hn : ¬ ∀ part ∈ parts, Identifier.canonical part := by
    intro h
    exact (Identifier.canonical_iff.mp (h i hi)).2 hp
  have hf : fault parts = .leadingZero (Text.dotted parts) := by
    rw [fault]
    split
    case h_1 j hj => rw [if_pos (hw j <| List.mem_of_find?_eq_some hj)]
    case h_2 hj =>
      rw [List.find?_eq_none] at hj
      simp only [Bool.not_eq_true, Bool.not_eq_false'] at hj
      exact absurd hj hn
  rw [ofParts, Dotted.ofParts?, dif_neg hn, hf]

namespace Version

-- What the loose reading of a text comes to:
-- 1. a text without the shape of a version is invalid as a whole
-- 2. the leftmost number that is too large is out of range
-- 3. a prerelease with a number that starts with zero is refused as a whole
-- 4. all else is a version with these numbers, where those not written are zero
inductive Reads (s : Scheme) (t : Text) : Except VersionError (Version s) → Prop
  | unshaped (hs : ∀ p, ¬ Shape s t p) : Reads s t (.error (s.invalid t))
  | overflow {p : Parts} {run : Text} (hs : Shape s t p)
    (ho : p.core.find? Segment.overflows = some run) :
    Reads s t (.error (.segmentOverflow run))
  | leadingZero {p : Parts} {i : Text} (hs : Shape s t p)
    (ho : p.core.find? Segment.overflows = none) (hi : i ∈ p.prerelease)
    (hz : Identifier.Padded i) :
    Reads s t (.error (.leadingZero (Text.dotted p.prerelease)))
  | version {p : Parts} {v : Version s} (hs : Shape s t p)
    (ho : p.core.find? Segment.overflows = none) (hz : ∀ i ∈ p.prerelease, ¬ Identifier.Padded i)
    (hn : v.numbers = (p.core.map Decimal.value).rightpad 3 0)
    (hr : v.prerelease.parts = p.prerelease) (hl : v.metadata.parts = p.metadata)
    (ht : v.spelling = t) : Reads s t (.ok v)

variable {s : Scheme} {t : Text} {p : Parts} {core : List Text} {major minor patch : Segment}
variable {v : Version s} {result : Except VersionError (Version s)}

theorem segments_eq_ok (h : core.length ≤ 3) :
    (segment core[0]? = .ok major ∧ segment core[1]? = .ok minor ∧ segment core[2]? = .ok patch) ↔
      (core.map Decimal.value).rightpad 3 0 = [major.toNat, minor.toNat, patch.toNat] := by
  have zero_eq (n : Segment) : 0 = n ↔ 0 = n.toNat := UInt64.toNat_inj.symm
  match core, h with
  | [], _ | [_], _ | [_, _], _ | [_, _, _], _ =>
    simp [segment, Segment.ofDigits_eq_ok, zero_eq, List.replicate_succ]

theorem exists_segments (ho : core.find? Segment.overflows = none) :
    ∃ major minor patch, segment core[0]? = .ok major ∧ segment core[1]? = .ok minor ∧
      segment core[2]? = .ok patch := by
  have segment_ok (i : Nat) : ∃ n, segment core[i]? = .ok n := by
    match hi : core[i]? with
    | none => exact ⟨0, rfl⟩
    | some digits =>
      have hd := List.find?_eq_none.mp ho digits (List.mem_of_getElem? hi)
      have ⟨n, hn, _⟩ := Segment.ofDigits_of_not_overflows <| Bool.not_eq_true _ |>.mp hd
      exact ⟨n, hn⟩
  have ⟨major, hM⟩ := segment_ok 0
  have ⟨minor, hm⟩ := segment_ok 1
  have ⟨patch, hp⟩ := segment_ok 2
  exact ⟨major, minor, patch, hM, hm, hp⟩

-- The numbers are read from left to right.
theorem segments_of_overflow {α : Type} {run : Text}
    (next : Segment → Segment → Segment → Except VersionError α) (h : core.length ≤ 3)
    (ho : core.find? Segment.overflows = some run) :
    (do next (← segment core[0]?) (← segment core[1]?) (← segment core[2]?)) =
      .error (.segmentOverflow run) := by
  have ⟨hr, before, after, hc, hb⟩ := List.find?_eq_some_iff_append.mp ho
  have hr : segment (some run) = .error (.segmentOverflow run) := Segment.ofDigits_of_overflows hr
  have segment_ok {digits : Text} (hd : digits ∈ before) : ∃ n, segment (some digits) = .ok n := by
    have ⟨n, hn, _⟩ := Segment.ofDigits_of_not_overflows <| Bool.not_eq_true' _ |>.mp (hb digits hd)
    exact ⟨n, hn⟩
  match before with
  | [] => simp [hc, hr, bind, Except.bind]
  | [a] =>
    have ⟨_, ha⟩ := segment_ok (.head _)
    simp [hc, ha, hr, bind, Except.bind]
  | [a, b] =>
    have ⟨_, ha⟩ := segment_ok (.head _)
    have ⟨_, hb⟩ := segment_ok (.tail _ (.head _))
    simp [hc, ha, hb, hr, bind, Except.bind]
  | _ :: _ :: _ :: before =>
    simp only [hc, List.length_append, List.length_cons] at h
    omega

theorem parse_of_shape (h : Shape s t p) :
    parse s t = (do
      let major ← segment p.core[0]?
      let minor ← segment p.core[1]?
      let patch ← segment p.core[2]?
      let v ← ofParts major minor patch p.prerelease p.metadata
      return { v with spelling := t }) := by
  rw [parse, read, h.ofText_untagged]
  exact if_pos h.hasShape

theorem parse_of_reads (h : Reads s t result) : parse s t = result := by
  cases h
  case unshaped hs =>
    rw [parse, read]
    exact if_neg fun h => hs _ (Shape.of_hasShape h)
  case overflow p run hs ho =>
    rw [parse_of_shape hs]
    exact segments_of_overflow _ hs.core.length_le ho
  case leadingZero p i hs ho hi hz =>
    obtain ⟨major, minor, patch, hM, hm, hp⟩ := exists_segments ho
    have hr := Prerelease.ofParts_of_padded hs.prerelease hi hz
    rw [parse_of_shape hs, hM, hm, hp]
    simp [ofParts, hr, bind, Except.bind]
  case version p v hs ho hz hn hr hl ht =>
    obtain ⟨hM, hm, hp⟩ := (segments_eq_ok hs.core.length_le).mpr hn.symm
    apply read_eq_ok.mpr
    rw [hs.ofText_untagged]
    exact ⟨hs.hasShape, hM, hm, hp, hr, hl, ht⟩

theorem exists_reads (s : Scheme) (t : Text) : ∃ result, Reads s t result := by
  by_cases h : ∃ p, Shape s t p
  case neg => exact ⟨_, .unshaped (not_exists.mp h)⟩
  case pos =>
    have ⟨p, hs⟩ := h
    match ho : p.core.find? Segment.overflows with
    | some run => exact ⟨_, .overflow hs ho⟩
    | none =>
      by_cases hz : ∃ i ∈ p.prerelease, Identifier.Padded i
      case pos =>
        have ⟨i, hi, hz⟩ := hz
        exact ⟨_, .leadingZero hs ho hi hz⟩
      case neg =>
        have hz : ∀ i ∈ p.prerelease, ¬ Identifier.Padded i := fun i hi h => hz ⟨i, hi, h⟩
        have ⟨major, minor, patch, hn⟩ := exists_segments ho
        let prerelease : Prerelease :=
          ⟨p.prerelease, fun i hi => Identifier.canonical_iff.mpr ⟨hs.prerelease i hi, hz i hi⟩⟩
        let v : Version s :=
          { major, minor, patch, prerelease, metadata := ⟨p.metadata, hs.metadata⟩, spelling := t }
        exact ⟨.ok v, .version hs ho hz ((segments_eq_ok hs.core.length_le).mp hn).symm rfl rfl rfl⟩

theorem parse_eq_iff_reads : parse s t = result ↔ Reads s t result := by
  constructor
  case mp =>
    rintro rfl
    have ⟨result, h⟩ := exists_reads s t
    rwa [parse_of_reads h]
  case mpr => exact parse_of_reads

theorem exists_shape (h : parse s t = .ok v) : ∃ p, Shape s t p := by
  cases parse_eq_iff_reads.mp h
  case version p hs _ _ _ _ _ _ => exact ⟨p, hs⟩

-- The reader repeats checks that the shape of a text has already settled: no fault is left for a
-- prerelease but a zero in front, and none for metadata.
theorem error_of_parse {e : VersionError} (h : parse s t = .error e) :
    e = s.invalid t ∨ (∃ run, e = .segmentOverflow run) ∨ ∃ text, e = .leadingZero text := by
  cases parse_eq_iff_reads.mp h
  case unshaped => exact .inl rfl
  case overflow => exact .inr <| .inl ⟨_, rfl⟩
  case leadingZero => exact .inr <| .inr ⟨_, rfl⟩

-- The loose reading of semantic versions accepts its grammar and tells every failure apart. Which
-- of the errors it is follows from the text, and three of them it never is.
theorem parse_classifies (t : Text) :
    (∀ result, parse .semantic t = result ↔ Reads .semantic t result) ∧
    ∀ text, parse .semantic t ≠ .error (.invalidPrerelease text) ∧
      parse .semantic t ≠ .error (.invalidMetadata text) ∧
      parse .semantic t ≠ .error (.invalidCalendar text) := by
  refine ⟨fun _ => parse_eq_iff_reads, fun text => ⟨?_, ?_, ?_⟩⟩ <;>
  exact fun h => absurd (error_of_parse h) (by simp [Scheme.invalid])

end Version
end VersionConstraints
