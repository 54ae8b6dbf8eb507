import VersionConstraints.Proofs.LooseReading

namespace VersionConstraints

theorem Text.dotted_cons (piece : Text) (pieces : List Text) :
    dotted (piece :: pieces) = piece ++ pieces.flatMap ('.' :: ·) := by
  induction pieces generalizing piece
  case nil => simp [dotted]
  case cons next pieces hi =>
    have hn : ['.'].intercalate (next :: pieces) = _ := hi next
    rw [dotted, List.intercalate_cons_cons, hn, List.flatMap_cons]
    simp

theorem Decimal.isRun_iff {t : Text} : isRun t ↔ 0 < t.length ∧ ∀ c ∈ t, c.isDigit := by
  simp [isRun, List.length_pos_iff]

-- A calendar text, told from what is written one after another: a year of two or four digits, then
-- at most a month and a day, each of one or two digits behind a dot,
-- and then identifiers behind a hyphen.
structure Stamp (t first : Text) (rest ids : List Text) : Prop where
  text        : t = first ++ rest.flatMap ('.' :: ·) ++ Parts.mark '-' ids
  year        : (∀ c ∈ first, c.isDigit) ∧ (first.length = 2 ∨ first.length = 4)
  further     : rest.length ≤ 2 ∧ ∀ n ∈ rest, (∀ c ∈ n, c.isDigit) ∧ (n.length = 1 ∨ n.length = 2)
  identifiers : ∀ i ∈ ids, Identifier.wellFormed i

variable {t first : Text} {rest ids : List Text} {p : Parts}

theorem Scheme.numbers_calendar_iff :
    calendar.Numbers (first :: rest) ↔
      ((∀ c ∈ first, c.isDigit) ∧ (first.length = 2 ∨ first.length = 4)) ∧
        rest.length ≤ 2 ∧ ∀ n ∈ rest, (∀ c ∈ n, c.isDigit) ∧ (n.length = 1 ∨ n.length = 2) := by
  simp only [Numbers, List.forall_mem_cons, Decimal.isRun_iff, List.cons.injEq]
  constructor
  case mp =>
    rintro ⟨⟨⟨_, hd⟩, hr⟩, _, _, ⟨rfl, rfl⟩, hy, hl, hn⟩
    refine ⟨⟨hd, hy⟩, hl, fun n hm => ⟨(hr n hm).2, ?_⟩⟩
    have := (hr n hm).1
    have := hn n hm
    omega
  case mpr =>
    rintro ⟨⟨hd, hy⟩, hl, hn⟩
    refine ⟨⟨⟨by omega, hd⟩, fun n hm => ⟨?_, (hn n hm).1⟩⟩, first, rest, ⟨rfl, rfl⟩, hy, hl,
      fun n hm => ?_⟩
    all_goals
      have := (hn n hm).2
      omega

namespace Shape

theorem calendar_iff :
    Shape .calendar t ⟨first :: rest, ids, []⟩ ↔ Stamp t first rest ids := by
  have ht : Parts.text ⟨first :: rest, ids, []⟩ =
      first ++ rest.flatMap ('.' :: ·) ++ Parts.mark '-' ids := by
    rw [Parts.text, Text.dotted_cons]
    exact List.append_nil _
  constructor
  case mp =>
    intro h
    obtain ⟨hy, hr⟩ := Scheme.numbers_calendar_iff.mp h.core
    exact ⟨ht ▸ h.text.resolve_right (by simp), hy, hr, h.prerelease⟩
  case mpr =>
    intro h
    have hc := Scheme.numbers_calendar_iff.mpr ⟨h.year, h.further⟩
    exact ⟨.inl <| ht ▸ h.text, hc, h.identifiers, List.forall_mem_nil _⟩

-- A calendar text has numbers, and nothing behind a plus sign.
theorem exists_stamp (h : Shape .calendar t p) :
    ∃ first rest ids, p = ⟨first :: rest, ids, []⟩ ∧ Stamp t first rest ids := by
  match p, h with
  | ⟨[], _, _⟩, h => exact absurd rfl h.plain.core_ne_nil
  | ⟨_, _, l :: _⟩, h => exact nomatch h.metadata l (.head _)
  | ⟨first :: rest, ids, []⟩, h => exact ⟨first, rest, ids, rfl, calendar_iff.mp h⟩

-- No number of a calendar text has more digits than a year.
theorem value_lt (h : Shape .calendar t p) : ∀ n ∈ p.core, Decimal.value n < 10 ^ 4 := by
  intro n hn
  have ⟨first, rest, ids, hp, hs⟩ := h.exists_stamp
  have hl : n.length ≤ 4 := by
    cases hp
    cases hn
    case head => have := hs.year.2; omega
    case tail hn => have := (hs.further.2 n hn).2; omega
  have hd : n.all Char.isDigit := List.all_eq_true.mpr (Decimal.isRun_iff.mp <| h.core.isRun n hn).2
  exact Nat.lt_of_lt_of_le (Decimal.value_lt hd) <| Nat.pow_le_pow_right (by decide) hl

theorem not_overflows (h : Shape .calendar t p) : p.core.find? Segment.overflows = none := by
  rw [List.find?_eq_none]
  intro n hn ho
  have hl : Segment.largest.toNat < 10 ^ 4 := Nat.lt_trans (of_decide_eq_true ho) (h.value_lt n hn)
  exact absurd hl (by decide)

end Shape

namespace Version

-- What the reading of a calendar text comes to:
-- 1. a text that is none is invalid as a whole
-- 2. a prerelease with a number that starts with zero is refused as a whole
-- 3. all else is a version with these numbers, where month and day are zero if they are not
--    written, and without metadata
inductive CalendarReads (t : Text) : Except VersionError (Version .calendar) → Prop
  | unshaped (hs : ∀ first rest ids, ¬ Stamp t first rest ids) :
    CalendarReads t (.error (.invalidCalendar t))
  | leadingZero {first : Text} {rest ids : List Text} {i : Text} (hs : Stamp t first rest ids)
    (hi : i ∈ ids) (hz : Identifier.Padded i) :
    CalendarReads t (.error (.leadingZero (Text.dotted ids)))
  | version {first : Text} {rest ids : List Text} {v : Version .calendar}
    (hs : Stamp t first rest ids)
    (hz : ∀ i ∈ ids, ¬ Identifier.Padded i)
    (hn : v.numbers = ((first :: rest).map Decimal.value).rightpad 3 0)
    (hr : v.prerelease.parts = ids) (hl : v.metadata = Dotted.none) (ht : v.spelling = t) :
    CalendarReads t (.ok v)

variable {result : Except VersionError (Version .calendar)}

theorem reads_calendar_iff : Reads .calendar t result ↔ CalendarReads t result := by
  constructor
  case mp =>
    intro h
    cases h
    case unshaped hs => exact .unshaped fun _ _ _ h => hs _ <| Shape.calendar_iff.mpr h
    case overflow p run hs ho => exact absurd (hs.not_overflows.symm.trans ho) nofun
    case leadingZero p i hs ho hi hz =>
      have ⟨_, _, _, hp, hd⟩ := hs.exists_stamp
      cases hp
      exact .leadingZero hd hi hz
    case version p v hs ho hz hn hr hl ht =>
      have ⟨_, _, _, hp, hd⟩ := hs.exists_stamp
      cases hp
      exact .version hd hz hn hr v.metadata.eq_none_of_calendar ht
  case mpr =>
    intro h
    cases h
    case unshaped hs =>
      refine .unshaped fun p h => ?_
      have ⟨_, _, _, _, hd⟩ := h.exists_stamp
      exact hs _ _ _ hd
    case leadingZero hs hi hz =>
      have hs := Shape.calendar_iff.mpr hs
      exact .leadingZero hs hs.not_overflows hi hz
    case version hs hz hn hr hl ht =>
      have hs := Shape.calendar_iff.mpr hs
      exact .version hs hs.not_overflows hz hn hr (hl ▸ rfl) ht

-- The reading of calendar versions accepts its grammar and tells every failure apart. It never says
-- that a number is too large, or that a prerelease or metadata is malformed.
theorem calendar_parse_classifies (t : Text) :
    (∀ result, parse .calendar t = result ↔ CalendarReads t result) ∧
    ∀ text, parse .calendar t ≠ .error (.segmentOverflow text) ∧
      parse .calendar t ≠ .error (.invalidPrerelease text) ∧
      parse .calendar t ≠ .error (.invalidMetadata text) := by
  have parse_iff (result : _) : parse .calendar t = result ↔ CalendarReads t result :=
    parse_eq_iff_reads.trans reads_calendar_iff
  refine ⟨parse_iff, fun text => ⟨?_, ?_, ?_⟩⟩ <;>
  · intro h
    cases (parse_iff _).mp h

end Version
end VersionConstraints
