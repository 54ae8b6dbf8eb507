import VersionConstraints.Proofs.Bumping
import VersionConstraints.Proofs.CalendarReading
import VersionConstraints.Proofs.Succession

namespace VersionConstraints

-- The numbers that are written with as many digits as a calendar text has for them: two or four for
-- the year, which is not padded, and two for the month and the day, which are.
structure Dated (year month day : Segment) : Prop where
  year  : (10 ≤ year.toNat ∧ year.toNat ≤ 99) ∨ (1000 ≤ year.toNat ∧ year.toNat ≤ 9999)
  month : month.toNat ≤ 99
  day   : day.toNat ≤ 99

theorem Scheme.calendar_admits_core_iff {strict : Bool} {year month day : Segment} :
    calendar.admits strict (calendar.core year month day) ↔ Dated year month day := by
  have two := Decimal.length_digits_eq_iff (n := year.toNat) (k := 1) (by decide)
  have four := Decimal.length_digits_eq_iff (n := year.toNat) (k := 3) (by decide)
  simp only [admits, core, Decimal.isRun_digits, Decimal.isRun_padded, List.all_cons, List.all_nil,
    List.length_cons, List.length_nil, Bool.and_eq_true, Bool.or_eq_true, beq_iff_eq,
    decide_eq_true_eq, Decimal.length_padded_le_two_iff, true_and, and_true]
  constructor
  case mp =>
    rintro ⟨hy, hm, hd⟩
    exact ⟨by omega, hm, hd⟩
  case mpr =>
    rintro ⟨hy, hm, hd⟩
    exact ⟨by omega, hm, hd⟩

namespace Version

variable {strict : Bool} {v w : Version .calendar} {t : Text}

theorem hasShape_parts_iff : hasShape strict .calendar v.parts ↔ Dated v.major v.minor v.patch := by
  rw [hasShape_parts_eq]
  exact Scheme.calendar_admits_core_iff

theorem read_text (h : Dated v.major v.minor v.patch) :
    read strict .calendar v.text = .ok v.canonical := by
  refine read_eq_ok.mpr ?_
  simp only [Scheme.untagged, ofText_text]
  refine ⟨hasShape_parts_iff.mpr h, ?year, ?month, ?day, rfl, rfl, rfl⟩
  case year => exact Segment.ofDigits_digits _
  all_goals exact Segment.ofDigits_eq_ok.mpr <| Decimal.value_padded _

theorem read_text_of_not_dated (h : ¬ Dated v.major v.minor v.patch) :
    read strict .calendar v.text = .error (.invalidCalendar v.text) := by
  simp only [read, Scheme.untagged, ofText_text]
  exact if_neg <| mt hasShape_parts_iff.mp h

-- There is no stricter form of a calendar text.
theorem read_calendar (strict : Bool) (t : Text) : read strict .calendar t = parse .calendar t := by
  have hasShape_eq (p : Parts) : hasShape strict .calendar p = hasShape false .calendar p := by
    have ha : Scheme.calendar.admits strict p.core = Scheme.calendar.admits false p.core := by
      cases p.core <;> rfl
    rw [hasShape, ha, hasShape]
  rw [parse, read, hasShape_eq, read]

theorem number_lt_of_parse (h : parse .calendar t = .ok v) : ∀ n ∈ v.numbers, n < 10 ^ 4 := by
  cases parse_eq_iff_reads.mp h
  case version p hs ho hz hn hr hl ht =>
    rw [hn, List.rightpad, List.forall_mem_append, List.forall_mem_map]
    exact ⟨hs.value_lt, fun n hz => List.eq_of_mem_replicate hz ▸ by decide⟩

theorem lt_bump_of_parse (h : parse .calendar t = .ok v) (part : Part) :
    (v : Precedence) < v.bump part := by
  have hl : Segment.largest.toNat ∉ v.numbers :=
    fun hl => absurd (number_lt_of_parse h _ hl) (by decide)
  exact Precedence.lt_bump <| Precedence.number_lt hl part

-- A bump leaves a calendar version as it is written.
theorem spelling_bump (v : Version .calendar) (part : Part) :
    (v.bump part).spelling = (v.bump part).text :=
  rfl

theorem beq_iff_text_eq : v == w ↔ v.text = w.text := by
  rw [beq_iff, Std.LawfulEqOrd.compare_eq_iff_eq, text_eq_iff, v.metadata.eq_none_of_calendar,
    w.metadata.eq_none_of_calendar, and_iff_left rfl]

-- What is written for a calendar version:
-- 1. it is read exactly if each number is written with as many digits as are read
-- 2. what is then read has the same numbers and the same prerelease
-- 3. otherwise it is no calendar version at all
-- 4. equal versions are written alike, and no others
theorem calendar_text_read_back :
    (∀ year month day prerelease metadata (v : Version .calendar),
      new .calendar year month day prerelease metadata = .ok v →
        ((∃ w, parse .calendar v.text = .ok w) ↔ Dated year month day) ∧
        (∀ w, parse .calendar v.text = .ok w →
          w.major = year ∧ w.minor = month ∧ w.patch = day ∧ w.prerelease.text = prerelease) ∧
        (¬ Dated year month day → parse .calendar v.text = .error (.invalidCalendar v.text))) ∧
    ∀ v w : Version .calendar, v == w ↔ v.text = w.text := by
  refine ⟨?read, fun v w => beq_iff_text_eq⟩
  case read =>
    intro year month day prerelease metadata v hv
    obtain ⟨rfl, rfl, rfl, rfl, _⟩ := new_calendar_eq_ok.mp hv
    by_cases hd : Dated v.major v.minor v.patch
    case pos =>
      have hr : parse .calendar v.text = .ok v.canonical := read_text hd
      rw [hr]
      refine ⟨iff_of_true ⟨_, rfl⟩ hd, fun w hw => ?_, fun hn => absurd hd hn⟩
      rw [← Except.ok.inj hw]
      exact ⟨rfl, rfl, rfl, rfl⟩
    case neg =>
      have hr : parse .calendar v.text = .error (.invalidCalendar v.text) :=
        read_text_of_not_dated hd
      rw [hr]
      exact ⟨iff_of_false nofun hd, nofun, fun _ => rfl⟩

-- A year of two digits, and one that needs only a single digit.
theorem calendar_text_read_back_short :
    (∃ v w, new .calendar 24 12 99 "rc.2".toList [] = .ok v ∧ parse .calendar v.text = .ok w ∧
      w.patch = 99 ∧ w.prerelease.text = "rc.2".toList) ∧
    ∃ v, new .calendar 5 1 2 [] [] = .ok v ∧ v.text = "5.01.02".toList ∧
      parse .calendar v.text = .error (.invalidCalendar v.text) := by
  constructor
  case left =>
    have ⟨v, hv⟩ : ∃ v, new .calendar 24 12 99 "rc.2".toList [] = .ok v := ⟨_, rfl⟩
    have ⟨accepts, fields, _⟩ := calendar_text_read_back.1 _ _ _ _ _ v hv
    have ⟨w, hw⟩ := accepts.mpr ⟨by decide, by decide, by decide⟩
    exact ⟨v, w, hv, hw, (fields w hw).2.2⟩
  case right =>
    have hn : ¬ Dated 5 1 2 := fun h => absurd h.year (by decide)
    exact ⟨_, rfl, by decide, (calendar_text_read_back.1 5 1 2 [] [] _ rfl).2.2 hn⟩

-- The bump of a calendar version:
-- 1. it is above the version, as no calendar text has a number that could not be raised
-- 2. its spelling is read as the same version exactly if each number is written with as many digits
--    as are read: the year is not padded, and nothing is raised into the number before it
-- 3. the command writes this spelling
theorem calendar_bump_read_back (h : parse .calendar t = .ok v) (part : Part) :
    let next := v.bump part
    (v : Precedence) < next ∧
    (Dated next.major next.minor next.patch → parse .calendar next.spelling = .ok next) ∧
    (¬ Dated next.major next.minor next.patch →
      parse .calendar next.spelling = .error (.invalidCalendar next.spelling)) ∧
    ∀ (tool : Tool) tree directory args options strict,
      tool.request args = .run (.bump part t) options →
      options.settings tool.decode tree directory = .ok ⟨.calendar, strict⟩ →
        let outcome := tool.run tree directory args
        outcome = .report (.bumped t next.spelling) options.json ∧
          (options.json = false → tool.output outcome = next.spelling ++ ['\n']) := by
  intro next
  have spelling : next.spelling = next.text := spelling_bump v part
  refine ⟨lt_bump_of_parse h part, ?dated, ?undated, ?run⟩
  case dated =>
    intro hd
    rw [spelling]
    exact (read_text hd).trans <| congrArg _ <| canonical_eq_self.mpr spelling
  case undated => exact fun hn => spelling ▸ read_text_of_not_dated hn
  case run =>
    intro tool tree directory args options strict ha hs outcome
    have hr : outcome = .report (.bumped t next.spelling) options.json :=
      Tool.report_of_request ha hs <| Command.report_bump <| (read_calendar strict t).trans h
    refine ⟨hr, fun hj => ?_⟩
    rw [hr, hj]
    simp [Tool.output, Report.text, Report.lines]

-- The month that follows is padded, and a zero in front of the year is lost.
theorem calendar_bump_read_back_padded :
    let tool := Tool.standard
    let args := ["--scheme", "calver", "bump", "minor", "24.1.5-b"].map String.toList
    let v : Version .calendar := ⟨⟨24, 1, 5, ⟨[['b']], by decide⟩⟩, Dotted.none, "24.1.5-b".toList⟩
    let w : Version .calendar := ⟨⟨9, 1, 5, Dotted.none⟩, Dotted.none, "09.1.5".toList⟩
    (parse .calendar "24.1.5-b".toList = .ok v ∧ (v : Precedence) < v.bump .minor ∧
      tool.output (tool.run (.ofList [] []) [] args) = "24.02.00\n".toList ∧
      parse .calendar "24.02.00".toList = .ok (v.bump .minor)) ∧
    parse .calendar "09.1.5".toList = .ok w ∧
      parse .calendar (w.bump .patch).spelling =
        .error (.invalidCalendar (w.bump .patch).spelling) := by
  intro tool args v w
  have hv : parse .calendar "24.1.5-b".toList = .ok v := rfl
  have hw : parse .calendar "09.1.5".toList = .ok w := rfl
  have ha : tool.request args =
      .run (.bump .minor "24.1.5-b".toList) ⟨some .calendar, false, false, false, 0⟩ := by decide
  have hs : (v.bump .minor).spelling = "24.02.00".toList := by decide
  have ⟨above, dated, _, runs⟩ := calendar_bump_read_back hv .minor
  have ⟨_, output⟩ := runs tool (.ofList [] []) [] args _ false ha rfl
  have ⟨_, _, undated, _⟩ := calendar_bump_read_back hw .patch
  rw [hs] at dated output
  exact ⟨⟨hv, above, output rfl, dated ⟨by decide, by decide, by decide⟩⟩, hw,
    undated fun h => absurd h.year (by decide)⟩

-- The bump of a year with a zero in front is written with one digit less.
theorem not_forall_calendar_bump_read :
    ¬ ∀ t (v : Version .calendar) part, parse .calendar t = .ok v →
      ∃ w, parse .calendar (v.bump part).spelling = .ok w ∧ w == v.bump part ∧
        (v : Precedence) < w := by
  intro h
  let v : Version .calendar := ⟨⟨5, 1, 1, Dotted.none⟩, Dotted.none, "05.1.1".toList⟩
  have ⟨w, hw, _⟩ := h "05.1.1".toList v .patch rfl
  rw [parse, spelling_bump, read_text_of_not_dated fun h => absurd h.year (by decide)] at hw
  contradiction

end Version
end VersionConstraints
