import Mathlib.Tactic.IntervalCases
import RowQuery.DateTime
import RowQuery.Proofs.LosslessPromotion

/-!
Numbers and moments as text. Decimals are written with all their places and moments with a date and a time of
day, each part filled up to its width, and both are read back from that. For moments this needs that a date can
be found again from its number of days.
-/

namespace RowQuery

/-! ### Digits -/

namespace Digits

theorem valueFrom_eq (start : Nat) (cs : List Char) : valueFrom start cs = Nat.ofDigitChars 10 cs start :=
  Nat.ofDigitChars_eq_foldl.symm

theorem value_padded (width n : Nat) : value (padded width n) = n := by
  rw [value, valueFrom_eq, padded, Nat.ofDigitChars_append, Nat.ofDigitChars_replicate_zero, Nat.mul_zero,
    Nat.ofDigitChars_ten_toDigits]

theorem isDigit_padded {width n : Nat} {c : Char} (h : c ∈ padded width n) : c.isDigit := by
  rcases List.mem_append.mp h with hzero | hdigit
  · rw [(List.mem_replicate.mp hzero).2]
    decide
  · exact Nat.isDigit_of_mem_toDigits (by decide) (by decide) hdigit

theorem length_padded (width n : Nat) : (padded width n).length = max width (Nat.toDigits 10 n).length := by
  rw [padded, List.length_append, List.length_replicate]
  omega

theorem padded_ne_nil (width n : Nat) : padded width n ≠ [] := by
  simp [padded, Nat.toDigits_ne_nil]

theorem nat?_padded (width n : Nat) : nat? (padded width n) = some n := by
  rw [nat?, if_neg, value_padded]
  simpa [padded_ne_nil] using fun c => isDigit_padded

theorem valueFrom_append (start : Nat) (cs ds : List Char) :
    valueFrom start (cs ++ ds) = valueFrom (valueFrom start cs) ds := List.foldl_append

end Digits

/-! ### Decimals -/

namespace Decimal

/-- Digits with the point before the last ones. -/
def withPoint (whole part : List Char) : List Char := if part.isEmpty then whole else whole ++ '.' :: part

theorem withPoint_cons (c : Char) (cs part : List Char) : withPoint (c :: cs) part = c :: withPoint cs part := by
  unfold withPoint
  split <;> rfl

/-- A text that starts with a digit has no sign. -/
theorem read?_of_digit {s : String} {c : Char} {cs : List Char} (hs : s.toList = c :: cs) (hc : c.isDigit) :
    read? s = Reading.go ⟨false, false, false, 0, 0⟩ (c :: cs) := by
  unfold read?
  split
  · rename_i htext
    cases hs.symm.trans htext
    exact absurd hc (by decide)
  · rename_i htext
    cases hs.symm.trans htext
    exact absurd hc (by decide)
  · rw [hs]

/-- The text of a decimal: its sign, and the digits of the mantissa with the point before the last places. -/
theorem exists_places (d : Decimal) : ∃ whole part,
    d.text.toList = (if d.negative then ['-'] else []) ++ withPoint whole part ∧
      (∀ c ∈ whole ++ part, c.isDigit) ∧ whole ≠ [] ∧ Digits.value (whole ++ part) = d.mantissa ∧
      part.length = d.scale := by
  let ds := Digits.padded (d.scale + 1) d.mantissa
  have hlength : d.scale < ds.length := by
    rw [Digits.length_padded]
    omega
  refine ⟨ds.take (ds.length - d.scale), ds.drop (ds.length - d.scale), ?_, ?_, ?_, ?_, ?_⟩
  · rw [text, String.toList_ofList]
    cases d.negative <;> rfl
  · rw [List.take_append_drop]
    exact fun c => Digits.isDigit_padded
  · rw [Ne, ← List.length_eq_zero_iff, List.length_take]
    omega
  · rw [List.take_append_drop]
    exact Digits.value_padded _ _
  · rw [List.length_drop]
    omega

theorem go_withPoint {whole part : List Char} (hdigits : ∀ c ∈ whole ++ part, c.isDigit) (hne : whole ≠ [])
    (negative : Bool) (hlimit : Digits.value (whole ++ part) < limit) (hscale : part.length ≤ maxScale) :
    Reading.go ⟨negative, false, false, 0, 0⟩ (withPoint whole part) =
      signed? negative (Digits.value (whole ++ part)) part.length := by
  rw [Digits.value, Digits.valueFrom_append] at hlimit ⊢
  obtain ⟨hwhole, hpart⟩ := List.forall_mem_append.mp hdigits
  have hfirst : Digits.valueFrom 0 whole < limit := Nat.lt_of_le_of_lt (Digits.le_valueFrom _ part) hlimit
  have hstart := fun rest =>
    Reading.go_digits hwhole rest ⟨negative, false, false, 0, 0⟩ hfirst (fun _ => rfl) (by simp)
  have hstarted : whole.isEmpty = false := List.isEmpty_eq_false_iff.mpr hne
  by_cases hempty : part = []
  · subst hempty
    have hgo := hstart []
    rw [List.append_nil] at hgo
    simp [withPoint, hgo, Reading.go, Reading.finish, hstarted, Digits.valueFrom]
  · have hpoint := Reading.go_digits hpart [] ⟨negative, true, true, Digits.valueFrom 0 whole, 0⟩ hlimit (by simp)
      fun _ => by simpa using hscale
    rw [List.append_nil] at hpoint
    rw [withPoint, if_neg (by simpa using hempty), hstart, Reading.go]
    simp [hpoint, Reading.go, Reading.finish, hstarted]

/-- A decimal is read back from its text, unless it is a zero with a sign. -/
theorem readAny?_text {d : Decimal} (h : d.negative → d.mantissa ≠ 0) : readAny? d.text = some d := by
  obtain ⟨whole, part, htext, hdigits, hne, hvalue, hscale⟩ := exists_places d
  have hgo := go_withPoint hdigits hne d.negative (by rw [hvalue]; exact d.mantissa_lt)
    (by rw [hscale]; exact d.scale_le)
  have hsigned : signed? d.negative d.mantissa d.scale = some d := by
    have hsign : (d.negative && d.mantissa != 0) = d.negative := by
      cases hnegative : d.negative <;> simp_all
    rw [signed?, hsign, ofParts?, dif_pos ⟨d.mantissa_lt, d.scale_le⟩]
  rw [hvalue, hscale, hsigned] at hgo
  have hread : read? d.text = some d := by
    cases hnegative : d.negative with
    | true =>
        rw [hnegative] at hgo htext
        rw [read?, htext]
        exact hgo
    | false =>
        rw [hnegative] at hgo htext
        obtain ⟨c, cs, rfl⟩ := List.exists_cons_of_ne_nil hne
        have htext : d.text.toList = c :: withPoint cs part := htext.trans (withPoint_cons c cs part)
        rw [read?_of_digit htext (hdigits c (by simp)), ← withPoint_cons]
        exact hgo
  rw [readAny?, hread]
  rfl

end Decimal

/-! ### Dates -/

namespace Calendar

/-- The days of a month at most, with months counted from March. -/
def monthLength (m : Nat) : Nat := if m = 11 then 29 else if m = 1 ∨ m = 3 ∨ m = 6 ∨ m = 8 then 30 else 31

/-- The days from the start of a cycle of 400 years to a day of a month, both counted from March. -/
def dayOfCycle (y m day : Nat) : Nat := 365 * y + y / 4 - y / 100 + ((153 * m + 2) / 5 + day - 1)

/-- The date of a day of a month, with months counted from March. -/
def Date.fromMarch (year : Int) (m day : Nat) : Date :=
  ⟨year + (if m < 10 then 0 else 1), if m < 10 then m + 3 else m - 9, day⟩

/-- The year of a cycle is found from a day of it, the leap day at its end included. -/
theorem year_of_day {y d : Nat} (hy : y < 400)
    (hd : d < 365 ∨ d = 365 ∧ (y + 1) % 4 = 0 ∧ ((y + 1) % 100 ≠ 0 ∨ y = 399)) :
    ∀ e, e = 365 * y + y / 4 - y / 100 + d →
    (e - e / 1460 + e / 36524 - e / 146096) / 365 = y := by
  intro e he
  -- The centuries of the cycle, the fours of years of the century and the years of these are of one length each
  -- but for their last day, so that no division by a variable is left.
  obtain ⟨c, s, t, hc, hs, ht, rfl⟩ : ∃ c s t, c < 4 ∧ s < 25 ∧ t < 4 ∧ y = 100 * c + 4 * s + t :=
    ⟨y / 100, y % 100 / 4, y % 4, by omega, by omega, by omega, by omega⟩
  have he : e = 36524 * c + (1461 * s + 365 * t + d) := by omega
  have hlong : e / 36524 - e / 146096 = c ∧ e / 146096 ≤ e / 36524 := by
    rcases hd with hd | ⟨hd, hleap, hcentury⟩
    · have h1 : e / 36524 = c := by omega
      have h2 : e / 146096 = 0 := by omega
      omega
    · by_cases hlast : c = 3 ∧ s = 24
      · omega
      · have ht3 : t = 3 := by omega
        have hs24 : s < 24 := by
          rcases hcentury with hcentury | hcentury <;> omega
        have h1 : e / 36524 = c := by omega
        have h2 : e / 146096 = 0 := by omega
        omega
  have hshort : e / 1460 = 25 * c + s + (24 * c + s + 365 * t + d) / 1460 := by omega
  have hle : (24 * c + s + 365 * t + d) / 1460 ≤ 1 := by omega
  omega

theorem month_of_day {m d : Nat} (hm : m < 12) (hd : 1 ≤ d) (hlen : d ≤ monthLength m) :
    let e := (153 * m + 2) / 5 + d - 1
    (5 * e + 2) / 153 = m ∧ e - (153 * m + 2) / 5 + 1 = d := by
  unfold monthLength at hlen
  interval_cases m <;> simp at hlen ⊢ <;> omega

theorem Date.ofDays_cycle (c : Int) {y m d : Nat} (hy : y < 400) (hm : m < 12) (hd : 1 ≤ d) (hlen : d ≤ monthLength m)
    (hleap : m = 11 → d = 29 → (y + 1) % 4 = 0 ∧ ((y + 1) % 100 ≠ 0 ∨ y = 399)) :
    Date.ofDays (c * 146097 + dayOfCycle y m d) = fromMarch (c * 400 + y) m d := by
  obtain ⟨hmonth, hday⟩ := month_of_day hm hd hlen
  have hlast : (153 * m + 2) / 5 + d - 1 < 365 ∨ (153 * m + 2) / 5 + d - 1 = 365 ∧ m = 11 ∧ d = 29 := by
    rw [monthLength] at hlen
    split at hlen
    · omega
    · have hm10 : m ≤ 10 := by omega
      split at hlen <;> omega
  rw [dayOfCycle]
  generalize he : (153 * m + 2) / 5 + d - 1 = e at *
  have hyear := year_of_day (d := e) hy (by omega) _ rfl
  generalize hE : 365 * y + y / 4 - y / 100 + e = E at *
  have hlt : E < 146097 := by omega
  have hcycle : (c * 146097 + (E : Int)) / 146097 = c := by omega
  have hin : ((c * 146097 + (E : Int)) % 146097).toNat = E := by omega
  have hrest : E - (365 * y + y / 4 - y / 100) = e := by omega
  simp only [ofDays, fromMarch, hcycle, hin, hyear, hrest, hmonth, hday]
  split
  · simp
  · simp
    omega

theorem daysInMonth_le (year : Int) {month : Nat} (h : 1 ≤ month) (h' : month ≤ 12) :
    daysInMonth year month ≤ monthLength (if month ≤ 2 then month + 9 else month - 3) := by
  unfold daysInMonth
  cases isLeapYear year <;> interval_cases month <;> decide

theorem Date.exists_fromMarch {d : Date} (h : d.valid) : ∃ (year : Int) (m day : Nat), d = fromMarch year m day ∧
    m < 12 ∧ 1 ≤ day ∧ day ≤ monthLength m ∧ (m = 11 → day = 29 → isLeapYear (year + 1)) := by
  obtain ⟨year, month, day⟩ := d
  simp only [Date.valid, Bool.and_eq_true, decide_eq_true_eq] at h
  obtain ⟨⟨⟨⟨-, hmonth⟩, hmonth'⟩, hday⟩, hlen⟩ := h
  have hlen' := Nat.le_trans hlen (daysInMonth_le year hmonth hmonth')
  by_cases hearly : month ≤ 2
  · refine ⟨year - 1, month + 9, day, ?_, by omega, hday, ?_, ?_⟩
    · simp only [fromMarch, if_neg (show ¬ month + 9 < 10 by omega), Nat.add_sub_cancel, Int.sub_add_cancel]
    · rwa [if_pos hearly] at hlen'
    · intro hm hd
      obtain rfl : month = 2 := by omega
      rw [Int.sub_add_cancel]
      by_contra hno
      simp [daysInMonth, hno] at hlen
      omega
  · refine ⟨year, month - 3, day, ?_, by omega, hday, ?_, by omega⟩
    · have hm : month - 3 < 10 := by omega
      simp only [fromMarch, if_pos hm, Int.add_zero, Nat.sub_add_cancel (show 3 ≤ month by omega)]
    · rwa [if_neg hearly] at hlen'

theorem Date.toDays_fromMarch (year : Int) {m day : Nat} (hm : m < 12) (hday : 1 ≤ day) :
    (fromMarch year m day).toDays = year / 400 * 146097 + dayOfCycle (year % 400).toNat m day := by
  by_cases hlate : m < 10
  · simp [toDays, fromMarch, dayOfCycle, hlate, show ¬ m + 3 ≤ 2 by omega]
    omega
  · simp [toDays, fromMarch, dayOfCycle, hlate, show m - 9 ≤ 2 by omega, show m - 9 + 9 = m by omega]
    omega

/-- A date is found again from its number of days. -/
theorem Date.ofDays_toDays {d : Date} (h : d.valid) : Date.ofDays d.toDays = d := by
  obtain ⟨year, m, day, rfl, hm, hday, hlen, hleap⟩ := exists_fromMarch h
  have hyear : year / 400 * 400 + ((year % 400).toNat : Int) = year := by omega
  have hlast : m = 11 → day = 29 → ((year % 400).toNat + 1) % 4 = 0 ∧
      (((year % 400).toNat + 1) % 100 ≠ 0 ∨ (year % 400).toNat = 399) := by
    intro hm hd
    have hyear := hleap hm hd
    simp only [isLeapYear, Bool.and_eq_true, Bool.or_eq_true, beq_iff_eq, bne_iff_ne] at hyear
    omega
  calc ofDays (fromMarch year m day).toDays
      = ofDays (year / 400 * 146097 + dayOfCycle (year % 400).toNat m day) := by rw [toDays_fromMarch year hm hday]
    _ = fromMarch (year / 400 * 400 + (year % 400).toNat) m day := ofDays_cycle _ (by omega) hm hday hlen hlast
    _ = fromMarch year m day := by rw [hyear]

end Calendar

/-! ### Moments -/

namespace DateTime

theorem digits?_padded {width n : Nat} (hwidth : 0 < width) (hn : n < 10 ^ width) (rest : List Char) :
    digits? width (Digits.padded width n ++ rest) = some (n, rest) := by
  have hle : (Nat.toDigits 10 n).length ≤ width := (Nat.length_toDigits_le_iff (by decide) hwidth).mpr hn
  have hlength : (Digits.padded width n).length = width := by
    rw [Digits.length_padded]
    omega
  simp [digits?, hlength, Digits.nat?_padded]

theorem mark?_cons (c : Char) (cs : List Char) : mark? c (c :: cs) = some cs := by simp [mark?]

/-- The digits and marks of a date after its sign. -/
def dateDigits (d : Calendar.Date) (rest : List Char) : List Char :=
  Digits.padded 4 d.year.natAbs ++ '-' :: (Digits.padded 2 d.month ++ '-' :: (Digits.padded 2 d.day ++ rest))

theorem toList_dateText (d : Calendar.Date) (rest : List Char) :
    (dateText (signedYear d.year) d).toList ++ rest = (if d.year < 0 then ['-'] else []) ++ dateDigits d rest := by
  simp only [dateText, signedYear, two, dateDigits]
  split <;> simp

theorem date?_text {d : Calendar.Date} (h : d.valid) (rest : List Char) :
    date? ((dateText (signedYear d.year) d).toList ++ rest) = some (d, rest) := by
  have hlength : Calendar.daysInMonth d.year d.month ≤ 31 := by
    unfold Calendar.daysInMonth
    split_ifs <;> decide
  have hmax : Calendar.maxYear = 9999 := rfl
  simp only [Calendar.Date.valid, Bool.and_eq_true, decide_eq_true_iff] at h
  have hyear : digits? 4 (dateDigits d rest) = some (d.year.natAbs, _) := digits?_padded (by decide) (by omega) _
  have hmonth := digits?_padded (n := d.month) (show 0 < 2 by decide) (by omega)
  have hday := digits?_padded (n := d.day) (show 0 < 2 by decide) (by omega)
  rw [toList_dateText]
  by_cases hneg : d.year < 0
  · simp [date?, hneg, hyear, hmonth, hday, mark?_cons, abs_of_neg hneg]
  · obtain ⟨c, cs, hcs⟩ := List.exists_cons_of_ne_nil (Digits.padded_ne_nil 4 d.year.natAbs)
    have hc : c.isDigit := Digits.isDigit_padded (hcs ▸ List.mem_cons_self)
    have hhead : (dateDigits d rest).head? = some c := by simp [dateDigits, hcs]
    have hminus : c ≠ '-' := by rintro rfl; exact absurd hc (by decide)
    have hplus : c ≠ '+' := by rintro rfl; exact absurd hc (by decide)
    simp [date?, hneg, hhead, hminus, hplus, hyear, hmonth, hday, mark?_cons, abs_of_nonneg (Int.not_lt.mp hneg)]

theorem clock?_text {hour minute second : Nat} (hhour : hour < 24) (hminute : minute < 60) (hsecond : second < 60) :
    clock? ((two hour).toList ++ ':' :: ((two minute).toList ++ ':' :: (two second).toList)) =
      some (hour, minute, second) := by
  have hhour := digits?_padded (n := hour) (show 0 < 2 by decide) (by omega)
  have hminute := digits?_padded (n := minute) (show 0 < 2 by decide) (by omega)
  have hsecond := digits?_padded (n := second) (show 0 < 2 by decide) (by omega) []
  rw [List.append_nil] at hsecond
  simp [clock?, two, hhour, hminute, hsecond, mark?_cons]

/-- The parts from which a moment was made. -/
theorem ofParts?_eq_some {d : Calendar.Date} {hour minute second nanos : Nat} {t : DateTime}
    (h : ofParts? d hour minute second nanos = some t) : d.valid ∧ t.date = d ∧ t.hour = hour ∧
      t.minute = minute ∧ t.second = second ∧ hour < 24 ∧ minute < 60 ∧ second < 60 := by
  unfold ofParts? ofNanos? at h
  split at h
  · rename_i hparts
    simp only [Bool.and_eq_true, decide_eq_true_iff] at hparts
    obtain ⟨⟨⟨⟨hvalid, hhour⟩, hminute⟩, hsecond⟩, hnanos⟩ := hparts
    split at h
    · cases h
      have hdays : (d.toDays * nanosPerDay + ((hour * 60 + minute) * 60 + second : Nat) * nanosPerSecond + nanos) /
          nanosPerDay = d.toDays := by
        simp only [nanosPerDay, nanosPerSecond]
        omega
      have hseconds : ((d.toDays * nanosPerDay + ((hour * 60 + minute) * 60 + second : Nat) * nanosPerSecond + nanos) %
          nanosPerDay / nanosPerSecond).toNat = (hour * 60 + minute) * 60 + second := by
        simp only [nanosPerDay, nanosPerSecond]
        omega
      refine ⟨hvalid, ?_, ?_, ?_, ?_, hhour, hminute, hsecond⟩
      · rw [date, hdays, Calendar.Date.ofDays_toDays hvalid]
      · rw [DateTime.hour, secondOfDay, hseconds]
        omega
      · rw [DateTime.minute, secondOfDay, hseconds]
        omega
      · rw [DateTime.second, secondOfDay, hseconds]
        omega
    · cases h
  · cases h

/-- A moment that was read is read again from its text. -/
theorem read?_dataText {s : String} {t : DateTime} (h : read? s = some t) : read? t.dataText = some t := by
  have hparts : ∃ d hour minute second, ofParts? d hour minute second 0 = some t := by
    simp only [read?, Option.bind_eq_bind, Option.bind_eq_some_iff] at h
    obtain ⟨⟨d, cs⟩, -, h⟩ := h
    split at h
    · exact ⟨d, 0, 0, 0, h⟩
    · simp only [Option.bind_eq_some_iff] at h
      obtain ⟨_, -, ⟨hour, minute, second⟩, -, h⟩ := h
      exact ⟨d, hour, minute, second, h⟩
  obtain ⟨d, hour, minute, second, hparts⟩ := hparts
  obtain ⟨hvalid, hdate, hhour, hminute, hsecond, hbounds⟩ := ofParts?_eq_some hparts
  have hdigits := date?_text hvalid
  have hclock := clock?_text hbounds.1 hbounds.2.1 hbounds.2.2
  have htext : t.dataText.toList = (dateText (signedYear d.year) d).toList ++
      'T' :: ((two hour).toList ++ ':' :: ((two minute).toList ++ ':' :: (two second).toList)) := by
    simp [dataText, clockText, hdate, hhour, hminute, hsecond]
  simp [read?, htext, hdigits, mark?_cons, hclock, hparts]

end DateTime

end RowQuery
