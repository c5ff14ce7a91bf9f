import Docstore.Time.Calendar

/-!
# Days exist

* `Date.day_lt_next_year` : a day of an era lies before the next year;
* `Date.day_lt_next_month` : a day of a year lies before the next month;
* `Date.isValid_ofDays` : the date of a day count is a day of the calendar.
-/

namespace Docstore.Date

/-- A day lies before the next year of its era; the last year ends with a leap day. -/
theorem day_lt_next_year {day : Int} (h : 0 ≤ day ∧ day < 146097) :
    day - daysBeforeYear (yearOfDay day) < 365 + (if isLeap (yearOfDay day + 1) then 1 else 0) := by
  obtain ⟨hy0, hy1, hd0, hd1⟩ := daysBeforeYear_yearOfDay h
  generalize hy : yearOfDay day = year at *
  unfold yearOfDay at hy
  unfold daysBeforeYear at *
  by_cases hleap : isLeap (year + 1) = true
  · rw [if_pos hleap]
    omega
  · rw [if_neg hleap]
    have hcommon : year % 4 ≤ 2 ∨ (year + 1) % 100 = 0 ∧ (year + 1) % 400 ≠ 0 := by
      simp only [isLeap, Bool.and_eq_true, Bool.or_eq_true, beq_iff_eq, bne_iff_ne] at hleap
      omega
    obtain ⟨hlow, hhigh⟩ : 365 * year ≤ day - day / 1460 + day / 36524 - day / 146096 ∧
        day - day / 1460 + day / 36524 - day / 146096 < 365 * year + 365 := by omega
    have hcentury : day / 36524 = 0 ∨ day / 36524 = 1 ∨ day / 36524 = 2 ∨ day / 36524 = 3 ∨
        day / 36524 = 4 := by omega
    have hfour : year / 4 ≤ day / 1460 ∧ day / 1460 ≤ year / 4 + 1 := by omega
    have hhundred : year / 100 = day / 36524 - day / 146096 := by omega
    rcases hcommon with hcommon | hcommon
    · omega
    · omega

/-- A day of a year lies before the next month. -/
theorem day_lt_next_month (day : Int) : day < daysBeforeMonth (monthOfDay day + 1) := by
  unfold monthOfDay daysBeforeMonth
  omega

theorem isLeap_era (era year : Int) : isLeap (era * 400 + year) = isLeap year := by
  have h4 : (era * 400 + year) % 4 = year % 4 := by omega
  have h100 : (era * 400 + year) % 100 = year % 100 := by omega
  have h400 : (era * 400 + year) % 400 = year % 400 := by omega
  rw [isLeap, isLeap, h4, h100, h400]

/-- Months counted from March have the days between their beginnings; the last one is February. -/
theorem isValid_ofMarch {year month day : Int} (hm : 0 ≤ month ∧ month < 12) (hd : 0 ≤ day)
    (hmonth : day < daysBeforeMonth (month + 1) - daysBeforeMonth month)
    (hyear : day + daysBeforeMonth month < 365 + (if isLeap (year + 1) then 1 else 0)) :
    (ofMarch year month day).isValid = true := by
  unfold daysBeforeMonth at hmonth hyear
  by_cases hfebruary : month = 11
  · subst hfebruary
    -- February alone depends on the year.
    split at hyear
    · next hleap =>
      simp [ofMarch, isValid, daysInMonth, hleap]
      omega
    · next hleap =>
      simp [ofMarch, isValid, daysInMonth, hleap]
      omega
  · have hcases : month = 0 ∨ month = 1 ∨ month = 2 ∨ month = 3 ∨ month = 4 ∨ month = 5 ∨
        month = 6 ∨ month = 7 ∨ month = 8 ∨ month = 9 ∨ month = 10 := by omega
    rcases hcases with rfl | rfl | rfl | rfl | rfl | rfl | rfl | rfl | rfl | rfl | rfl
    all_goals
      simp [ofMarch, isValid, daysInMonth]
      omega

/-- The date of a day count is a day of the calendar. -/
theorem isValid_ofDays (days : Int) : (ofDays days).isValid = true := by
  have hday : 0 ≤ (days + epochOffset) % daysPerEra ∧
      (days + epochOffset) % daysPerEra < 146097 := by unfold daysPerEra; omega
  obtain ⟨-, -, hd⟩ := daysBeforeYear_yearOfDay hday
  have hyear := day_lt_next_year hday
  obtain ⟨hm0, hm1, hr⟩ := daysBeforeMonth_monthOfDay hd
  refine isValid_ofMarch ⟨hm0, hm1⟩ hr ?_ ?_
  · exact Int.sub_lt_sub_right (day_lt_next_month _) _
  · rw [Int.add_assoc, isLeap_era]
    omega

end Docstore.Date
