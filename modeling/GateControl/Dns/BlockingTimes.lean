import GateControl.Dns.Policy

/-!
# BlockingTimes — when a time rule is in force

A rule names days of the week and two times.  On each of its days it blocks from the first time up
to the next occurrence of the second one, and the whole day when they are the same.
`scheduleActive` decides this by the current and the previous day; here the minutes of a week are a
circle, and a rule is a set of intervals on it (`scheduleActive_iff`).
-/

namespace GateControl
namespace Dns

open Library

/-! ## The circle of a week -/

def minutesPerDay : Nat := 1440

def minutesPerWeek : Nat := 10080

/-- Minutes since Monday, 0:00. -/
def minuteOfWeek (date : LocalTime) : Nat := (date.day + 6) % 7 * minutesPerDay + date.minutes

/-- Where the interval of a day begins, the days being numbered from Monday (1) to Sunday (7). -/
def blockingStart (fromMin toMin d : Nat) : Nat :=
  (d - 1) * minutesPerDay + if fromMin = toMin then 0 else fromMin

/-- Where it ends: at `toMin` of the same day or of the next one, or at the end of the day. -/
def blockingEnd (fromMin toMin d : Nat) : Nat :=
  if fromMin < toMin then (d - 1) * minutesPerDay + toMin
  else if toMin < fromMin then d * minutesPerDay + toMin
  else d * minutesPerDay

/-- A minute of the week lies in the interval of the day, weeks being counted off. -/
def BlockedOn (fromMin toMin d minute : Nat) : Prop :=
  ∃ x, blockingStart fromMin toMin d ≤ x ∧ x < blockingEnd fromMin toMin d ∧
    x % minutesPerWeek = minute

/-- The interval of a day ends at the first `toMin` behind its beginning. -/
theorem blockingEnd_first {fromMin toMin d : Nat} (hne : fromMin ≠ toMin) (hd : 1 ≤ d)
    (hfrom : fromMin < minutesPerDay) (hto : toMin ≤ minutesPerDay) :
    blockingStart fromMin toMin d < blockingEnd fromMin toMin d ∧
      blockingEnd fromMin toMin d % minutesPerDay = toMin % minutesPerDay ∧
      ∀ x, blockingStart fromMin toMin d < x → x % minutesPerDay = toMin % minutesPerDay →
        blockingEnd fromMin toMin d ≤ x := by
  obtain ⟨k, rfl⟩ : ∃ k, d = k + 1 := ⟨d - 1, by omega⟩
  simp only [blockingStart, blockingEnd, minutesPerDay, if_neg hne, Nat.add_sub_cancel] at hfrom hto ⊢
  by_cases hlt : fromMin < toMin
  · simp only [if_pos hlt]
    refine ⟨by omega, by omega, fun x hx hmod => ?_⟩
    omega
  · have hgt : toMin < fromMin := by omega
    simp only [if_neg hlt, if_pos hgt]
    refine ⟨by omega, by omega, fun x hx hmod => ?_⟩
    omega

/-- By the days of the week and the minutes of the day, and by the intervals. -/
theorem scheduleActive_iff_blockedOn {days : List Nat} (hdays : ∀ d ∈ days, 1 ≤ d ∧ d ≤ 7)
    {fromMin toMin : Nat} (hfrom : fromMin < minutesPerDay) (hto : toMin ≤ minutesPerDay)
    {date : LocalTime} (hday : date.day ≤ 6) (hminutes : date.minutes < minutesPerDay) :
    scheduleActive days fromMin toMin date = true ↔
      ∃ d ∈ days, BlockedOn fromMin toMin d (minuteOfWeek date) := by
  obtain ⟨day, m⟩ := date
  dsimp only at hday hminutes
  -- the day from Monday (1) to Sunday (7), and the one before it
  obtain ⟨iso, hiso, hiso1, hiso7, hminute⟩ : ∃ iso, (if day = 0 then 7 else day) = iso ∧ 1 ≤ iso ∧
      iso ≤ 7 ∧ minuteOfWeek ⟨day, m⟩ = (iso - 1) * 1440 + m := by
    refine ⟨_, rfl, ?_, ?_, ?_⟩
    · split <;> omega
    · split <;> omega
    · simp only [minuteOfWeek, minutesPerDay]
      split <;> omega
  simp only [scheduleActive, hiso, hminute, BlockedOn, blockingStart, blockingEnd, minutesPerDay,
    minutesPerWeek] at hfrom hto hminutes ⊢
  by_cases heq : fromMin = toMin
  · -- whole days
    simp only [heq, if_true, decide_eq_true_eq, Nat.lt_irrefl, if_false]
    constructor
    · intro hmem
      exact ⟨iso, hmem, (iso - 1) * 1440 + m, by omega, by omega, by omega⟩
    · rintro ⟨d, hd, x, hlow, hhigh, hmod⟩
      have hbound := hdays d hd
      obtain rfl : d = iso := by omega
      exact hd
  · simp only [if_neg heq]
    by_cases hlt : fromMin < toMin
    · -- inside of a day
      simp only [if_pos hlt, Bool.and_eq_true, decide_eq_true_eq]
      constructor
      · rintro ⟨⟨hmem, hlow⟩, hhigh⟩
        exact ⟨iso, hmem, (iso - 1) * 1440 + m, by omega, by omega, by omega⟩
      · rintro ⟨d, hd, x, hlow, hhigh, hmod⟩
        have hbound := hdays d hd
        obtain rfl : d = iso := by omega
        exact ⟨⟨hd, by omega⟩, by omega⟩
    · -- over midnight: the evening of a day of the rule, or the morning after one
      have hgt : toMin < fromMin := by omega
      simp only [if_neg hlt, if_pos hgt, Bool.or_eq_true, Bool.and_eq_true, decide_eq_true_eq]
      constructor
      · rintro (⟨hmem, hlow⟩ | ⟨hmem, hhigh⟩)
        · exact ⟨iso, hmem, (iso - 1) * 1440 + m, by omega, by omega, by omega⟩
        · by_cases hmonday : iso = 1
          · rw [if_pos hmonday] at hmem
            exact ⟨7, hmem, 10080 + m, by omega, by omega, by omega⟩
          · rw [if_neg hmonday] at hmem
            exact ⟨iso - 1, hmem, (iso - 1) * 1440 + m, by omega, by omega, by omega⟩
      · rintro ⟨d, hd, x, hlow, hhigh, hmod⟩
        have hbound := hdays d hd
        by_cases hsame : d = iso
        · subst hsame
          left
          exact ⟨hd, by omega⟩
        · right
          have hprev : d = if iso = 1 then 7 else iso - 1 := by
            split <;> omega
          rw [← hprev]
          exact ⟨hd, by omega⟩

/-! ## The rule as it was sent -/

/-- Two digits. -/
def twoDigits (n : Nat) : Text := [Nat.digitChar (n / 10), Nat.digitChar (n % 10)]

/-- A time as `HH:MM`, which is so many minutes after midnight. -/
def ClockTime (v : Json) (minutes : Nat) : Prop :=
  ∃ hour minute, hour < 24 ∧ minute < 60 ∧ v = .str (twoDigits hour ++ ':' :: twoDigits minute) ∧
    minutes = hour * 60 + minute

/-- A day of the week is among the first seven entries of the rule. -/
def ChosenDay (raw : Json) (d : Nat) : Prop :=
  1 ≤ d ∧ d ≤ 7 ∧ .num d ∈ (raw.field "days").items.take 7

theorem digit_cases {c : Char} (h : isDigit c = true) :
    digit c < 10 ∧ c = Nat.digitChar (digit c) := by
  have hdigit : c.isDigit = true := by
    simpa [isDigit, Char.isDigit, Char.le_def] using h
  obtain ⟨hlt, hchar⟩ := digitChar_eq hdigit
  exact ⟨hlt, hchar.symm⟩

theorem twoDigits_of_digits {a b : Char} (ha : isDigit a = true) (hb : isDigit b = true) :
    [a, b] = twoDigits (digit a * 10 + digit b) := by
  obtain ⟨_, ha'⟩ := digit_cases ha
  obtain ⟨hlt, hb'⟩ := digit_cases hb
  have hdiv : (digit a * 10 + digit b) / 10 = digit a := by omega
  have hmod : (digit a * 10 + digit b) % 10 = digit b := by omega
  rw [twoDigits, hdiv, hmod, ← ha', ← hb']

theorem clockTime_of_timeOfDay {t : Text} {m : Nat} (h : timeOfDay t = some m) :
    ClockTime (.str t) m := by
  unfold timeOfDay at h
  split at h
  · rename_i h1 h2 m1 m2
    dsimp only at h
    split at h
    · rename_i hok
      obtain ⟨hhour, hlow, hhigh, hm2⟩ := hok
      obtain rfl := Option.some.inj h
      have hdigit : ∀ c : Char, '0' ≤ c → c ≤ '9' → isDigit c = true := by
        intro c hc hc'
        simp [isDigit, hc, hc']
      have hnine : ∀ c d : Char, c ≤ d → d ≤ '9' → c ≤ '9' := fun c d h h' => Char.le_trans h h'
      -- `[0-5]\d`: two digits below 60
      have hm1 : isDigit m1 = true := hdigit m1 hlow (hnine m1 '5' hhigh (by decide))
      have hm1' : digit m1 ≤ 5 := by
        have hle : m1.toNat ≤ 53 := hhigh
        have heq : digit m1 = m1.toNat - 48 := rfl
        omega
      -- `[01]\d` or `2[0-3]`: two digits below 24
      obtain ⟨hd1, hd2, hhours⟩ : isDigit h1 = true ∧ isDigit h2 = true ∧
          digit h1 * 10 + digit h2 < 24 := by
        rcases hhour with ⟨rfl | rfl, hd2⟩ | ⟨rfl, hlow2, hhigh2⟩
        · have hlt := (digit_cases hd2).1
          exact ⟨by decide, hd2, by rw [show digit '0' = 0 from rfl]; omega⟩
        · have hlt := (digit_cases hd2).1
          exact ⟨by decide, hd2, by rw [show digit '1' = 1 from rfl]; omega⟩
        · have hle : h2.toNat ≤ 51 := hhigh2
          have heq : digit h2 = h2.toNat - 48 := rfl
          exact ⟨by decide, hdigit h2 hlow2 (hnine h2 '3' hhigh2 (by decide)),
            by rw [show digit '2' = 2 from rfl]; omega⟩
      have hlt := (digit_cases hm2).1
      refine ⟨digit h1 * 10 + digit h2, digit m1 * 10 + digit m2, hhours, by omega, ?_, rfl⟩
      rw [← twoDigits_of_digits hd1 hd2, ← twoDigits_of_digits hm1 hm2]
      rfl
    · cases h
  · cases h

theorem minutes_eq_some {v : Json} {allow24 : Bool} {m : Nat} (h : minutes v allow24 = some m) :
    ClockTime v m ∨ allow24 = true ∧ v = .str "24:00".toList ∧ m = 1440 := by
  obtain ⟨t, ht, hm⟩ := Option.bind_eq_some_iff.1 h
  cases v with
  | str s =>
      cases ht
      split at hm
      · rename_i h24
        exact Or.inr ⟨h24.1, congrArg Json.str h24.2, (Option.some.inj hm).symm⟩
      · exact Or.inl (clockTime_of_timeOfDay hm)
  | _ =>
      cases ht

theorem weekday_eq_some {v : Json} {d : Nat} :
    weekday v = some d ↔ 1 ≤ d ∧ d ≤ 7 ∧ v = .num d := by
  cases v with
  | num q =>
      simp only [weekday, Json.num.injEq]
      constructor
      · intro h
        split at h
        · rename_i hq
          obtain ⟨hden, hlow, hhigh⟩ := hq
          obtain rfl := Option.some.inj h
          -- a number without a denominator is its numerator
          have hnum : q = (q.num : ℚ) := (Rat.den_eq_one_iff q).1 hden ▸ rfl
          have hlow' : 1 ≤ q.num := by
            rw [hnum] at hlow
            exact_mod_cast hlow
          have hhigh' : q.num ≤ 7 := by
            rw [hnum] at hhigh
            exact_mod_cast hhigh
          have hnat : ((q.num.toNat : ℕ) : ℤ) = q.num := Int.toNat_of_nonneg (by omega)
          refine ⟨by omega, by omega, ?_⟩
          rw [hnum]
          exact_mod_cast hnat.symm
        · cases h
      · rintro ⟨hlow, hhigh, rfl⟩
        rw [if_pos]
        · simp
        · refine ⟨by simp, ?_, ?_⟩
          · exact_mod_cast hlow
          · exact_mod_cast hhigh
  | _ =>
      simp [weekday]

/-- What an accepted rule says. -/
theorem normalizeSchedule_fields {host : UnicodeHost} {catKeys : List Text} {raw : Json}
    {s : Schedule} (h : normalizeSchedule host catKeys raw = some s) :
    (∀ d, d ∈ s.days ↔ ChosenDay raw d) ∧ minutes (raw.field "from") false = some s.fromMin ∧
      minutes (raw.field "to") true = some s.toMin := by
  simp only [normalizeSchedule] at h
  split at h
  · rename_i fromMin toMin hfrom hto
    split at h
    · cases h
    · cases h
      refine ⟨fun d => ?_, hfrom, hto⟩
      rw [(List.mergeSort_perm _ _).mem_iff, List.mem_eraseDups, List.mem_filterMap]
      constructor
      · rintro ⟨v, hv, hd⟩
        obtain ⟨hlow, hhigh, rfl⟩ := weekday_eq_some.1 hd
        exact ⟨hlow, hhigh, hv⟩
      · rintro ⟨hlow, hhigh, hv⟩
        exact ⟨_, hv, weekday_eq_some.2 ⟨hlow, hhigh, rfl⟩⟩
  · cases h

/-- An accepted rule has two times `HH:MM`, the second one maybe 24:00; and it is in force in the
minutes of the week in which the interval of one of its days is. -/
theorem scheduleActive_iff {host : UnicodeHost} {catKeys : List Text} {raw : Json} {s : Schedule}
    (h : normalizeSchedule host catKeys raw = some s) :
    ∃ fromMin toMin, ClockTime (raw.field "from") fromMin ∧
      (ClockTime (raw.field "to") toMin ∨
        raw.field "to" = .str "24:00".toList ∧ toMin = minutesPerDay) ∧
      ∀ day hour minute, day ≤ 6 → hour < 24 → minute < 60 →
        (scheduleActive s.days s.fromMin s.toMin ⟨day, hour * 60 + minute⟩ = true ↔
          ∃ d, ChosenDay raw d ∧
            BlockedOn fromMin toMin d (minuteOfWeek ⟨day, hour * 60 + minute⟩)) := by
  obtain ⟨hdays, hfrom, hto⟩ := normalizeSchedule_fields h
  -- 24:00 is only accepted as an end
  have hfrom' : ClockTime (raw.field "from") s.fromMin := by
    rcases minutes_eq_some hfrom with hclock | ⟨hfalse, _⟩
    · exact hclock
    · cases hfalse
  have hto' : ClockTime (raw.field "to") s.toMin ∨
      raw.field "to" = .str "24:00".toList ∧ s.toMin = minutesPerDay :=
    (minutes_eq_some hto).imp id fun h24 => h24.2
  have hclock : ∀ v m, ClockTime v m → m < minutesPerDay := by
    rintro v m ⟨hour, minute, hhour, hminute, _, rfl⟩
    simp only [minutesPerDay]
    omega
  have htoLe : s.toMin ≤ minutesPerDay := by
    rcases hto' with hlt | ⟨_, heq⟩
    · exact Nat.le_of_lt (hclock _ _ hlt)
    · exact Nat.le_of_eq heq
  refine ⟨s.fromMin, s.toMin, hfrom', hto', fun day hour minute hday hhour hminute => ?_⟩
  have hbound : ∀ d ∈ s.days, 1 ≤ d ∧ d ≤ 7 := fun d hd =>
    ⟨((hdays d).1 hd).1, ((hdays d).1 hd).2.1⟩
  have hlt : hour * 60 + minute < minutesPerDay := by
    simp only [minutesPerDay]
    omega
  rw [scheduleActive_iff_blockedOn hbound (hclock _ _ hfrom') htoLe hday hlt]
  simp only [hdays]

/-- Nights from Sunday to Monday. -/
def sundayNight : Json :=
  .obj [("days".toList, .arr [.num 7]), ("from".toList, .str "21:30".toList),
    ("to".toList, .str "06:00".toList), ("block".toList, .str "all".toList)]

theorem scheduleActive_sundayNight :
    normalizeSchedule .ascii [] sundayNight = some ⟨[7], 1290, 360, .all, [], []⟩ ∧
      ∃ fromMin toMin, ClockTime (sundayNight.field "from") fromMin ∧
        (ClockTime (sundayNight.field "to") toMin ∨
          sundayNight.field "to" = .str "24:00".toList ∧ toMin = minutesPerDay) ∧
        (scheduleActive [7] 1290 360 ⟨1, 5 * 60 + 59⟩ = true ↔
          ∃ d, ChosenDay sundayNight d ∧ BlockedOn fromMin toMin d (minuteOfWeek ⟨1, 5 * 60 + 59⟩)) := by
  have hnormal : normalizeSchedule .ascii [] sundayNight = some ⟨[7], 1290, 360, .all, [], []⟩ := by
    decide +kernel
  obtain ⟨fromMin, toMin, hfrom, hto, hactive⟩ := scheduleActive_iff hnormal
  exact ⟨hnormal, fromMin, toMin, hfrom, hto,
    hactive 1 5 59 (by decide) (by decide) (by decide)⟩

end Dns
end GateControl
