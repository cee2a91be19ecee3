import RowQuery.Proofs.IntegerConversion
import RowQuery.Proofs.MemberOperands

/-!
The components of a length of time. Seconds, minutes and hours are what a division toward zero leaves over, so they
have the sign of the length, and days are what is left after them, as far as a 32-bit word holds that. Together they
make up the whole seconds exactly where the whole days are such a word, and up to full turns of the word anywhere.
-/

namespace RowQuery

open Grammar Lexeme

namespace TimeSpan

/-! ### Division toward zero -/

theorem tdiv_tdiv (n : Int) {a b : Int} (ha : 0 ≤ a) : (n.tdiv a).tdiv b = n.tdiv (a * b) := by
  have hnonneg : ∀ m : Int, 0 ≤ m → (m.tdiv a).tdiv b = m.tdiv (a * b) := by
    intro m hm
    rw [Int.tdiv_eq_ediv_of_nonneg hm, Int.tdiv_eq_ediv_of_nonneg hm,
      Int.tdiv_eq_ediv_of_nonneg (Int.ediv_nonneg hm ha), Int.ediv_ediv_of_nonneg ha]
  rcases Int.le_total 0 n with hn | hn
  · exact hnonneg n hn
  · have hneg := hnonneg (-n) (by omega)
    rw [Int.neg_tdiv, Int.neg_tdiv, Int.neg_tdiv] at hneg
    omega

theorem natAbs_tmod_lt (n : Int) {b : Nat} (hb : 0 < b) : (n.tmod b).natAbs < b := by
  rw [Int.natAbs_tmod, Int.natAbs_natCast]
  exact Nat.mod_lt _ hb

/-- A number that is zero or has the sign of a length of time. -/
def Agrees (d : TimeSpan) (n : Int) : Prop := n = 0 ∨ n.sign = d.nanos.sign

namespace Agrees

variable {d : TimeSpan} {n : Int}

theorem of_sign (h : d.Agrees n) {m : Int} (hm : m.sign = 0 ∨ m.sign = n.sign) : d.Agrees m := by
  rcases hm with hm | hm
  · exact Or.inl (Int.sign_eq_zero_iff_zero.mp hm)
  · rcases h with rfl | h
    · exact Or.inl (Int.sign_eq_zero_iff_zero.mp hm)
    · exact Or.inr (hm.trans h)

theorem tdiv (h : d.Agrees n) {b : Int} (hb : 0 < b) : d.Agrees (n.tdiv b) := by
  refine h.of_sign ?_
  rw [Int.sign_tdiv, Int.sign_eq_one_of_pos hb, Int.mul_one]
  exact ite_eq_or_eq _ _ _

theorem tmod (h : d.Agrees n) (b : Int) : d.Agrees (n.tmod b) := by
  refine h.of_sign ?_
  rw [Int.sign_tmod]
  exact ite_eq_or_eq _ _ _

end Agrees

/-! ### Components -/

variable (d : TimeSpan)

theorem agrees_seconds : d.Agrees d.seconds := by
  have hself : d.Agrees d.nanos := Or.inr rfl
  exact hself.tdiv (by decide)

theorem agrees_hours : d.Agrees d.hours := (d.agrees_seconds.tdiv (by decide)).tmod 24

theorem agrees_minutes : d.Agrees d.minutes := (d.agrees_seconds.tdiv (by decide)).tmod 60

theorem agrees_secondsOfMinute : d.Agrees d.secondsOfMinute := d.agrees_seconds.tmod 60

/-- Whole days, hours, minutes and seconds make up the whole seconds. -/
theorem seconds_eq :
    ((d.seconds.tdiv 86400 * 24 + d.hours) * 60 + d.minutes) * 60 + d.secondsOfMinute = d.seconds := by
  have hday : (d.seconds.tdiv 3600).tdiv 24 = d.seconds.tdiv (3600 * 24) := tdiv_tdiv d.seconds (by decide)
  have hhour : (d.seconds.tdiv 60).tdiv 60 = d.seconds.tdiv (60 * 60) := tdiv_tdiv d.seconds (by decide)
  have hhours : d.seconds.tdiv 86400 * 24 + d.hours = d.seconds.tdiv 3600 := by
    rw [show (86400 : Int) = 3600 * 24 from rfl, ← hday]
    exact Int.tdiv_mul_add_tmod _ 24
  have hminutes : d.seconds.tdiv 3600 * 60 + d.minutes = d.seconds.tdiv 60 := by
    rw [show (3600 : Int) = 60 * 60 from rfl, ← hhour]
    exact Int.tdiv_mul_add_tmod _ 60
  calc ((d.seconds.tdiv 86400 * 24 + d.hours) * 60 + d.minutes) * 60 + d.secondsOfMinute
      = (d.seconds.tdiv 3600 * 60 + d.minutes) * 60 + d.secondsOfMinute := by rw [hhours]
    _ = d.seconds.tdiv 60 * 60 + d.secondsOfMinute := by rw [hminutes]
    _ = d.seconds := Int.tdiv_mul_add_tmod _ 60

/-- The word for the days is off by full turns. -/
theorem modulus_dvd_days : IntKind.int32.modulus ∣ d.days.val - d.seconds.tdiv 86400 :=
  Int.dvd_of_emod_eq_zero (Int.emod_eq_emod_iff_emod_sub_eq_zero.mp (Word.wrap_emod .int32 _))

theorem days_eq_iff : d.days.val = d.seconds.tdiv 86400 ↔ IntKind.int32.Holds (d.seconds.tdiv 86400) :=
  ⟨fun h => h ▸ d.days.holds, Word.val_wrap⟩

end TimeSpan

theorem Word.val_wrap_of_small {n : Int} (h : n.natAbs < 60) : (Word.wrap .int32 n).val = n := by
  have hleast : IntKind.int32.least = -2147483648 := by decide
  have hgreatest : IntKind.int32.greatest = 2147483647 := by decide
  exact val_wrap ⟨by omega, by omega⟩

/-! ### Members of a length of time -/

namespace Environment

/-- The 32-bit word that a text about a length of time evaluates to. -/
def Shows (env : Environment) (d : TimeSpan) (text : String) (w : Word .int32) : Prop :=
  ∃ l, env.Compiles [⟨none, .timeSpan⟩] none text [] l ∧
    env.catalog.evalLambda l [.timeSpan d] = .ok (.int .int32 w)

variable (env : Environment)

theorem shows_property (name : String) {d : TimeSpan} {op : Builtin} {text : String} {w : Word .int32}
    (hwhole : Lexeme.Whole ⟨.identifier, name⟩) (hplain : unmarked name = name)
    (hproperty : env.catalog.property? .timeSpan name false = some (Predefined.readOnly name .int32 op))
    (hvalue : Operation.property env.catalog op (.timeSpan d) = .ok (.int .int32 w)) (htext : text = "it." ++ name) :
    env.Shows d text w := by
  have hscans : Scans text.toList [⟨.identifier, "it"⟩, dot, ⟨.identifier, name⟩] := by
    rw [htext, String.toList_append]
    exact (Scans.single hwhole).implicit_member
  have hdenotes := (Scope.Knows.implicit env .timeSpan [] (.timeSpan d)).property rfl hplain hproperty
  obtain ⟨l, hl, hresult⟩ := hdenotes.compiles rfl (by decide) hscans rfl
  exact ⟨l, hl, hresult.trans hvalue⟩

theorem shows_components (d : TimeSpan) :
    env.Shows d "it.Days" d.days ∧ env.Shows d "it.Hours" (.wrap .int32 d.hours) ∧
      env.Shows d "it.Minutes" (.wrap .int32 d.minutes) ∧ env.Shows d "it.Seconds" (.wrap .int32 d.secondsOfMinute) :=
  ⟨env.shows_property "Days" ⟨_, _, rfl, by decide, rfl⟩ (by decide) rfl rfl rfl,
    env.shows_property "Hours" ⟨_, _, rfl, by decide, rfl⟩ (by decide) rfl rfl rfl,
    env.shows_property "Minutes" ⟨_, _, rfl, by decide, rfl⟩ (by decide) rfl rfl rfl,
    env.shows_property "Seconds" ⟨_, _, rfl, by decide, rfl⟩ (by decide) rfl rfl rfl⟩

/-- Hours, minutes and seconds have the sign of the length of time, or are zero, and are less than a day, an hour and a
minute. With the days they make up the whole seconds exactly where the whole days are a 32-bit number; the days then
have that sign, too. Elsewhere the days are off by a multiple of `2 ^ 32`. -/
theorem timeSpan_components (d : TimeSpan) :
    ∃ days hours minutes seconds : Word .int32,
      env.Shows d "it.Days" days ∧ env.Shows d "it.Hours" hours ∧ env.Shows d "it.Minutes" minutes ∧
      env.Shows d "it.Seconds" seconds ∧
      hours.val.natAbs < 24 ∧ minutes.val.natAbs < 60 ∧ seconds.val.natAbs < 60 ∧
      d.Agrees hours.val ∧ d.Agrees minutes.val ∧ d.Agrees seconds.val ∧
      (let total := ((days.val * 24 + hours.val) * 60 + minutes.val) * 60 + seconds.val
       (total = d.seconds ↔ IntKind.int32.Holds (d.seconds.tdiv 86400)) ∧
       (IntKind.int32.Holds (d.seconds.tdiv 86400) → d.Agrees days.val) ∧
       86400 * IntKind.int32.modulus ∣ total - d.seconds) := by
  have hhours : d.hours.natAbs < 24 := TimeSpan.natAbs_tmod_lt _ (by decide)
  have hminutes : d.minutes.natAbs < 60 := TimeSpan.natAbs_tmod_lt _ (by decide)
  have hseconds : d.secondsOfMinute.natAbs < 60 := TimeSpan.natAbs_tmod_lt _ (by decide)
  obtain ⟨hd, hh, hm, hs⟩ := env.shows_components d
  refine ⟨_, _, _, _, hd, hh, hm, hs, ?_⟩
  rw [Word.val_wrap_of_small (Nat.lt_trans hhours (by decide)), Word.val_wrap_of_small hminutes,
    Word.val_wrap_of_small hseconds]
  refine ⟨hhours, hminutes, hseconds, d.agrees_hours, d.agrees_minutes, d.agrees_secondsOfMinute, ?_⟩
  intro total
  have hwhole := d.seconds_eq
  have hoff : total - d.seconds = 86400 * (d.days.val - d.seconds.tdiv 86400) := by omega
  refine ⟨?_, fun hholds => ?_, ?_⟩
  · rw [← d.days_eq_iff]
    omega
  · rw [d.days_eq_iff.mpr hholds]
    exact d.agrees_seconds.tdiv (by decide)
  · rw [hoff]
    exact Int.mul_dvd_mul_left 86400 d.modulus_dvd_days

/-- The components of a day, two hours, three minutes and four seconds and a half, below zero. -/
theorem timeSpan_components_negative :
    let env : Environment := ⟨.empty, .empty⟩
    let d : TimeSpan := ⟨-93784500000000, by decide⟩
    IntKind.int32.Holds (d.seconds.tdiv 86400) ∧ ∃ days hours minutes seconds : Word .int32,
      env.Shows d "it.Days" days ∧ env.Shows d "it.Hours" hours ∧ env.Shows d "it.Minutes" minutes ∧
      env.Shows d "it.Seconds" seconds ∧
      days.val = -1 ∧ hours.val = -2 ∧ minutes.val = -3 ∧ seconds.val = -4 := by
  intro env d
  have hholds : IntKind.int32.Holds (d.seconds.tdiv 86400) := by decide
  have hwhole : d.seconds = -93784 := by decide
  have hnonpos : ∀ {n : Int}, d.Agrees n → n ≤ 0 := by
    rintro n (rfl | hsign)
    · exact Int.le_refl 0
    · exact Int.le_of_lt (Int.sign_eq_neg_one_iff_neg.mp hsign)
  obtain ⟨days, hours, minutes, seconds, hd, hh, hm, hs, hhours, hminutes, hseconds, hhours', hminutes', hseconds',
    htotal, hdays', -⟩ := timeSpan_components env d
  have hsum := htotal.mpr hholds
  have hdays := hnonpos (hdays' hholds)
  have hhours' := hnonpos hhours'
  have hminutes' := hnonpos hminutes'
  have hseconds' := hnonpos hseconds'
  refine ⟨hholds, days, hours, minutes, seconds, hd, hh, hm, hs, ?_⟩
  omega

/-- Of `2 ^ 31` days, the days come out below zero. -/
theorem timeSpan_components_beyond :
    let env : Environment := ⟨.empty, .empty⟩
    let d : TimeSpan := ⟨185542587187200000000000, by decide⟩
    ∃ days hours minutes seconds : Word .int32,
      env.Shows d "it.Days" days ∧ env.Shows d "it.Hours" hours ∧ env.Shows d "it.Minutes" minutes ∧
      env.Shows d "it.Seconds" seconds ∧
      ((days.val * 24 + hours.val) * 60 + minutes.val) * 60 + seconds.val ≠ d.seconds ∧ ¬d.Agrees days.val := by
  intro env d
  obtain ⟨hd, hh, hm, hs⟩ := env.shows_components d
  refine ⟨_, _, _, _, hd, hh, hm, hs, by decide, ?_⟩
  unfold TimeSpan.Agrees
  decide

end Environment

end RowQuery
