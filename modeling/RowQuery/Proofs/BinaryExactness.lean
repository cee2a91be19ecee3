import RowQuery.Binary

/-!
Numbers that a binary format holds exactly. Each of them has one form `± m · 2 ^ e` in the format, with as many bits
as the format keeps unless the exponent is the lowest one, and its pattern is made from that form. Rounding a quotient
that is such a number finds its exponent from the lengths of the two parts, so the nearest pattern to the number is its
own. A number of the short format has a form in the long one, and comes back from it as it was.
-/

namespace RowQuery

/-- The form of a number in a format: all bits are used unless the exponent is the lowest one, and the number is not
too large. -/
structure Format.Canonical (f : Format) (m : Nat) (e : Int) : Prop where
  lowest_le : f.lowest ≤ e
  lt_bound : m < 2 ^ (f.fraction + 1)
  normal : f.lowest < e → 2 ^ f.fraction ≤ m
  lt_infinite : (e - f.lowest).toNat * 2 ^ f.fraction + m < f.infinite

theorem Format.Canonical.eq_lowest {f : Format} {m : Nat} {e : Int} (h : f.Canonical m e) (hm : m < 2 ^ f.fraction) :
    e = f.lowest := by
  have hlowest := h.lowest_le
  have hnormal := h.normal
  omega

namespace Binary

variable {f g : Format} {s : Bool} {m n d k : Nat} {e : Int}

/-! ### Patterns and their parts -/

theorem infinite_add (f : Format) : f.infinite + 2 ^ f.fraction = 2 ^ (f.width - 1) := by
  have hwidth : f.width - 1 = f.exponent + f.fraction := by
    rw [Format.width]
    omega
  have hpos := Nat.two_pow_pos f.exponent
  have hsplit : 2 ^ f.exponent - 1 + 1 = 2 ^ f.exponent := by omega
  rw [hwidth, Nat.pow_add, Format.infinite, ← Nat.succ_mul, Nat.succ_eq_add_one, hsplit]

theorem two_pow_width (f : Format) : 2 ^ f.width = 2 * 2 ^ (f.width - 1) := by
  have hwidth : f.width = f.width - 1 + 1 := by
    rw [Format.width]
    omega
  rw [hwidth, Nat.pow_succ, Nat.mul_comm, Nat.add_sub_cancel]

theorem toNat_ofMagnitude (h : k < 2 ^ (f.width - 1)) :
    (ofMagnitude s k : Binary f).bits.toNat = (if s then 2 ^ (f.width - 1) else 0) + k := by
  have hwidth := two_pow_width f
  rw [ofMagnitude, BitVec.toNat_ofNat]
  apply Nat.mod_eq_of_lt
  split <;> omega

theorem magnitude_ofMagnitude (h : k < 2 ^ (f.width - 1)) : (ofMagnitude s k : Binary f).magnitude = k := by
  rw [magnitude, toNat_ofMagnitude h]
  split
  · rw [Nat.add_mod_left, Nat.mod_eq_of_lt h]
  · rw [Nat.zero_add, Nat.mod_eq_of_lt h]

theorem negative_ofMagnitude (h : k < 2 ^ (f.width - 1)) : (ofMagnitude s k : Binary f).negative = s := by
  rw [negative, toNat_ofMagnitude h]
  cases s with
  | false => simpa using h
  | true => simp

/-- A pattern is made of its sign and its magnitude. -/
theorem ofMagnitude_magnitude (x : Binary f) : ofMagnitude x.negative x.magnitude = x := by
  obtain ⟨bits⟩ := x
  rw [Binary.mk.injEq]
  apply BitVec.eq_of_toNat_eq
  have hlt := bits.isLt
  have hwidth := two_pow_width f
  have hmod := Nat.mod_lt bits.toNat (Nat.two_pow_pos (f.width - 1))
  have hparts := toNat_ofMagnitude (s := negative ⟨bits⟩) hmod
  refine Eq.trans hparts ?_
  by_cases hsign : 2 ^ (f.width - 1) ≤ bits.toNat
  · simp only [negative, hsign, decide_true, if_true]
    rw [Nat.mod_eq_sub_mod hsign, Nat.mod_eq_of_lt (by omega)]
    omega
  · simp only [negative, hsign, decide_false, Bool.false_eq_true, if_false]
    rw [Nat.zero_add, Nat.mod_eq_of_lt (by omega)]

/-- The pattern of a number in its form. -/
def ofParts (s : Bool) (m : Nat) (e : Int) : Binary f :=
  ofMagnitude s ((e - f.lowest).toNat * 2 ^ f.fraction + m)

theorem view_ofParts (h : f.Canonical m e) : (ofParts s m e : Binary f).view = .finite s m e := by
  have hlt := h.lt_infinite
  have hpos := Nat.two_pow_pos f.fraction
  have hwidth : (e - f.lowest).toNat * 2 ^ f.fraction + m < 2 ^ (f.width - 1) := by
    have := infinite_add f
    omega
  simp only [view, ofParts, magnitude_ofMagnitude hwidth, negative_ofMagnitude hwidth]
  rw [if_neg (by omega), if_neg (by omega), Nat.mul_comm, Nat.mul_add_div hpos, Nat.mul_add_mod]
  by_cases hsmall : m < 2 ^ f.fraction
  · rw [Nat.div_eq_of_lt hsmall, Nat.mod_eq_of_lt hsmall, h.eq_lowest hsmall, Int.sub_self]
    rfl
  · have hbound := h.lt_bound
    rw [Nat.pow_succ] at hbound
    have hdiv : m / 2 ^ f.fraction = 1 := Nat.div_eq_of_lt_le (by omega) (by omega)
    have hmod : m % 2 ^ f.fraction + 2 ^ f.fraction = m := by
      have := Nat.div_add_mod m (2 ^ f.fraction)
      rw [hdiv] at this
      omega
    have hexponent : f.lowest + ((e - f.lowest).toNat + 1 - 1 : Nat) = e := by
      have := h.lowest_le
      omega
    rw [hdiv, if_neg (Nat.succ_ne_zero _), hmod, hexponent]

/-- A pattern that stands for a number is made of the number's form. -/
theorem exists_parts {x : Binary f} (h : x.view = .finite s m e) : f.Canonical m e ∧ x = ofParts s m e := by
  have hpos := Nat.two_pow_pos f.fraction
  have hsplit := Nat.div_add_mod x.magnitude (2 ^ f.fraction)
  have hmod := Nat.mod_lt x.magnitude hpos
  have hself := ofMagnitude_magnitude x
  simp only [view] at h
  split at h
  · cases h
  · split at h
    · cases h
    · have hlt : x.magnitude < f.infinite := by omega
      split at h
      · rename_i hzero
        cases h
        rw [hzero, Nat.mul_zero, Nat.zero_add] at hsplit
        refine ⟨⟨Int.le_refl _, by rw [Nat.pow_succ]; omega, fun hlow => absurd hlow (Int.lt_irrefl _), ?_⟩, ?_⟩
        · simpa [hsplit] using hlt
        · rw [ofParts, hsplit, Int.sub_self, Int.toNat_zero, Nat.zero_mul, Nat.zero_add, hself]
      · rename_i hnonzero
        cases h
        have hparts : (f.lowest + ((x.magnitude / 2 ^ f.fraction - 1 : Nat) : Int) - f.lowest).toNat * 2 ^ f.fraction +
            (x.magnitude % 2 ^ f.fraction + 2 ^ f.fraction) = x.magnitude := by
          rw [Int.add_comm, Int.add_sub_cancel, Int.toNat_natCast, Nat.sub_mul, Nat.one_mul, Nat.mul_comm]
          have hle := Nat.le_mul_of_pos_right (2 ^ f.fraction) (Nat.pos_of_ne_zero hnonzero)
          omega
        refine ⟨⟨Int.le_add_of_nonneg_right (Int.natCast_nonneg _), ?_, fun _ => by omega, by omega⟩, ?_⟩
        · rw [Nat.pow_succ]
          omega
        · rw [ofParts, hparts, hself]

theorem view_nan (h : 0 < f.fraction) : (nan s : Binary f).view = .nan s := by
  have hhalf : 2 ^ (f.fraction - 1) < 2 ^ f.fraction := Nat.pow_lt_pow_right (by decide) (by omega)
  have hpos := Nat.two_pow_pos (f.fraction - 1)
  have hwidth : f.infinite + 2 ^ (f.fraction - 1) < 2 ^ (f.width - 1) := by
    have := infinite_add f
    omega
  rw [view, nan, magnitude_ofMagnitude hwidth, negative_ofMagnitude hwidth]
  exact if_pos (by omega)

theorem view_infinity : (infinity s : Binary f).view = .infinite s := by
  have hwidth : f.infinite < 2 ^ (f.width - 1) := by
    have := infinite_add f
    have := Nat.two_pow_pos f.fraction
    omega
  rw [view, infinity, magnitude_ofMagnitude hwidth, negative_ofMagnitude hwidth]
  simp only [Nat.lt_irrefl, if_false, if_true]

/-! ### The nearest pattern -/

/-- Whether `n / d < 2 ^ k`. -/
def Below (n d : Nat) (k : Int) : Prop := n * 2 ^ (-k).toNat < d * 2 ^ k.toNat

theorem below_iff {n d : Nat} {k : Int} (a b : Nat) (h : (a : Int) - b = k) :
    Below n d k ↔ n * 2 ^ b < d * 2 ^ a := by
  obtain ⟨t, ha, hb⟩ : ∃ t, a = k.toNat + t ∧ b = (-k).toNat + t := ⟨a - k.toNat, by omega, by omega⟩
  rw [ha, hb, Nat.pow_add, Nat.pow_add, ← Nat.mul_assoc, ← Nat.mul_assoc]
  exact (Nat.mul_lt_mul_right (Nat.two_pow_pos t)).symm

theorem Below.mono {n d : Nat} {j k : Int} (h : Below n d j) (hjk : j ≤ k) : Below n d k := by
  obtain ⟨t, ht⟩ : ∃ t : Nat, k = j + t := ⟨(k - j).toNat, by omega⟩
  rw [below_iff (j.toNat + t) (-j).toNat (by omega), Nat.pow_add, ← Nat.mul_assoc]
  exact Nat.lt_of_lt_of_le h (Nat.le_mul_of_pos_right _ (Nat.two_pow_pos t))

/-- The lengths of two numbers tell the size of their quotient up to a factor of two. -/
theorem below_log2 (hn : n ≠ 0) (hd : d ≠ 0) :
    Below n d (n.log2 - d.log2 + 1) ∧ ¬ Below n d (n.log2 - d.log2 - 1) := by
  constructor
  · rw [below_iff (n.log2 + 1) d.log2 (by omega), Nat.mul_comm d]
    exact Nat.mul_lt_mul_of_lt_of_le Nat.lt_log2_self (Nat.log2_self_le hd) (Nat.pos_of_ne_zero hd)
  · rw [below_iff n.log2 (d.log2 + 1) (by omega), Nat.not_lt, Nat.mul_comm d]
    exact Nat.mul_le_mul (Nat.log2_self_le hn) (Nat.le_of_lt Nat.lt_log2_self)

theorem divideHalfEven_mul (hd : 0 < d) : divideHalfEven (m * d) d = m := by
  simp only [divideHalfEven, Nat.mul_div_cancel m hd, Nat.mul_mod_left]
  rw [Nat.mul_zero, if_pos hd]

/-- The test that rounding makes tells between which powers of two a quotient lies. -/
theorem exists_place (f : Format) (hn : n ≠ 0) (hd : d ≠ 0) :
    let guess : Int := n.log2 - d.log2 - f.fraction
    let small := n * 2 ^ (-guess).toNat < 2 ^ f.fraction * (d * 2 ^ guess.toNat)
    ∃ p : Int, (if small then guess - 1 else guess) = p - f.fraction ∧ Below n d (p + 1) ∧ ¬ Below n d p := by
  intro guess small
  have hsmall : small ↔ Below n d (guess + f.fraction) := by
    rw [below_iff (guess.toNat + f.fraction) (-guess).toNat (by omega), Nat.pow_add, ← Nat.mul_assoc d,
      Nat.mul_comm _ (2 ^ f.fraction)]
  obtain ⟨hupper, hlower⟩ := below_log2 hn hd
  by_cases htest : small
  · rw [if_pos htest]
    refine ⟨guess + f.fraction - 1, by omega, (hsmall.mp htest).mono (by omega), fun hbelow => ?_⟩
    exact hlower (hbelow.mono (by omega))
  · rw [if_neg htest]
    exact ⟨guess + f.fraction, by omega, hupper.mono (by omega), fun hbelow => htest (hsmall.mpr hbelow)⟩

/-- A quotient that is `m · 2 ^ e` is below the powers of two that `m` says. -/
theorem below_of_eq (hd : 0 < d) (heq : n * 2 ^ (-e).toNat = m * (d * 2 ^ e.toNat)) (t : Nat) :
    Below n d (e + t) ↔ m < 2 ^ t := by
  rw [below_iff (e.toNat + t) (-e).toNat (by omega), heq, Nat.pow_add, ← Nat.mul_assoc d,
    Nat.mul_comm (d * 2 ^ e.toNat)]
  exact Nat.mul_lt_mul_right (Nat.mul_pos hd (Nat.two_pow_pos _))

/-- Rounding finds the exponent of a number in its form. -/
theorem exponent_eq (h : f.Canonical m e) (hn : n ≠ 0) (hd : 0 < d)
    (heq : n * 2 ^ (-e).toNat = m * (d * 2 ^ e.toNat)) :
    let guess : Int := n.log2 - d.log2 - f.fraction
    let small := n * 2 ^ (-guess).toNat < 2 ^ f.fraction * (d * 2 ^ guess.toNat)
    max f.lowest (if small then guess - 1 else guess) = e := by
  intro guess small
  obtain ⟨p, hp, hbelow, hnot⟩ := exists_place f hn (Nat.ne_of_gt hd)
  rw [hp]
  have hform := below_of_eq hd heq
  have hbound : Below n d (e + (f.fraction + 1 : Nat)) := (hform (f.fraction + 1)).mpr h.lt_bound
  have hle : p ≤ e + f.fraction := Int.not_lt.mp fun hgt => hnot (hbound.mono (by omega))
  have hlowest := h.lowest_le
  by_cases hsmall : m < 2 ^ f.fraction
  · -- the number is too small for the place of its first bit to count
    have hleast := h.eq_lowest hsmall
    have hlt : p < e + f.fraction := Int.not_le.mp fun hge => hnot (((hform _).mpr hsmall).mono hge)
    omega
  · have hge : e + f.fraction ≤ p := Int.not_lt.mp fun hlt => hsmall ((hform _).mp (hbelow.mono (by omega)))
    omega

/-- A number that a format holds is the nearest one to itself. -/
theorem nearest_eq (h : f.Canonical m e) (hd : 0 < d) (heq : n * 2 ^ (-e).toNat = m * (d * 2 ^ e.toNat)) :
    (nearest s n d : Binary f) = ofParts s m e := by
  have hzero : n = 0 ↔ m = 0 := by
    have hleft := Nat.two_pow_pos (-e).toNat
    have hright := Nat.mul_pos hd (Nat.two_pow_pos e.toNat)
    constructor
    · rintro rfl
      rw [Nat.zero_mul] at heq
      exact (Nat.mul_eq_zero.mp heq.symm).resolve_right (Nat.ne_of_gt hright)
    · rintro rfl
      rw [Nat.zero_mul] at heq
      exact (Nat.mul_eq_zero.mp heq).resolve_right (Nat.ne_of_gt hleft)
  by_cases hn : n = 0
  · obtain rfl := hzero.mp hn
    rw [nearest, if_pos hn, zero, ofParts, h.eq_lowest (Nat.two_pow_pos _), Int.sub_self, Int.toNat_zero, Nat.zero_mul]
  · have hexponent := exponent_eq h hn hd heq
    simp only [nearest, if_neg hn] at hexponent ⊢
    rw [hexponent, heq, divideHalfEven_mul (Nat.mul_pos hd (Nat.two_pow_pos _)),
      Nat.min_eq_right (Nat.le_of_lt h.lt_infinite)]
    rfl

/-- So it is also in a form with more bits. -/
theorem ofDyadic_shifted (h : f.Canonical m e) (t : Nat) :
    (ofDyadic s (m * 2 ^ t) (e - t) : Binary f) = ofParts s m e := by
  apply nearest_eq h (Nat.two_pow_pos _)
  rw [Nat.mul_assoc, Nat.mul_assoc, ← Nat.pow_add, ← Nat.pow_add, ← Nat.pow_add]
  congr 2
  omega

/-- And in a form with fewer bits. -/
theorem ofDyadic_unshifted {t : Nat} (h : f.Canonical (m * 2 ^ t) (e - t)) :
    (ofDyadic s m e : Binary f) = ofParts s (m * 2 ^ t) (e - t) := by
  apply nearest_eq h (Nat.two_pow_pos _)
  rw [Nat.mul_assoc, Nat.mul_assoc, ← Nat.pow_add, ← Nat.pow_add, ← Nat.pow_add]
  congr 2
  omega

/-! ### There and back again -/

/-- A pattern stands for no number, for an infinity or for a number, each time with its own sign. -/
theorem view_cases (x : Binary f) : (x.isNan = true ∧ x.view = .nan x.negative) ∨ (x.isNan = false ∧
    (x = infinity x.negative ∨ ∃ m e, x.view = .finite x.negative m e)) := by
  by_cases hnan : f.infinite < x.magnitude
  · exact Or.inl ⟨decide_eq_true hnan, if_pos hnan⟩
  · refine Or.inr ⟨decide_eq_false hnan, ?_⟩
    by_cases hinfinite : x.magnitude = f.infinite
    · rw [infinity, ← hinfinite, ofMagnitude_magnitude]
      exact Or.inl rfl
    · simp only [view, if_neg hnan, if_neg hinfinite]
      split <;> exact Or.inr ⟨_, _, rfl⟩

/-- If the numbers of a format have forms in another one, they come back from it as they were; what is no number keeps
its sign. -/
theorem convert_convert (hg : 0 < g.fraction)
    (h : ∀ m e, f.Canonical m e → ∃ t : Nat, g.Canonical (m * 2 ^ t) (e - t)) (x : Binary f) :
    ((x.convert : Binary g).convert : Binary f) = if x.isNan then nan x.negative else x := by
  rcases view_cases x with ⟨hnan, hview⟩ | ⟨hnan, hinfinity | ⟨m, e, hview⟩⟩
  · simp only [convert, hview, view_nan hg, hnan, if_true]
  · rw [hnan, hinfinity]
    simp only [convert, view_infinity, Bool.false_eq_true, if_false]
  · obtain ⟨hcanonical, hx⟩ := exists_parts hview
    obtain ⟨t, hcanonical'⟩ := h m e hcanonical
    have hwide : (x.convert : Binary g) = ofParts x.negative (m * 2 ^ t) (e - t) := by
      rw [convert, hview]
      exact ofDyadic_unshifted hcanonical'
    rw [hwide, convert, view_ofParts hcanonical', hnan]
    exact (ofDyadic_shifted hcanonical t).trans hx.symm

/-- The numbers of the short format have forms in the long one. -/
theorem exists_canonical_double (h : Format.single.Canonical m e) :
    ∃ t : Nat, Format.double.Canonical (m * 2 ^ t) (e - t) := by
  have hsingle : Format.single.lowest = -149 ∧ Format.single.infinite = 255 * 2 ^ 23 := by decide
  have hdouble : Format.double.lowest = -1074 ∧ Format.double.infinite = 2047 * 2 ^ 52 := by decide
  have hdouble' : Format.double.fraction = 52 := rfl
  obtain ⟨hlowest, hbound, hnormal, hinfinite⟩ := h
  rw [hsingle.1] at hlowest hnormal hinfinite
  rw [hsingle.2] at hinfinite
  simp only [Format.single] at hbound hnormal hinfinite
  by_cases hm : m = 0
  · refine ⟨(e + 1074).toNat, ?_⟩
    rw [hm, Nat.zero_mul]
    refine ⟨by rw [hdouble.1]; omega, Nat.two_pow_pos _, fun hlow => ?_, ?_⟩
    · rw [hdouble.1] at hlow
      omega
    · have hexponent : (e - (e + 1074).toNat - -1074).toNat = 0 := by omega
      rw [hdouble.1, hdouble.2, hexponent, Nat.zero_mul]
      decide
  · have hlength : m.log2 < 24 := (Nat.log2_lt hm).mpr hbound
    have hlow : 2 ^ 52 ≤ m * 2 ^ (52 - m.log2) := by
      calc 2 ^ 52 = 2 ^ m.log2 * 2 ^ (52 - m.log2) := by rw [← Nat.pow_add]; congr 1; omega
        _ ≤ m * 2 ^ (52 - m.log2) := Nat.mul_le_mul_right _ (Nat.log2_self_le hm)
    have hhigh : m * 2 ^ (52 - m.log2) < 2 ^ 53 := by
      calc m * 2 ^ (52 - m.log2) < 2 ^ (m.log2 + 1) * 2 ^ (52 - m.log2) :=
            Nat.mul_lt_mul_of_pos_right Nat.lt_log2_self (Nat.two_pow_pos _)
        _ = 2 ^ 53 := by rw [← Nat.pow_add]; congr 1; omega
    refine ⟨52 - m.log2, by rw [hdouble.1]; omega, hhigh, fun _ => hlow, ?_⟩
    have hexponent : (e - (52 - m.log2 : Nat) - -1074).toNat ≤ 1179 := by omega
    rw [hdouble.1, hdouble.2, hdouble']
    calc (e - (52 - m.log2 : Nat) - -1074).toNat * 2 ^ 52 + m * 2 ^ (52 - m.log2)
      _ < 1179 * 2 ^ 52 + 2 ^ 53 := Nat.add_lt_add_of_le_of_lt (Nat.mul_le_mul_right _ hexponent) hhigh
      _ ≤ 2047 * 2 ^ 52 := by decide

theorem convert_convert_single (x : Single) :
    ((x.convert : Double).convert : Single) = if x.isNan then nan x.negative else x :=
  convert_convert (by decide) (fun _ _ => exists_canonical_double) x

end Binary

end RowQuery
