import TimedTasks.Time.Unit
/-!
Amounts of time in one unit and in another, and as durations. A unit is a whole number of any finer
one, so a conversion to a finer unit multiplies and one to a coarser unit divides, toward zero. Only
the first can leave the range of amounts. A duration holds any number of nanoseconds up to its
limit, so on the way over a duration nothing is lost below that limit.
-/

namespace TimedTasks

/-! ## Truncation and clamping -/

/-- Whether `r` is the multiple of `k` next to `n`, on the side of zero. -/
structure IsTruncated (n : Int) (k : Nat) (r : Int) : Prop where
  multiple : (k : Int) ∣ r
  between : 0 ≤ r ∧ r ≤ n ∨ n ≤ r ∧ r ≤ 0
  near : (n - r).natAbs < k

theorem isTruncated_tdiv_mul (n : Int) {k : Nat} (hk : 0 < k) : IsTruncated n k (n.tdiv k * k) := by
  have hn : n.tdiv k * k + n.tmod k = n := Int.tdiv_mul_add_tmod n k
  have hk' : (k : Int) ≠ 0 := Int.natCast_ne_zero.mpr (Nat.ne_of_gt hk)
  have hmod : (n.tmod k).natAbs < k := Int.natAbs_tmod n k ▸ Nat.mod_lt _ hk
  refine ⟨Int.dvd_mul_left _ _, ?_, by omega⟩
  rcases Int.le_total 0 n with h | h
  · have hr : 0 ≤ n.tdiv k * k := Int.mul_nonneg (Int.tdiv_nonneg h (by omega)) (by omega)
    have := Int.tmod_nonneg (k : Int) h
    exact .inl ⟨hr, by omega⟩
  · -- both truncate toward zero, so a negative amount is the mirror image
    have hr := Int.mul_nonneg (Int.tdiv_nonneg (Int.neg_nonneg_of_nonpos h) (Int.natCast_nonneg k))
      (Int.natCast_nonneg k)
    have := Int.tmod_nonneg (k : Int) (Int.neg_nonneg_of_nonpos h)
    rw [Int.neg_tdiv, Int.neg_mul] at hr
    rw [Int.neg_tmod] at this
    exact .inr ⟨by omega, by omega⟩

theorem IsTruncated.isAmount {n r : Int} {k : Nat} (h : IsTruncated n k r) (hn : IsAmount n) :
    IsAmount r := by
  have hb := h.between
  unfold IsAmount amountMin amountMax at *
  omega

theorem tdiv_tdiv (n : Int) (k l : Nat) : (n.tdiv k).tdiv l = n.tdiv (k * l) := by
  have h (m : Nat) : ((m : Int).tdiv k).tdiv l = (m : Int).tdiv (k * l) := by
    rw [← Int.natCast_mul, ← Int.ofNat_tdiv, ← Int.ofNat_tdiv, ← Int.ofNat_tdiv,
      Nat.div_div_eq_div_mul]
  obtain ⟨m, rfl | rfl⟩ := n.eq_nat_or_neg
  · exact h m
  · rw [Int.neg_tdiv, Int.neg_tdiv, Int.neg_tdiv, h]

theorem isAmount_tdiv {a : Int} (ha : IsAmount a) (k : Nat) : IsAmount (a.tdiv k) := by
  have hle := Int.natAbs_tdiv_le_natAbs a k
  have hneg : a ≤ 0 → a.tdiv k ≤ 0 := fun h => by
    have := Int.tdiv_nonneg (Int.neg_nonneg_of_nonpos h) (Int.natCast_nonneg k)
    rw [Int.neg_tdiv] at this
    omega
  unfold IsAmount amountMin amountMax at *
  omega

theorem clampAmount_mono {a b : Int} (h : a ≤ b) : clampAmount a ≤ clampAmount b := by
  unfold clampAmount
  omega

theorem clampAmount_of_le {a : Int} (h : a ≤ amountMin) : clampAmount a = amountMin := by
  unfold clampAmount amountMin amountMax at *
  omega

theorem clampAmount_of_ge {a : Int} (h : amountMax ≤ a) : clampAmount a = amountMax := by
  unfold clampAmount amountMin amountMax at *
  omega

/-- An amount that is clamped before it is multiplied is clamped all the same. -/
theorem clampAmount_clampAmount_mul (a : Int) {k : Nat} (hk : 0 < k) :
    clampAmount (clampAmount a * k) = clampAmount (a * k) := by
  rcases Int.lt_or_le a amountMin with hlow | hlow
  · have hmin : amountMin * k ≤ amountMin := by
      unfold amountMin
      omega
    have hle : a * k ≤ amountMin * k :=
      Int.mul_le_mul_of_nonneg_right (Int.le_of_lt hlow) (Int.natCast_nonneg k)
    rw [clampAmount_of_le (Int.le_of_lt hlow), clampAmount_of_le hmin,
      clampAmount_of_le (Int.le_trans hle hmin)]
  rcases Int.lt_or_le amountMax a with hhigh | hhigh
  · have hmax : amountMax ≤ amountMax * k := by
      unfold amountMax
      omega
    have hle : amountMax * k ≤ a * k :=
      Int.mul_le_mul_of_nonneg_right (Int.le_of_lt hhigh) (Int.natCast_nonneg k)
    rw [clampAmount_of_ge (Int.le_of_lt hhigh), clampAmount_of_ge hmax,
      clampAmount_of_ge (Int.le_trans hmax hle)]
  · rw [clampAmount_eq_self ⟨hlow, hhigh⟩]

namespace TimeUnit

/-! ## The units among each other -/

/-- Whether a unit is at least as fine as another. -/
def IsFiner (u v : TimeUnit) : Prop := u.compare v ≠ .gt

instance (u v : TimeUnit) : Decidable (u.IsFiner v) := inferInstanceAs (Decidable (_ ≠ _))

/-- How many of a finer unit make one of this. -/
def ratio (coarse fine : TimeUnit) : Nat := coarse.nanos / fine.nanos

variable {u v w fine coarse : TimeUnit} {a b : Int}

theorem ratio_mul_nanos (h : fine.IsFiner coarse) :
    coarse.ratio fine * fine.nanos = coarse.nanos := by
  revert h
  cases fine <;> cases coarse <;> decide

theorem IsFiner.trans (h : u.IsFiner v) (h' : v.IsFiner w) : u.IsFiner w := by
  unfold IsFiner compare at *
  rw [Nat.compare_ne_gt] at *
  exact Nat.le_trans h h'

theorem ratio_pos (h : fine.IsFiner coarse) : 0 < coarse.ratio fine := by
  refine Nat.pos_of_ne_zero fun h0 => ?_
  have := coarse.nanos_pos
  rw [← ratio_mul_nanos h, h0, Nat.zero_mul] at this
  exact Nat.lt_irrefl 0 this

theorem ratio_mul_ratio (h : u.IsFiner v) (h' : v.IsFiner w) :
    w.ratio v * v.ratio u = w.ratio u := by
  refine Nat.eq_of_mul_eq_mul_right u.nanos_pos ?_
  rw [Nat.mul_assoc, ratio_mul_nanos h, ratio_mul_nanos h', ratio_mul_nanos (h.trans h')]

/-! ## Conversion -/

theorem isAmount_convert (u : TimeUnit) (a : Int) (v : TimeUnit) : IsAmount (u.convert a v) :=
  isAmount_clampAmount _

/-- A conversion to a coarser unit divides, toward zero, and stays in range. -/
theorem convert_to_coarser (h : fine.IsFiner coarse) (ha : IsAmount a) :
    coarse.convert a fine = a.tdiv (coarse.ratio fine) := by
  have hpos : (0 : Int) < fine.nanos := Int.natCast_pos.mpr fine.nanos_pos
  rw [convert, ofNanos, worth, ← ratio_mul_nanos h, Int.natCast_mul,
    Int.mul_tdiv_mul_of_pos_left _ _ hpos, clampAmount_eq_self (isAmount_tdiv ha _)]

/-- A conversion to a finer unit multiplies, and may leave the range. -/
theorem convert_to_finer (h : fine.IsFiner coarse) :
    fine.convert a coarse = clampAmount (a * coarse.ratio fine) := by
  have hpos : (fine.nanos : Int) ≠ 0 := Int.natCast_ne_zero.mpr (Nat.ne_of_gt fine.nanos_pos)
  rw [convert, ofNanos, worth, ← ratio_mul_nanos h, Int.natCast_mul, ← Int.mul_assoc,
    Int.mul_tdiv_cancel _ hpos]

theorem worth_mono (h : a ≤ b) : u.worth a ≤ u.worth b :=
  Int.mul_le_mul_of_nonneg_right h (Int.natCast_nonneg _)

theorem ofNanos_mono (u : TimeUnit) (h : a ≤ b) : u.ofNanos a ≤ u.ofNanos b :=
  clampAmount_mono (Int.tdiv_le_tdiv (Int.natCast_pos.mpr u.nanos_pos) h)

theorem convert_mono (h : a ≤ b) : v.convert a u ≤ v.convert b u := v.ofNanos_mono (worth_mono h)

/-- A unit on the way to a coarser one changes nothing. -/
theorem convert_convert_coarser (h : u.IsFiner v) (h' : v.IsFiner w) (ha : IsAmount a) :
    w.convert (v.convert a u) v = w.convert a u := by
  rw [convert_to_coarser h ha, convert_to_coarser h' (isAmount_tdiv ha _), tdiv_tdiv,
    convert_to_coarser (h.trans h') ha, ← ratio_mul_ratio h h', Int.natCast_mul, Int.mul_comm]

/-- Nor does a unit on the way to a finer one. -/
theorem convert_convert_finer (h : v.IsFiner u) (h' : w.IsFiner v) :
    w.convert (v.convert a u) v = w.convert a u := by
  rw [convert_to_finer h, convert_to_finer h', clampAmount_clampAmount_mul _ (ratio_pos h'),
    convert_to_finer (h'.trans h), ← ratio_mul_ratio h' h, Int.natCast_mul, Int.mul_assoc]

/-- The way to a finer unit and back loses nothing unless the range was left. -/
theorem convert_convert_self_iff (h : fine.IsFiner coarse) :
    coarse.convert (fine.convert a coarse) fine = a ↔ IsAmount (a * coarse.ratio fine) := by
  rw [convert_to_coarser h (isAmount_convert ..), convert_to_finer h]
  constructor
  · intro hback
    have ht := isTruncated_tdiv_mul (clampAmount (a * coarse.ratio fine)) (ratio_pos h)
    rw [hback] at ht
    exact ht.isAmount (isAmount_clampAmount _)
  · intro hfits
    have hpos : (coarse.ratio fine : Int) ≠ 0 :=
      Int.natCast_ne_zero.mpr (Nat.ne_of_gt (ratio_pos h))
    rw [clampAmount_eq_self hfits, Int.mul_tdiv_cancel _ hpos]

/-- The way to a coarser unit and back leaves whole coarser units. -/
theorem isTruncated_convert_convert (h : fine.IsFiner coarse) (ha : IsAmount a) :
    IsTruncated a (coarse.ratio fine) (fine.convert (coarse.convert a fine) coarse) := by
  have ht := isTruncated_tdiv_mul a (ratio_pos h)
  rw [convert_to_finer h, convert_to_coarser h ha, clampAmount_eq_self (ht.isAmount ha)]
  exact ht

/-- No amount is so great that its nanoseconds do not fit 128 bits. -/
theorem isWide_worth (u : TimeUnit) (ha : IsAmount a) : IsWide (u.worth a) := by
  unfold IsAmount amountMin amountMax at ha
  unfold IsWide wideMax worth
  cases u <;> simp only [nanos] <;> omega

/-- The laws of conversion: a greater amount never becomes a smaller one; a unit on the way, from a
finer to a coarser one or back, changes nothing, not even out of range; the way to a finer unit and
back returns the amount exactly when the finer amount is in range, and the way to a coarser unit and
back truncates; and the nanoseconds of an amount always fit their word. -/
theorem convert_laws (ha : IsAmount a) :
    (∀ b, IsAmount b → a ≤ b → ∀ u v : TimeUnit, v.convert a u ≤ v.convert b u) ∧
    (∀ u v w : TimeUnit, u.IsFiner v ∧ v.IsFiner w ∨ v.IsFiner u ∧ w.IsFiner v →
      w.convert (v.convert a u) v = w.convert a u) ∧
    (∀ fine coarse : TimeUnit, fine.IsFiner coarse →
      (coarse.convert (fine.convert a coarse) fine = a ↔ IsAmount (a * coarse.ratio fine)) ∧
      IsTruncated a (coarse.ratio fine) (fine.convert (coarse.convert a fine) coarse)) ∧
    ∀ u v : TimeUnit, IsWide (u.worth a) ∧ IsAmount (v.convert a u) := by
  refine ⟨fun b _ h u v => convert_mono h, ?_, fun fine coarse h => ?_, fun u v => ?_⟩
  · rintro u v w (⟨h, h'⟩ | ⟨h, h'⟩)
    · exact convert_convert_coarser h h' ha
    · exact convert_convert_finer h h'
  · exact ⟨convert_convert_self_iff h, isTruncated_convert_convert h ha⟩
  · exact ⟨isWide_worth u ha, isAmount_convert v a u⟩

/-- An amount that is too great in nanoseconds, and as seconds is no whole number of minutes. -/
theorem convert_laws_leaving :
    IsAmount (-106752) ∧
    nanoseconds.convert (hours.convert (-106752) days) hours = amountMin ∧
    days.convert (nanoseconds.convert (-106752) days) nanoseconds ≠ -106752 ∧
    IsTruncated (-106752) 60 (seconds.convert (minutes.convert (-106752) seconds) minutes) ∧
    minutes.convert (-106752) seconds ≤ minutes.convert 59 seconds ∧
    IsWide (days.worth (-106752)) := by
  obtain ⟨hmono, hchain, hback, hwide⟩ := convert_laws (a := -106752) (by decide)
  refine ⟨by decide, ?_, ?_, (hback seconds minutes (by decide)).2,
    hmono 59 (by decide) (by decide) seconds minutes, (hwide days days).1⟩
  · rw [hchain days hours nanoseconds (by decide)]
    decide
  · rw [Ne, (hback nanoseconds days (by decide)).1]
    decide

end TimeUnit

/-! ## Durations -/

namespace Duration

variable {d e : Duration}

theorem eq_of_nanos_eq (h : d.nanos = e.nanos) : d = e := by
  cases d
  cases e
  cases h
  rfl

theorem nanos_le_longest (d : Duration) : d.nanos ≤ longest.nanos :=
  Nat.le_sub_one_of_lt d.nanos_lt

theorem wide_nanos (d : Duration) : wide d.nanos = d.nanos := by
  have := d.nanos_lt
  refine wide_eq_self ?_
  unfold limit UInt64.size at this
  unfold wideMax
  omega

end Duration

namespace TimeUnit

variable {u v : TimeUnit} {a b : Int}

theorem ofDuration_eq (u : TimeUnit) (d : Duration) : u.ofDuration d = u.ofNanos d.nanos := by
  rw [ofDuration, d.wide_nanos]

theorem worth_nonneg (h : 0 ≤ a) : 0 ≤ u.worth a := Int.mul_nonneg h (Int.natCast_nonneg _)

theorem toDuration_of_nonpos (h : a ≤ 0) : u.toDuration a = .zero := if_pos h

/-- The seconds and the rest of a second are put together again, as far as the seconds go. -/
theorem nanos_toDuration (h : 0 ≤ a) :
    ((u.toDuration a).nanos : Int) = min (u.worth a) Duration.longest.nanos := by
  have hw : ((u.worth a).toNat : Int) = u.worth a := Int.toNat_of_nonneg (worth_nonneg h)
  have hlong : Duration.longest.nanos = UInt64.size * nanosPerSecond - 1 := rfl
  unfold UInt64.size nanosPerSecond at hlong
  rcases Int.le_iff_lt_or_eq.mp h with hpos | rfl
  · rw [toDuration, if_neg (Int.not_le.mpr hpos)]
    dsimp only
    split
    · rename_i hfits
      have hsum : (Duration.ofSeconds (.ofNatLT _ hfits) ((u.worth a).toNat % nanosPerSecond)
          (Nat.mod_lt _ (by decide))).nanos = (u.worth a).toNat :=
        Nat.div_add_mod' (u.worth a).toNat nanosPerSecond
      rw [hsum]
      unfold UInt64.size nanosPerSecond at hfits
      omega
    · rename_i hfits
      unfold UInt64.size nanosPerSecond at hfits
      omega
  · have h0 : u.worth 0 = 0 := Int.zero_mul _
    rw [toDuration_of_nonpos (Int.le_refl 0), h0]
    rfl

theorem nanos_toDuration_of_le (h : 0 ≤ a) (hle : u.worth a ≤ Duration.longest.nanos) :
    ((u.toDuration a).nanos : Int) = u.worth a := by
  rw [nanos_toDuration h, Int.min_eq_left hle]

/-- The way over a duration is the conversion, where the duration can hold the amount. -/
theorem ofDuration_toDuration (h : 0 ≤ a) (hle : u.worth a ≤ Duration.longest.nanos) :
    v.ofDuration (u.toDuration a) = v.convert a u := by
  rw [ofDuration_eq, nanos_toDuration_of_le h hle, convert]

theorem convert_self (ha : IsAmount a) : u.convert a u = a := by
  have hpos : (u.nanos : Int) ≠ 0 := Int.natCast_ne_zero.mpr (Nat.ne_of_gt u.nanos_pos)
  rw [convert, ofNanos, worth, Int.mul_tdiv_cancel _ hpos, clampAmount_eq_self ha]

theorem toDuration_of_longest_lt (h : Duration.longest.nanos < u.worth a) :
    u.toDuration a = .longest := by
  have hpos : 0 ≤ a := by
    refine Int.not_lt.mp fun hneg => ?_
    have := worth_mono (u := u) (Int.le_of_lt hneg)
    rw [worth, worth, Int.zero_mul] at this
    rw [worth] at h
    omega
  have hn := nanos_toDuration (u := u) hpos
  rw [Int.min_eq_right (Int.le_of_lt h)] at hn
  exact Duration.eq_of_nanos_eq (Int.ofNat_inj.mp hn)

theorem toDuration_mono (h : a ≤ b) : u.toDuration a ≤ u.toDuration b := by
  rcases Int.le_total a 0 with ha | ha
  · rw [toDuration_of_nonpos ha]
    exact Nat.zero_le _
  · have hle := worth_mono (u := u) h
    have hna := nanos_toDuration (u := u) ha
    have hnb := nanos_toDuration (u := u) (Int.le_trans ha h)
    show (u.toDuration a).nanos ≤ (u.toDuration b).nanos
    omega

theorem ofDuration_eq_min (u : TimeUnit) (d : Duration) :
    u.ofDuration d = min ((d.nanos : Int).tdiv u.nanos) amountMax := by
  have hq : 0 ≤ (d.nanos : Int).tdiv u.nanos :=
    Int.tdiv_nonneg (Int.natCast_nonneg _) (Int.natCast_nonneg _)
  rw [ofDuration_eq, ofNanos]
  unfold clampAmount amountMin amountMax
  omega

theorem ofDuration_nonneg (u : TimeUnit) (d : Duration) : 0 ≤ u.ofDuration d := by
  rw [ofDuration_eq_min]
  exact Int.le_min.mpr
    ⟨Int.tdiv_nonneg (Int.natCast_nonneg _) (Int.natCast_nonneg _), by decide⟩

theorem worth_ofDuration_le (u : TimeUnit) (d : Duration) :
    u.worth (u.ofDuration d) ≤ d.nanos := by
  have hle : u.worth (u.ofDuration d) ≤ (d.nanos : Int).tdiv u.nanos * u.nanos :=
    worth_mono (ofDuration_eq_min u d ▸ Int.min_le_left ..)
  have := (isTruncated_tdiv_mul d.nanos u.nanos_pos).between
  omega

/-- The whole units in a duration, and what they leave out. -/
theorem toDuration_ofDuration (u : TimeUnit) (d : Duration) :
    u.toDuration (u.ofDuration d) ≤ d ∧
      (u.ofDuration d < amountMax →
        d.nanos - (u.toDuration (u.ofDuration d)).nanos < u.nanos) := by
  have hle := worth_ofDuration_le u d
  have hlong : (d.nanos : Int) ≤ Duration.longest.nanos := Int.ofNat_le.mpr d.nanos_le_longest
  have hn := nanos_toDuration_of_le (ofDuration_nonneg u d) (Int.le_trans hle hlong)
  refine ⟨?_, fun hlt => ?_⟩
  · show (u.toDuration _).nanos ≤ d.nanos
    omega
  · have hnear := (isTruncated_tdiv_mul d.nanos u.nanos_pos).near
    have hq : u.ofDuration d = (d.nanos : Int).tdiv u.nanos := by
      rw [ofDuration_eq_min] at hlt ⊢
      omega
    have hworth : u.worth (u.ofDuration d) = (d.nanos : Int).tdiv u.nanos * u.nanos := by
      rw [hq, worth]
    omega

/-- Amounts as durations, and durations as amounts: the way over a duration is the conversion as
long as the duration can hold the amount, and is the longest duration beyond; there are no
durations for negative amounts; and a duration loses less than a unit, unless its amount is the
greatest of all. -/
theorem duration_laws (u : TimeUnit) :
    (∀ a, IsAmount a → 0 ≤ a → u.worth a ≤ Duration.longest.nanos →
      (∀ v : TimeUnit, v.ofDuration (u.toDuration a) = v.convert a u) ∧
      u.ofDuration (u.toDuration a) = a) ∧
    (∀ a, IsAmount a → Duration.longest.nanos < u.worth a → u.toDuration a = .longest) ∧
    (∀ a, IsAmount a → a ≤ 0 → u.toDuration a = .zero) ∧
    (∀ a b, IsAmount a → IsAmount b → a ≤ b → u.toDuration a ≤ u.toDuration b) ∧
    ∀ d, u.toDuration (u.ofDuration d) ≤ d ∧
      (u.ofDuration d < amountMax →
        d.nanos - (u.toDuration (u.ofDuration d)).nanos < u.nanos) := by
  refine ⟨fun a ha h hle => ⟨fun v => ofDuration_toDuration h hle, ?_⟩,
    fun a _ h => toDuration_of_longest_lt h, fun a _ h => toDuration_of_nonpos h,
    fun a b _ _ h => toDuration_mono h, fun d => toDuration_ofDuration u d⟩
  rw [ofDuration_toDuration h hle, convert_self ha]

/-- The most days that a duration can hold, and one more. -/
theorem duration_laws_limit :
    IsAmount 213503982334601 ∧ IsAmount 213503982334602 ∧ IsAmount (-1) ∧
    days.worth 213503982334601 ≤ Duration.longest.nanos ∧
    hours.ofDuration (days.toDuration 213503982334601) = 5124095576030424 ∧
    days.ofDuration (days.toDuration 213503982334601) = 213503982334601 ∧
    days.toDuration 213503982334602 = .longest ∧
    days.toDuration (-1) = .zero ∧
    days.toDuration 213503982334601 ≤ days.toDuration 213503982334602 ∧
    Duration.longest.nanos - (days.toDuration (days.ofDuration .longest)).nanos < days.nanos := by
  obtain ⟨hway, hbeyond, hnone, hmono, hback⟩ := duration_laws days
  obtain ⟨hconvert, hself⟩ := hway 213503982334601 (by decide) (by decide) (by decide)
  refine ⟨by decide, by decide, by decide, by decide, ?_, hself,
    hbeyond _ (by decide) (by decide), hnone _ (by decide) (by decide),
    hmono _ _ (by decide) (by decide) (by decide), (hback .longest).2 (by decide)⟩
  rw [hconvert hours]
  decide

end TimeUnit

end TimedTasks
