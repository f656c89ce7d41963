import Mathlib.Algebra.Order.Field.Power
import Mathlib.Algebra.Order.Floor.Ring
import Mathlib.Data.Int.Log
import Mathlib.Tactic.Linarith
import Mathlib.Tactic.Positivity
import Mathlib.Tactic.Ring

/-! # Rounding to Nearest

  Binary floating point without its largest exponent: a number is rounded
  to so many binary places, ties to even. What becomes of an upper bound
  under it is a bound again:

  - `roundEven`: to an integer; `Format.round`: to a format, whose own
    numbers it leaves alone (`round_eq_self`);
  - `Bound`: a number as an upper bound, inclusive or strict;
  - `Bound.pull`: the bound on what is rounded, for one on the result;
  - `admits_round`: it is the exact one.
-/

namespace Rounding

variable {K : Type*} [Field K] [LinearOrder K] [IsStrictOrderedRing K] [FloorRing K]

/-! ### Integers -/

/-- To the nearest integer, ties to even. -/
def roundEven (x : K) : ℤ :=
  if Int.fract x < 1 / 2 ∨ (Int.fract x = 1 / 2 ∧ Even ⌊x⌋) then ⌊x⌋ else ⌊x⌋ + 1

/-- The numbers that round to `n` or less end halfway to the next integer,
  at a number that goes to the even one of the two. -/
theorem roundEven_le_iff (x : K) (n : ℤ) :
    roundEven x ≤ n ↔ x < n + 1 / 2 ∨ (x = n + 1 / 2 ∧ Even n) := by
  have hfloor : (⌊x⌋ : K) + Int.fract x = x := Int.floor_add_fract x
  have hfract : Int.fract x < 1 := Int.fract_lt_one x
  have hnonneg : 0 ≤ Int.fract x := Int.fract_nonneg x
  unfold roundEven
  rcases lt_trichotomy ⌊x⌋ n with hlt | heq | hgt
  · -- one less, or the same
    have hle : (⌊x⌋ : K) + 1 ≤ n := by exact_mod_cast hlt
    have hx : x < n + 1 / 2 := by linarith
    constructor
    · exact fun _ => .inl hx
    · intro _
      split <;> omega
  · -- the fraction decides
    have hcast : (⌊x⌋ : K) = n := by rw [heq]
    have hless : Int.fract x < 1 / 2 ↔ x < n + 1 / 2 := by
      rw [← hfloor, hcast, Int.fract_intCast_add, Int.fract_fract]
      exact (add_lt_add_iff_left _).symm
    have hhalf : Int.fract x = 1 / 2 ↔ x = n + 1 / 2 := by
      rw [← add_right_inj (n : K), ← hcast, hfloor]
    simp only [hless, hhalf, heq]
    split
    · next h => exact ⟨fun _ => h, fun _ => le_rfl⟩
    · next h => exact ⟨fun h' => absurd h' (by omega), fun h' => absurd h' h⟩
  · have hle : (n : K) + 1 ≤ ⌊x⌋ := by exact_mod_cast hgt
    constructor
    · intro h
      split at h <;> omega
    · rintro (h | ⟨h, -⟩) <;> linarith

theorem roundEven_le {x : K} {n : ℤ} (h : x ≤ n) : roundEven x ≤ n := by
  refine (roundEven_le_iff x n).mpr (.inl ?_)
  linarith

theorem le_roundEven {x : K} {n : ℤ} (h : n ≤ x) : n ≤ roundEven x := by
  by_contra hlt
  have hle : roundEven x ≤ n - 1 := by omega
  rcases (roundEven_le_iff x (n - 1)).mp hle with h' | ⟨h', -⟩ <;> push_cast at h' <;> linarith

theorem roundEven_intCast (n : ℤ) : roundEven (n : K) = n :=
  le_antisymm (roundEven_le (le_refl (n : K))) (le_roundEven (le_refl (n : K)))

theorem roundEven_mono {x y : K} (h : x ≤ y) : roundEven x ≤ roundEven y := by
  refine (roundEven_le_iff x _).mpr ?_
  rcases (roundEven_le_iff y _).mp (le_refl (roundEven y)) with hlt | ⟨heq, heven⟩
  · exact .inl (h.trans_lt hlt)
  · rcases h.lt_or_eq with hlt | rfl
    · exact .inl (heq ▸ hlt)
    · exact .inr ⟨heq, heven⟩

/-! ### Bounds -/

/-- An upper bound, which is itself one of the numbers or not. -/
structure Bound (K : Type*) where
  limit : K
  inclusive : Bool
  deriving DecidableEq

namespace Bound

variable {b : Bound K} {x y c : K} {n : ℤ}

/-- `x` is within the bound. -/
def Admits (b : Bound K) (x : K) : Prop := x < b.limit ∨ (x = b.limit ∧ b.inclusive = true)

omit [IsStrictOrderedRing K] in
instance (b : Bound K) (x : K) : Decidable (b.Admits x) := inferInstanceAs (Decidable (_ ∨ _))

/-- The bound on a number, for one on its `c`-fold. -/
def div (b : Bound K) (c : K) : Bound K := ⟨b.limit / c, b.inclusive⟩

/-- The bound on a number, for one on the `c`-th part of it. -/
def mul (b : Bound K) (c : K) : Bound K := ⟨b.limit * c, b.inclusive⟩

/-- The greatest integer within the bound. -/
def greatest (b : Bound K) : ℤ := if b.inclusive then ⌊b.limit⌋ else ⌈b.limit⌉ - 1

/-- The bound on the numbers that round to `n` or less. -/
def half (n : ℤ) : Bound K := ⟨n + 1 / 2, decide (Even n)⟩

omit [Field K] [IsStrictOrderedRing K] [FloorRing K] in
theorem Admits.mono (h : b.Admits y) (hxy : x ≤ y) : b.Admits x := by
  rcases h with h | ⟨rfl, hinc⟩
  · exact .inl (hxy.trans_lt h)
  · rcases hxy.lt_or_eq with hlt | rfl
    · exact .inl hlt
    · exact .inr ⟨rfl, hinc⟩

omit [FloorRing K] in
theorem admits_div (hc : 0 < c) : (b.div c).Admits x ↔ b.Admits (x * c) := by
  simp only [Admits, div, lt_div_iff₀ hc, eq_div_iff hc.ne']

omit [FloorRing K] in
theorem admits_mul (hc : 0 < c) : (b.mul c).Admits x ↔ b.Admits (x / c) := by
  simp only [Admits, mul, div_lt_iff₀ hc, div_eq_iff hc.ne']

omit [IsStrictOrderedRing K] in
theorem admits_intCast : b.Admits (n : K) ↔ n ≤ b.greatest := by
  unfold Admits greatest
  cases b.inclusive with
  | false =>
    rw [if_neg Bool.false_ne_true, Int.le_sub_one_iff, Int.lt_ceil]
    simp
  | true =>
    rw [if_pos rfl, Int.le_floor, le_iff_lt_or_eq]
    simp

theorem admits_half : (half n).Admits x ↔ roundEven x ≤ n := by
  rw [roundEven_le_iff, Admits, half, decide_eq_true_eq]

omit [IsStrictOrderedRing K] in
theorem greatest_le (b : Bound K) : (b.greatest : K) ≤ b.limit := by
  rcases admits_intCast.mpr (le_refl b.greatest) with h | ⟨h, -⟩
  · exact h.le
  · exact h.le

omit [IsStrictOrderedRing K] in
theorem limit_le (b : Bound K) : b.limit ≤ b.greatest + 1 := by
  by_contra hlt
  have hadmits : b.Admits ((b.greatest + 1 : ℤ) : K) := by
    left
    push_cast
    exact not_le.mp hlt
  have hle := admits_intCast.mp hadmits
  omega

end Bound

/-! ### Formats -/

/-- To the nearest multiple of `2 ^ j`, ties to even. -/
def roundAt (j : ℤ) (x : K) : K := roundEven (x / 2 ^ j) * 2 ^ j

section RoundAt

variable {x : K} {j k : ℤ}

omit [IsStrictOrderedRing K] in
/-- A power of two from `2 ^ j` on is a multiple of it. -/
theorem whole_zpow (hjk : j ≤ k) : (((2 : ℤ) ^ (k - j).toNat : ℤ) : K) * 2 ^ j = 2 ^ k := by
  have hnat : ((k - j).toNat : ℤ) = k - j := by omega
  push_cast
  rw [← zpow_natCast, hnat, ← zpow_add₀ two_ne_zero, sub_add_cancel]

/-- Rounding does not cross such a power. -/
theorem roundAt_le (hjk : j ≤ k) (hx : x ≤ 2 ^ k) : roundAt j x ≤ 2 ^ k := by
  have hpos : (0 : K) < 2 ^ j := by positivity
  rw [← whole_zpow hjk] at hx ⊢
  have hle := roundEven_le ((div_le_iff₀ hpos).mpr hx)
  exact mul_le_mul_of_nonneg_right (by exact_mod_cast hle) hpos.le

theorem le_roundAt (hjk : j ≤ k) (hx : 2 ^ k ≤ x) : 2 ^ k ≤ roundAt j x := by
  have hpos : (0 : K) < 2 ^ j := by positivity
  rw [← whole_zpow hjk] at hx ⊢
  have hle := le_roundEven ((le_div_iff₀ hpos).mpr hx)
  exact mul_le_mul_of_nonneg_right (by exact_mod_cast hle) hpos.le

theorem roundAt_nonneg (hx : 0 ≤ x) : 0 ≤ roundAt j x := by
  have hpos : (0 : K) < 2 ^ j := by positivity
  have hle : (0 : ℤ) ≤ roundEven (x / 2 ^ j) := le_roundEven (by rw [Int.cast_zero]; positivity)
  exact mul_nonneg (by exact_mod_cast hle) hpos.le

/-- A multiple of a higher place is not changed. -/
theorem roundAt_zpow (hjk : j ≤ k) (n : ℤ) : roundAt j ((n : K) * 2 ^ k) = n * 2 ^ k := by
  have hne : (2 : K) ^ j ≠ 0 := by positivity
  have hwhole : (n : K) * 2 ^ k / 2 ^ j = ((n * 2 ^ (k - j).toNat : ℤ) : K) := by
    rw [Int.cast_mul, ← whole_zpow hjk, ← mul_assoc, mul_div_assoc, div_self hne, mul_one]
  rw [roundAt, hwhole, roundEven_intCast, Int.cast_mul, mul_assoc, whole_zpow hjk]

theorem roundAt_mono {x y : K} (h : x ≤ y) : roundAt j x ≤ roundAt j y := by
  have hpos : (0 : K) < 2 ^ j := by positivity
  have hle := roundEven_mono ((div_le_div_iff_of_pos_right hpos).mpr h)
  exact mul_le_mul_of_nonneg_right (by exact_mod_cast hle) hpos.le

end RoundAt

/-- The number of binary places, and the least exponent of the last one. -/
structure Format where
  precision : ℕ
  minExponent : ℤ
  precision_pos : 0 < precision

/-- `double` -/
def binary64 : Format := ⟨53, -1074, by decide⟩

namespace Format

variable (F : Format) {x : K} {k : ℤ}

/-- The exponent of the last place of `x`. -/
def exponent (x : K) : ℤ := max (Int.log 2 |x| + 1 - F.precision) F.minExponent

/-- To the nearest number of the format, ties to even. -/
def round (x : K) : K := roundAt (F.exponent x) x

@[simp] theorem round_zero : F.round (0 : K) = 0 := by
  simp [round, roundAt, roundEven]

theorem round_nonneg (hx : 0 ≤ x) : 0 ≤ F.round x := roundAt_nonneg hx

theorem exponent_eq (hk : F.minExponent ≤ k + 1 - F.precision) (hlow : 2 ^ k ≤ x)
    (hhigh : x < 2 ^ (k + 1)) : F.exponent x = k + 1 - F.precision := by
  have hpos : 0 < x := lt_of_lt_of_le (by positivity) hlow
  have hge : k ≤ Int.log 2 x := (Int.zpow_le_iff_le_log one_lt_two hpos).mp (by exact_mod_cast hlow)
  have hlt : Int.log 2 x < k + 1 :=
    (Int.lt_zpow_iff_log_lt one_lt_two hpos).mp (by exact_mod_cast hhigh)
  rw [exponent, abs_of_pos hpos]
  omega

theorem round_le_zpow (hk : F.minExponent ≤ k) (hnonneg : 0 ≤ x) (hx : x ≤ 2 ^ k) :
    F.round x ≤ 2 ^ k := by
  have hprec := F.precision_pos
  rcases hnonneg.eq_or_lt with rfl | hpos
  · rw [round_zero]
    positivity
  · refine roundAt_le ?_ hx
    have hlog : Int.log 2 x ≤ k := by
      rw [← Int.log_zpow (R := K) one_lt_two k]
      exact Int.log_mono_right hpos (by exact_mod_cast hx)
    rw [exponent, abs_of_pos hpos]
    omega

theorem zpow_le_round (hk : F.minExponent ≤ k) (hx : 2 ^ k ≤ x) : 2 ^ k ≤ F.round x := by
  have hprec := F.precision_pos
  have hpos : 0 < x := lt_of_lt_of_le (by positivity) hx
  have hge : k ≤ Int.log 2 x := (Int.zpow_le_iff_le_log one_lt_two hpos).mp (by exact_mod_cast hx)
  have hself : (2 : K) ^ Int.log 2 x ≤ x := by
    exact_mod_cast Int.zpow_log_le_self one_lt_two hpos
  calc (2 : K) ^ k ≤ 2 ^ Int.log 2 x := zpow_le_zpow_right₀ one_le_two hge
    _ ≤ F.round x := by
        refine le_roundAt ?_ hself
        rw [exponent, abs_of_pos hpos]
        omega

/-- **Numbers of the format** are not changed. -/
theorem round_eq_self {n : ℤ} (hk : F.minExponent ≤ k) (hn : |n| < 2 ^ F.precision) :
    F.round ((n : K) * 2 ^ k) = n * 2 ^ k := by
  rcases eq_or_ne n 0 with rfl | hne
  · simp
  · refine roundAt_zpow ?_ n
    have hpos : 0 < |(n : K) * 2 ^ k| := by positivity
    have hlt : |(n : K) * 2 ^ k| < 2 ^ (k + F.precision) := by
      have hn' : |(n : K)| < 2 ^ (F.precision : ℤ) := by exact_mod_cast hn
      have hplace : (0 : K) < 2 ^ k := by positivity
      rw [abs_mul, abs_of_pos hplace, add_comm, zpow_add₀ two_ne_zero]
      exact mul_lt_mul_of_pos_right hn' hplace
    have hlog : Int.log 2 |(n : K) * 2 ^ k| < k + F.precision :=
      (Int.lt_zpow_iff_log_lt one_lt_two hpos).mp (by exact_mod_cast hlt)
    rw [exponent]
    omega

theorem round_intCast {n : ℤ} (hmin : F.minExponent ≤ 0) (hn : |n| < 2 ^ F.precision) :
    F.round (n : K) = n := by
  have hself := @round_eq_self K _ _ _ _ F 0 n hmin hn
  rwa [zpow_zero, mul_one] at hself

/-- **Rounding keeps the order.** -/
theorem round_mono {y : K} (hx : 0 ≤ x) (h : x ≤ y) : F.round x ≤ F.round y := by
  have hprec := F.precision_pos
  rcases hx.eq_or_lt with rfl | hpos
  · rw [round_zero]
    exact F.round_nonneg h
  · have hypos : 0 < y := hpos.trans_le h
    have hlog : Int.log 2 x ≤ Int.log 2 y := Int.log_mono_right hpos h
    have hexp : F.exponent x = max (Int.log 2 x + 1 - F.precision) F.minExponent := by
      rw [exponent, abs_of_pos hpos]
    have hexp' : F.exponent y = max (Int.log 2 y + 1 - F.precision) F.minExponent := by
      rw [exponent, abs_of_pos hypos]
    rcases eq_or_ne (F.exponent x) (F.exponent y) with heq | hne
    · rw [round, heq]
      exact roundAt_mono h
    · -- a power of two is in between
      have hbelow : x ≤ 2 ^ Int.log 2 y :=
        ((Int.lt_zpow_iff_log_lt one_lt_two hpos).mpr (by omega)).le
      have hself : (2 : K) ^ Int.log 2 y ≤ y := by
        exact_mod_cast Int.zpow_log_le_self one_lt_two hypos
      exact (roundAt_le (by omega) hbelow).trans (le_roundAt (by omega) hself)

end Format

/-! ### Bounds on What Is Rounded -/

/-- The bound in front of a rounding whose last place is `2 ^ j`. -/
def Bound.pull (j : ℤ) (b : Bound K) : Bound K :=
  (Bound.half (b.div (2 ^ j)).greatest).mul (2 ^ j)

/-- It is half a place away at most. -/
theorem abs_limit_pull_sub_le (b : Bound K) (j : ℤ) :
    |(b.pull j).limit - b.limit| ≤ 2 ^ j / 2 := by
  have hpos : (0 : K) < 2 ^ j := by positivity
  have hle := (b.div (2 ^ j)).greatest_le
  have hge := (b.div (2 ^ j)).limit_le
  simp only [Bound.div, le_div_iff₀ hpos, div_le_iff₀ hpos] at hle hge
  simp only [Bound.pull, Bound.half, Bound.mul, Bound.div]
  rw [abs_le]
  constructor <;> linarith

/-- Where the last place is fixed, it is the exact one. -/
theorem admits_roundAt {b : Bound K} {j : ℤ} {x : K} :
    (b.pull j).Admits x ↔ b.Admits (roundAt j x) := by
  have hpos : (0 : K) < 2 ^ j := by positivity
  rw [Bound.pull, Bound.admits_mul hpos, Bound.admits_half, ← Bound.admits_intCast,
    Bound.admits_div hpos, roundAt]

/-- **Rounding has an exact bound in front of it**, if the bound on the
  result is where the last place is `2 ^ j`. -/
theorem admits_round (F : Format) {b : Bound K} {j k : ℤ} {x : K} (hj : F.minExponent ≤ j)
    (hk : k + 1 = j + F.precision) (hlow : b.Admits (2 ^ k)) (hhigh : ¬b.Admits (2 ^ (k + 1)))
    (hx : 0 ≤ x) : (b.pull j).Admits x ↔ b.Admits (F.round x) := by
  have hprec := F.precision_pos
  rw [admits_roundAt]
  rcases lt_or_ge x (2 ^ k) with hless | hge
  · -- below the binade of the bound
    have hround : F.round x ≤ 2 ^ k := F.round_le_zpow (by omega) hx hless.le
    have hfixed : roundAt j x ≤ 2 ^ k := roundAt_le (by omega) hless.le
    exact ⟨fun _ => hlow.mono hround, fun _ => hlow.mono hfixed⟩
  · rcases lt_or_ge x (2 ^ (k + 1)) with hless | hmore
    · -- in its binade
      have hexp : F.exponent x = j := by
        rw [F.exponent_eq (by omega) hge hless]
        omega
      rw [Format.round, hexp]
    · -- above it
      have hround : 2 ^ (k + 1) ≤ F.round x := F.zpow_le_round (by omega) hmore
      have hfixed : 2 ^ (k + 1) ≤ roundAt j x := le_roundAt (by omega) hmore
      exact ⟨fun h => absurd (h.mono hfixed) hhigh, fun h => absurd (h.mono hround) hhigh⟩

end Rounding
