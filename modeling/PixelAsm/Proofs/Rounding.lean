import Mathlib.Algebra.Order.Group.Nat
import Mathlib.Order.Monotone.Basic
import PixelAsm.Binary32.Basic

/-!
# Rounding to single precision

Every number of the format is a multiple of the smallest positive one, `2 ^ -149`. Counted in
this unit, the patterns without their sign stand on a line, and the number that stands for a
ratio is the one that is closest to it. If two are equally close, it is the one with an even
pattern.
-/
namespace PixelAsm.Binary32

/-! ### The line of numbers -/

/-- The number without its sign, in units of `2 ^ -149`. Infinity takes the place behind the
largest finite number. -/
def units (x : Binary32) : Nat := x.significand * 2 ^ (x.scale + 149).toNat

/-- The units of the number with a given pattern, also past the end of the format. -/
def unitsAt (magnitude : Nat) : Nat :=
  if magnitude / 0x800000 = 0 then magnitude % 0x800000
  else (0x800000 + magnitude % 0x800000) * 2 ^ (magnitude / 0x800000 - 1)

theorem units_eq_unitsAt (x : Binary32) : x.units = unitsAt x.magnitude := by
  have exponent : (x.scale + 149).toNat = x.magnitude / 0x800000 - 1 := by
    unfold scale exponentField
    omega
  unfold units significand fraction exponentField unitsAt
  rw [exponent]
  by_cases subnormal : x.magnitude / 0x800000 = 0
  · rw [if_pos subnormal, if_pos subnormal, subnormal]
    exact Nat.mul_one _
  · rw [if_neg subnormal, if_neg subnormal]

/-- Between two powers of two the numbers are spaced evenly. -/
theorem unitsAt_spaced {spacing steps : Nat} (normal : spacing = 0 ∨ 0x800000 ≤ steps)
    (within : steps ≤ 0x1000000) :
    unitsAt (spacing * 0x800000 + steps) = steps * 2 ^ spacing := by
  unfold unitsAt
  rcases Nat.lt_or_ge steps 0x800000 with small | large
  · -- only the subnormal numbers have fewer steps
    obtain rfl : spacing = 0 := by omega
    have field : (0 * 0x800000 + steps) / 0x800000 = 0 := by omega
    have part : (0 * 0x800000 + steps) % 0x800000 = steps := by omega
    rw [if_pos field, part]
    simp
  · rcases Nat.lt_or_eq_of_le within with inside | rfl
    · have field : (spacing * 0x800000 + steps) / 0x800000 = spacing + 1 := by omega
      have part : 0x800000 + (spacing * 0x800000 + steps) % 0x800000 = steps := by omega
      rw [field, part]
      simp
    · -- the last step is the first one of the next spacing
      have field : (spacing * 0x800000 + 0x1000000) / 0x800000 = spacing + 2 := by omega
      have part : (spacing * 0x800000 + 0x1000000) % 0x800000 = 0 := by omega
      rw [field, part]
      simp [Nat.pow_succ]
      omega

theorem unitsAt_strictMono : StrictMono unitsAt := by
  apply strictMono_nat_of_lt_succ
  intro m
  -- a pattern and the next one lie in the same spacing
  let spacing := m / 0x800000 - 1
  let steps := m - spacing * 0x800000
  have normal : spacing = 0 ∨ 0x800000 ≤ steps := by omega
  have within : steps < 0x1000000 := by omega
  have here : m = spacing * 0x800000 + steps := by omega
  have next : m + 1 = spacing * 0x800000 + (steps + 1) := by omega
  calc unitsAt m = steps * 2 ^ spacing := by
        rw [here]
        exact unitsAt_spaced normal (by omega)
    _ < (steps + 1) * 2 ^ spacing :=
        Nat.mul_lt_mul_of_pos_right (by omega) (Nat.two_pow_pos spacing)
    _ = unitsAt (m + 1) := by
        rw [next]
        exact (unitsAt_spaced (by omega) (by omega)).symm

/-! ### Closest numbers -/

/-- How far a number is from a ratio, both without sign, in units divided by `den`. -/
def distance (num den : Nat) (x : Binary32) : Nat :=
  ((x.units * den : Nat) - (num * 2 ^ 149 : Nat) : Int).natAbs

/-- The number stands for a ratio with a sign: it has the sign, no number is closer, and if
another one is as close then the pattern is even. Infinity stands for what would round to
`2 ^ 128`. -/
structure Rounds (negative : Bool) (num den : Nat) (x : Binary32) : Prop where
  sign : x.isNegative = negative
  number : x.magnitude ≤ infiniteMagnitude
  closest : ∀ y : Binary32, y.magnitude ≤ infiniteMagnitude → y.magnitude ≠ x.magnitude →
    x.distance num den < y.distance num den ∨
      x.distance num den = y.distance num den ∧ x.magnitude % 2 = 0

theorem roundQuotient_mul_right (num den : Nat) {factor : Nat} (positive : 0 < factor) :
    roundQuotient (num * factor) (den * factor) = roundQuotient num den := by
  have less : 2 * (num % den * factor) < den * factor ↔ 2 * (num % den) < den := by
    rw [← Nat.mul_assoc]
    exact Nat.mul_lt_mul_right positive
  have more : den * factor < 2 * (num % den * factor) ↔ den < 2 * (num % den) := by
    rw [← Nat.mul_assoc]
    exact Nat.mul_lt_mul_right positive
  simp only [roundQuotient, Nat.mul_div_mul_right _ _ positive, Nat.mul_mod_mul_right, less, more]

/-- Comparing a ratio with a power of two does not depend on how the power is split. -/
theorem lt_scaled_iff (num den : Nat) {i j i' j' : Nat} (same : i + j' = i' + j) :
    num * 2 ^ j < den * 2 ^ i ↔ num * 2 ^ j' < den * 2 ^ i' := by
  have left : num * 2 ^ j < den * 2 ^ i ↔ num * 2 ^ (j + j') < den * 2 ^ (i + j') := by
    rw [Nat.pow_add, Nat.pow_add, ← Nat.mul_assoc, ← Nat.mul_assoc]
    exact (Nat.mul_lt_mul_right (Nat.two_pow_pos j')).symm
  have right : num * 2 ^ j' < den * 2 ^ i' ↔ num * 2 ^ (j' + j) < den * 2 ^ (i' + j) := by
    rw [Nat.pow_add, Nat.pow_add, ← Nat.mul_assoc, ← Nat.mul_assoc]
    exact (Nat.mul_lt_mul_right (Nat.two_pow_pos j)).symm
  rw [left, right, same, Nat.add_comm j j']

/-- The ratio lies between the power of two of its logarithm and the next one. -/
theorem floorLog_bounds {num den : Nat} (some : 0 < num) (positive : 0 < den) {i j : Nat}
    (split : (i : Int) - j = floorLog num den) :
    den * 2 ^ i ≤ num * 2 ^ j ∧ num * 2 ^ j < den * 2 ^ (i + 1) := by
  have numLow : 2 ^ num.log2 ≤ num := Nat.log2_self_le (by omega)
  have numHigh : num < 2 ^ (num.log2 + 1) := Nat.lt_log2_self
  have denLow : 2 ^ den.log2 ≤ den := Nat.log2_self_le (by omega)
  have denHigh : den < 2 ^ (den.log2 + 1) := Nat.lt_log2_self
  unfold floorLog at split
  dsimp only at split
  split at split
  next less =>
    -- the difference of the logarithms is one too many
    constructor
    · calc den * 2 ^ i ≤ 2 ^ (den.log2 + 1) * 2 ^ i := Nat.mul_le_mul_right _ denHigh.le
        _ = 2 ^ num.log2 * 2 ^ j := by
            rw [← Nat.pow_add, ← Nat.pow_add]
            congr 1
            omega
        _ ≤ num * 2 ^ j := Nat.mul_le_mul_right _ numLow
    · exact (lt_scaled_iff num den (by omega)).mpr less
  next notLess =>
    constructor
    · apply Nat.le_of_not_lt
      intro less
      exact notLess ((lt_scaled_iff num den (by omega)).mp less)
    · calc num * 2 ^ j < 2 ^ (num.log2 + 1) * 2 ^ j :=
            Nat.mul_lt_mul_of_pos_right numHigh (Nat.two_pow_pos j)
        _ = 2 ^ den.log2 * 2 ^ (i + 1) := by
            rw [← Nat.pow_add, ← Nat.pow_add]
            congr 1
            omega
        _ ≤ den * 2 ^ (i + 1) := Nat.mul_le_mul_right _ denLow

/-- Rounding happens on a grid whose spacing fits the ratio. -/
theorem exists_spacing (negative : Bool) {num den : Nat} (some : 0 < num) (positive : 0 < den) :
    ∃ spacing, let steps := num * 2 ^ 149 / (den * 2 ^ spacing)
      ofRatio negative num den = ofMagnitude negative
        (min (spacing * 0x800000 + roundQuotient (num * 2 ^ 149) (den * 2 ^ spacing))
          infiniteMagnitude) ∧
      (spacing = 0 ∨ 0x800000 ≤ steps) ∧ steps < 0x1000000 := by
  let unit : Int := max (floorLog num den - 23) (-149)
  let spacing := (unit + 149).toNat
  refine ⟨spacing, ?_, ?_, ?_⟩
  · -- the quotient is formed with positive exponents only, which changes both sides alike
    have scaled : roundQuotient (num * 2 ^ (-unit).toNat) (den * 2 ^ unit.toNat) =
        roundQuotient (num * 2 ^ 149) (den * 2 ^ spacing) := by
      rw [← roundQuotient_mul_right _ _ (Nat.two_pow_pos (min spacing 149)), Nat.mul_assoc,
        Nat.mul_assoc, ← Nat.pow_add, ← Nat.pow_add]
      congr 3 <;> omega
    have nonzero : num ≠ 0 := by omega
    unfold ofRatio
    rw [if_neg nonzero]
    dsimp only
    rw [← scaled]
    rfl
  · by_cases subnormal : spacing = 0
    · exact .inl subnormal
    · have split : ((spacing + 23 : Nat) : Int) - (149 : Nat) = floorLog num den := by omega
      have low := (floorLog_bounds some positive split).1
      refine .inr ((Nat.le_div_iff_mul_le (Nat.mul_pos positive (Nat.two_pow_pos _))).mpr ?_)
      calc 2 ^ 23 * (den * 2 ^ spacing) = den * 2 ^ (spacing + 23) := by
            rw [Nat.mul_left_comm, ← Nat.pow_add, Nat.add_comm]
        _ ≤ num * 2 ^ 149 := low
  · apply (Nat.div_lt_iff_lt_mul (Nat.mul_pos positive (Nat.two_pow_pos _))).mpr
    by_cases subnormal : floorLog num den < -126
    · -- such a ratio is far below what the smallest spacing allows for
      let shift := (-floorLog num den).toNat
      have split : ((0 : Nat) : Int) - (shift : Nat) = floorLog num den := by omega
      have high := (floorLog_bounds some positive split).2
      calc num * 2 ^ 149 ≤ num * 2 ^ (shift + 23) :=
            Nat.mul_le_mul_left _ (Nat.pow_le_pow_right (by omega) (by omega))
        _ < den * 2 ^ 24 := (lt_scaled_iff num den (by omega)).mp high
        _ = 2 ^ 24 * den := Nat.mul_comm _ _
        _ ≤ 2 ^ 24 * (den * 2 ^ spacing) :=
            Nat.mul_le_mul_left _ (Nat.le_mul_of_pos_right _ (Nat.two_pow_pos _))
    · have split : ((spacing + 23 : Nat) : Int) - (149 : Nat) = floorLog num den := by omega
      calc num * 2 ^ 149 < den * 2 ^ (spacing + 23 + 1) :=
            (floorLog_bounds some positive split).2
        _ = 2 ^ 24 * (den * 2 ^ spacing) := by
            rw [Nat.mul_left_comm, ← Nat.pow_add, Nat.add_comm 24]

/-- The distance of the number with a given pattern. -/
def distanceAt (num den magnitude : Nat) : Nat :=
  ((unitsAt magnitude * den : Nat) - (num * 2 ^ 149 : Nat) : Int).natAbs

theorem distance_eq (num den : Nat) (x : Binary32) :
    x.distance num den = distanceAt num den x.magnitude := by
  rw [distance, units_eq_unitsAt, distanceAt]

/-- Of two neighbours that enclose a ratio the closer one is the closest of all: every other
number is further away than the neighbour on its side. -/
theorem closest_of_enclosed {num den low base gap part m n : Nat} (positive : 0 < den)
    (lower : unitsAt low * den = base) (upper : unitsAt (low + 1) * den = base + gap)
    (whole : base + part = num * 2 ^ 149) (rest : part < gap)
    (chosen : m = low ∧ 2 * part ≤ gap ∨ m = low + 1 ∧ gap ≤ 2 * part)
    (even : 2 * part = gap → m % 2 = 0) (other : n ≠ m) :
    distanceAt num den m < distanceAt num den n ∨
      distanceAt num den m = distanceAt num den n ∧ m % 2 = 0 := by
  have ordered {a b : Nat} (less : a < b) : unitsAt a * den < unitsAt b * den :=
    Nat.mul_lt_mul_of_pos_right (unitsAt_strictMono less) positive
  have placed : unitsAt n * den < base ∨ n = low ∨ n = low + 1 ∨
      base + gap < unitsAt n * den := by
    rw [← lower]
    rw [← lower] at upper
    rw [← upper]
    rcases Nat.lt_trichotomy n low with less | same | more
    · exact .inl (ordered less)
    · exact .inr (.inl same)
    · rcases Nat.lt_or_eq_of_le more with further | next
      · exact .inr (.inr (.inr (ordered further)))
      · exact .inr (.inr (.inl next.symm))
  unfold distanceAt
  generalize num * 2 ^ 149 = target at whole ⊢
  rcases chosen with ⟨rfl, small⟩ | ⟨rfl, large⟩
  · rcases placed with less | same | rfl | more
    · omega
    · exact absurd same other
    · omega
    · omega
  · rcases placed with less | rfl | same | more
    · omega
    · omega
    · exact absurd same other
    · omega

/-- The number on the grid below a ratio. -/
theorem unitsAt_floor {num den spacing : Nat}
    (normal : spacing = 0 ∨ 0x800000 ≤ num * 2 ^ 149 / (den * 2 ^ spacing))
    (within : num * 2 ^ 149 / (den * 2 ^ spacing) ≤ 0x1000000) :
    unitsAt (spacing * 0x800000 + num * 2 ^ 149 / (den * 2 ^ spacing)) * den ≤ num * 2 ^ 149 := by
  rw [unitsAt_spaced normal within, Nat.mul_assoc, Nat.mul_comm _ den]
  exact Nat.div_mul_le_self _ _

theorem roundQuotient_le (num den : Nat) : roundQuotient num den ≤ num / den + 1 := by
  unfold roundQuotient
  dsimp only
  split
  · omega
  · split <;> omega

/-- Rounding on a grid that fits the ratio gives the closest number. -/
theorem closest_of_spacing {num den spacing : Nat} (positive : 0 < den)
    (normal : spacing = 0 ∨ 0x800000 ≤ num * 2 ^ 149 / (den * 2 ^ spacing))
    (within : num * 2 ^ 149 / (den * 2 ^ spacing) < 0x1000000) {m : Nat}
    (rounded : m = spacing * 0x800000 + roundQuotient (num * 2 ^ 149) (den * 2 ^ spacing))
    {n : Nat} (other : n ≠ m) :
    distanceAt num den m < distanceAt num den n ∨
      distanceAt num den m = distanceAt num den n ∧ m % 2 = 0 := by
  have some : 0 < den * 2 ^ spacing := Nat.mul_pos positive (Nat.two_pow_pos spacing)
  have whole := Nat.div_add_mod' (num * 2 ^ 149) (den * 2 ^ spacing)
  have rest := Nat.mod_lt (num * 2 ^ 149) some
  unfold roundQuotient at rounded
  dsimp only at rounded
  generalize num * 2 ^ 149 / (den * 2 ^ spacing) = steps at normal within rounded whole
  generalize num * 2 ^ 149 % (den * 2 ^ spacing) = part at rounded whole rest
  have lower : unitsAt (spacing * 0x800000 + steps) * den = steps * (den * 2 ^ spacing) := by
    rw [unitsAt_spaced normal within.le, Nat.mul_assoc, Nat.mul_comm den]
  have upper : unitsAt (spacing * 0x800000 + steps + 1) * den =
      steps * (den * 2 ^ spacing) + den * 2 ^ spacing := by
    rw [Nat.add_assoc, unitsAt_spaced (by omega) (by omega), Nat.mul_assoc, Nat.mul_comm _ den,
      Nat.add_mul, Nat.one_mul]
  apply closest_of_enclosed positive lower upper whole rest _ _ other
  · split at rounded
    · omega
    · split at rounded <;> omega
  · split at rounded
    · omega
    · split at rounded <;> omega

/-! ### Patterns -/

theorem magnitude_ofMagnitude (negative : Bool) {m : Nat} (number : m ≤ infiniteMagnitude) :
    (ofMagnitude negative m).magnitude = m := by
  unfold infiniteMagnitude at number
  cases negative <;> simp [ofMagnitude, magnitude] <;> omega

theorem isNegative_ofMagnitude (negative : Bool) {m : Nat} (number : m ≤ infiniteMagnitude) :
    (ofMagnitude negative m).isNegative = negative := by
  unfold infiniteMagnitude at number
  cases negative <;> simp [ofMagnitude, isNegative] <;> omega

/-- The number that is computed for a ratio stands for it. -/
theorem ofRatio_rounds (negative : Bool) (num : Nat) {den : Nat} (positive : 0 < den) :
    Rounds negative num den (ofRatio negative num den) := by
  -- the pattern decides, so it is enough to compare patterns
  have rounds {m : Nat} (number : m ≤ infiniteMagnitude)
      (closest : ∀ n ≤ infiniteMagnitude, n ≠ m → distanceAt num den m < distanceAt num den n ∨
        distanceAt num den m = distanceAt num den n ∧ m % 2 = 0) :
      Rounds negative num den (ofMagnitude negative m) := by
    refine ⟨isNegative_ofMagnitude negative number, ?_, fun y inside other => ?_⟩
    · rwa [magnitude_ofMagnitude negative number]
    · rw [magnitude_ofMagnitude negative number] at other ⊢
      rw [distance_eq, distance_eq, magnitude_ofMagnitude negative number]
      exact closest _ inside other
  by_cases zero : num = 0
  · subst num
    apply rounds (Nat.zero_le _)
    intro n inside other
    have more := Nat.mul_lt_mul_of_pos_right
      (unitsAt_strictMono (Nat.pos_of_ne_zero other)) positive
    have none : unitsAt 0 = 0 := rfl
    simp only [distanceAt, none]
    omega
  · obtain ⟨spacing, result, normal, within⟩ :=
      exists_spacing negative (Nat.pos_of_ne_zero zero) positive
    rw [result]
    apply rounds (Nat.min_le_right _ _)
    intro n inside other
    by_cases finite : spacing * 0x800000 +
        roundQuotient (num * 2 ^ 149) (den * 2 ^ spacing) ≤ infiniteMagnitude
    · rw [Nat.min_eq_left finite] at other ⊢
      exact closest_of_spacing positive normal within rfl other
    · -- the ratio is at least what infinity takes the place of, and no number is larger
      rw [Nat.min_eq_right (Nat.le_of_not_le finite)] at other ⊢
      have rounded := roundQuotient_le (num * 2 ^ 149) (den * 2 ^ spacing)
      have least := unitsAt_floor normal within.le
      have beyond : infiniteMagnitude ≤
          spacing * 0x800000 + num * 2 ^ 149 / (den * 2 ^ spacing) := by omega
      have reached := (Nat.mul_le_mul_right den (unitsAt_strictMono.monotone beyond)).trans least
      have smaller : unitsAt n * den < unitsAt infiniteMagnitude * den :=
        Nat.mul_lt_mul_of_pos_right (unitsAt_strictMono (by omega)) positive
      unfold distanceAt
      generalize num * 2 ^ 149 = target at reached ⊢
      omega

end PixelAsm.Binary32
