import Mathlib.Algebra.Order.Archimedean.Basic
import Mathlib.Data.Rat.Floor
import Mathlib.Tactic.FieldSimp
import Mathlib.Tactic.Linarith
import Mathlib.Tactic.Positivity
import DurableFlow.Binary64

/-! Rounding to binary64. A magnitude that lies close to a number of the format is rounded to it. -/
namespace DurableFlow.Binary64

/-! ## Powers of two -/

theorem twoPow_eq (e : Int) : twoPow e = (2 : Rat) ^ e := by
  unfold twoPow
  split
  · rename_i h
    obtain ⟨n, rfl⟩ := Int.eq_ofNat_of_zero_le h
    simp
  · rename_i h
    obtain ⟨n, rfl⟩ : ∃ n : Nat, e = -n := ⟨e.natAbs, by omega⟩
    simp [Rat.mkRat_eq_div]

private theorem two_zpow_pos (e : Int) : (0 : Rat) < (2 : Rat) ^ e := zpow_pos (by norm_num) e

/-- A positive number lies between two powers of two that its two logarithms give. -/
theorem log_bounds {q : Rat} (h : 0 < q) :
    (2 : Rat) ^ ((q.num.natAbs.log2 : Int) - (q.den.log2 : Int) - 1) < q ∧
      q < (2 : Rat) ^ ((q.num.natAbs.log2 : Int) - (q.den.log2 : Int) + 1) := by
  have hnum : q.num.natAbs ≠ 0 := Int.natAbs_ne_zero.mpr (Rat.num_pos.mpr h).ne'
  have hvalue : q = (q.num.natAbs : Rat) / (q.den : Rat) := by
    have habs : ((q.num.natAbs : Int) : Rat) = (q.num : Rat) := by
      rw [Int.natAbs_of_nonneg (Rat.num_pos.mpr h).le]
    rw [← Int.cast_natCast, habs]
    exact (Rat.num_div_den q).symm
  have hnumLow : (2 : Rat) ^ q.num.natAbs.log2 ≤ q.num.natAbs := by
    exact_mod_cast Nat.log2_self_le hnum
  have hnumHigh : (q.num.natAbs : Rat) < (2 : Rat) ^ (q.num.natAbs.log2 + 1) := by
    exact_mod_cast Nat.lt_log2_self
  have hdenLow : (2 : Rat) ^ q.den.log2 ≤ q.den := by exact_mod_cast Nat.log2_self_le q.den_nz
  have hdenHigh : (q.den : Rat) < (2 : Rat) ^ (q.den.log2 + 1) := by
    exact_mod_cast Nat.lt_log2_self
  have hden : (0 : Rat) < q.den := by exact_mod_cast q.den_pos
  generalize q.num.natAbs.log2 = a at *
  generalize q.den.log2 = b at *
  have hlow : (2 : Rat) ^ ((a : Int) - b - 1) = 2 ^ a / 2 ^ (b + 1) := by
    rw [sub_sub, zpow_sub₀ (by norm_num)]
    norm_cast
  have hhigh : (2 : Rat) ^ ((a : Int) - b + 1) = 2 ^ (a + 1) / 2 ^ b := by
    rw [show (a : Int) - b + 1 = (a + 1 : Nat) - (b : Nat) by push_cast; ring,
      zpow_sub₀ (by norm_num)]
    norm_cast
  rw [hlow, hhigh, hvalue]
  constructor
  · exact div_lt_div₀' hnumLow hdenHigh (lt_of_lt_of_le (by positivity) hnumLow) hden
  · exact div_lt_div₀ hnumHigh hdenLow (by positivity) (by positivity)

/-- The exponent of the leading binary digit of a positive number. -/
theorem scaleOf_eq {q : Rat} {t : Int} (h : (2 : Rat) ^ t ≤ q) (h' : q < (2 : Rat) ^ (t + 1)) :
    scaleOf q = max (t - 52) (-1074) := by
  have hpos : 0 < q := lt_of_lt_of_le (two_zpow_pos t) h
  obtain ⟨hlow, hhigh⟩ := log_bounds hpos
  unfold scaleOf
  dsimp only
  generalize (q.num.natAbs.log2 : Int) - (q.den.log2 : Int) = guess at *
  have htop : t < guess + 1 := (zpow_lt_zpow_iff_right₀ one_lt_two).mp (lt_of_le_of_lt h hhigh)
  have hbottom : guess - 1 < t + 1 :=
    (zpow_lt_zpow_iff_right₀ one_lt_two).mp (lt_trans hlow h')
  rw [twoPow_eq]
  split
  · rename_i hless
    have hlt : t < guess := (zpow_lt_zpow_iff_right₀ one_lt_two).mp (lt_of_le_of_lt h hless)
    have heq : guess - 1 = t := by omega
    rw [heq]
  · rename_i hmore
    have hle : guess < t + 1 :=
      (zpow_lt_zpow_iff_right₀ one_lt_two).mp (lt_of_le_of_lt (not_lt.mp hmore) h')
    have heq : guess = t := by omega
    rw [heq]

/-! ## The nearest integer -/

theorem floor_le_roundHalfEven (q : Rat) : q.floor ≤ roundHalfEven q := by
  unfold roundHalfEven
  dsimp only
  split
  · exact Int.le_refl _
  · split
    · omega
    · split
      · exact Int.le_refl _
      · omega

/-- A number is no more than a half away from its nearest integer. -/
theorem abs_roundHalfEven_sub_le (q : Rat) : |(roundHalfEven q : Rat) - q| ≤ 1 / 2 := by
  have hlow : (q.floor : Rat) ≤ q := Rat.floor_le q
  have hhigh : q < (q.floor : Rat) + 1 := by linarith [Rat.lt_floor (x := q)]
  have hhalf : mkRat 1 2 = (1 / 2 : Rat) := by norm_num [Rat.mkRat_eq_div]
  unfold roundHalfEven
  dsimp only
  rw [hhalf, abs_le]
  split
  · constructor <;> linarith
  · split
    · push_cast
      constructor <;> linarith
    · split
      · constructor <;> linarith
      · push_cast
        constructor <;> linarith

/-- The nearest integer is the one that is less than a half away. -/
theorem roundHalfEven_eq {q : Rat} {n : Int} (h : |q - n| < 1 / 2) : roundHalfEven q = n := by
  have hround := abs_roundHalfEven_sub_le q
  have hclose : |((roundHalfEven q - n : Int) : Rat)| < 1 := by
    push_cast
    calc |(roundHalfEven q : Rat) - n| = |((roundHalfEven q : Rat) - q) + (q - n)| := by ring_nf
      _ ≤ |(roundHalfEven q : Rat) - q| + |q - n| := abs_add_le _ _
      _ < 1 := by linarith
  have hzero : |roundHalfEven q - n| < 1 := by exact_mod_cast hclose
  rw [Int.abs_lt_one_iff] at hzero
  omega

/-! ## The nearest number -/

def InFormat (m : Nat) (e : Int) : Prop :=
  m < 2 ^ 53 ∧ -1074 ≤ e ∧ e ≤ 971 ∧ (2 ^ 52 ≤ m ∨ e = -1074)

variable {m : Nat} {e : Int} {x : Rat}

private theorem mantissa_eq {f : Int} {n : Nat} (h : |x - n * (2 : Rat) ^ f| < (2 : Rat) ^ f / 2) :
    (roundHalfEven (x * twoPow (-f))).toNat = n := by
  have hf := two_zpow_pos f
  have hscaled : x * twoPow (-f) - (n : Int) = (x - n * (2 : Rat) ^ f) / (2 : Rat) ^ f := by
    rw [twoPow_eq, zpow_neg]
    push_cast
    field_simp
  have hround : roundHalfEven (x * twoPow (-f)) = (n : Int) := by
    refine roundHalfEven_eq ?_
    rw [hscaled, abs_div, abs_of_pos hf, div_lt_iff₀ hf]
    linarith
  rw [hround]
  rfl

private theorem scaleOf_subnormal (hpos : 0 < x) (h : x < (2 : Rat) ^ (-1022 : Int)) :
    scaleOf x = -1074 := by
  obtain ⟨t, hlow, hhigh⟩ := exists_mem_Ico_zpow hpos one_lt_two
  have ht : t < -1022 := (zpow_lt_zpow_iff_right₀ one_lt_two).mp (lt_of_le_of_lt hlow h)
  rw [scaleOf_eq hlow hhigh]
  omega

/-- What is closer than a quarter of the last place to a number of the format is rounded to it. -/
theorem nearest_eq (hformat : InFormat m e) (hm : m ≠ 0)
    (h : |x - m * (2 : Rat) ^ e| < (2 : Rat) ^ e / 4) (s : Bool) :
    nearest s x = .finite s m e := by
  obtain ⟨hlt, hlow, hhigh, hnormal⟩ := hformat
  have he := two_zpow_pos e
  obtain ⟨hbelow, habove⟩ := abs_lt.mp h
  have hone : (1 : Rat) ≤ m := by exact_mod_cast Nat.one_le_iff_ne_zero.mpr hm
  have htop : (m : Rat) + 1 ≤ 2 ^ 53 := by exact_mod_cast Nat.succ_le_of_lt hlt
  have hpos : 0 < x := by nlinarith
  have hpower (k : Nat) : (2 : Rat) ^ (e + k) = 2 ^ k * (2 : Rat) ^ e := by
    rw [zpow_add₀ (by norm_num), zpow_natCast, mul_comm]
  have hunder : x < (2 : Rat) ^ (e + 53) := by
    rw [show e + 53 = e + (53 : Nat) from rfl, hpower]
    nlinarith
  unfold nearest
  rw [if_neg (not_le.mpr hpos)]
  dsimp only
  by_cases hfull : (2 : Rat) ^ (e + 52) ≤ x ∨ e = -1074
  · have hscale : scaleOf x = e := by
      obtain hfull | rfl := hfull
      · rw [scaleOf_eq hfull (by rwa [show e + 52 + 1 = e + 53 by ring])]
        omega
      · by_cases hless : x < (2 : Rat) ^ (-1022 : Int)
        · exact scaleOf_subnormal hpos hless
        · rw [scaleOf_eq (t := -1022) (not_lt.mp hless) (by simpa using hunder)]
          omega
    have hclose : |x - m * (2 : Rat) ^ e| < (2 : Rat) ^ e / 2 := by linarith
    have hcarry : m ≠ Nat.pow 2 53 := Nat.ne_of_lt hlt
    rw [hscale, mantissa_eq hclose, if_neg hcarry]
    exact if_neg (not_lt.mpr hhigh)
  · -- just under a power of two the last place is half as wide
    push Not at hfull
    obtain ⟨hless, hne⟩ := hfull
    rw [show e + 52 = e + (52 : Nat) from rfl, hpower] at hless
    have hm52 : 2 ^ 52 ≤ m := hnormal.resolve_right hne
    have hmeq : m = 2 ^ 52 := by
      by_contra hother
      have hmore : ((2 ^ 52 + 1 : Nat) : Rat) ≤ m := Nat.cast_le.mpr (by omega)
      push_cast at hmore
      nlinarith
    subst hmeq
    have hhalf : (2 : Rat) ^ e = 2 * (2 : Rat) ^ (e - 1) := by
      rw [← zpow_one_add₀ (by norm_num)]
      congr 1
      ring
    have hscale : scaleOf x = e - 1 := by
      have hover : (2 : Rat) ^ (e + 51) ≤ x := by
        rw [show e + 51 = e + (51 : Nat) from rfl, hpower]
        push_cast at hbelow
        nlinarith
      have hless' : x < (2 : Rat) ^ (e + 51 + 1) := by
        rw [show e + 51 + 1 = e + (52 : Nat) by push_cast; ring, hpower]
        exact hless
      rw [scaleOf_eq hover hless']
      omega
    have hclose : |x - (2 ^ 53 : Nat) * (2 : Rat) ^ (e - 1)| < (2 : Rat) ^ (e - 1) / 2 := by
      have hsame : ((2 ^ 53 : Nat) : Rat) * (2 : Rat) ^ (e - 1) =
          ((2 ^ 52 : Nat) : Rat) * (2 : Rat) ^ e := by
        rw [hhalf]
        push_cast
        ring
      rw [hsame]
      linarith
    have hcarry : 2 ^ 53 = Nat.pow 2 53 := rfl
    rw [hscale, mantissa_eq hclose, if_pos hcarry, sub_add_cancel]
    exact if_neg (not_lt.mpr hhigh)

private theorem scaled_bounds {t : Int} (hlow : (2 : Rat) ^ t ≤ x) (hhigh : x < (2 : Rat) ^ (t + 1)) :
    2 ^ 52 ≤ x * (2 : Rat) ^ (-(t - 52)) ∧ x * (2 : Rat) ^ (-(t - 52)) < 2 ^ 53 := by
  have hscaled (k : Nat) (u : Int) (hu : u = t - 52 + k) :
      (2 : Rat) ^ u * (2 : Rat) ^ (-(t - 52)) = 2 ^ k := by
    rw [← zpow_add₀ (by norm_num), hu, add_neg_cancel_comm, zpow_natCast]
  constructor
  · rw [← hscaled 52 t (by push_cast; ring)]
    exact mul_le_mul_of_nonneg_right hlow (two_zpow_pos _).le
  · rw [← hscaled 53 (t + 1) (by push_cast; ring)]
    exact mul_lt_mul_of_pos_right hhigh (two_zpow_pos _)

/-- What a magnitude with so many binary digits is rounded to: a full mantissa, at most half a last place
away. -/
theorem nearest_close {t : Int} (ht : -1022 ≤ t) (hlow : (2 : Rat) ^ t ≤ x)
    (hhigh : x < (2 : Rat) ^ (t + 1)) (s : Bool) :
    ∃ (m : Nat) (e : Int), 2 ^ 52 ≤ m ∧ m < 2 ^ 53 ∧ t - 52 ≤ e ∧
      |m * (2 : Rat) ^ e - x| ≤ (2 : Rat) ^ (t - 53) ∧
        nearest s x = if 971 < e then .infinite s else .finite s m e := by
  have hpos : 0 < x := lt_of_lt_of_le (two_zpow_pos t) hlow
  have hscale : scaleOf x = t - 52 := by
    rw [scaleOf_eq hlow hhigh]
    omega
  obtain ⟨hover, hunder⟩ := scaled_bounds hlow hhigh
  have hround := abs_roundHalfEven_sub_le (x * (2 : Rat) ^ (-(t - 52)))
  have hfull : (2 ^ 52 : Int) ≤ roundHalfEven (x * (2 : Rat) ^ (-(t - 52))) := by
    refine le_trans (Rat.le_floor_iff.mpr ?_) (floor_le_roundHalfEven _)
    exact_mod_cast hover
  obtain ⟨m, hm⟩ := Int.eq_ofNat_of_zero_le (le_trans (by decide) hfull)
  rw [hm] at hround hfull
  have hfits : m ≤ 2 ^ 53 := by
    have hless : ((m : Int) : Rat) < ((2 ^ 53 + 1 : Int) : Rat) := by
      have habove := (abs_le.mp hround).2
      push_cast at habove ⊢
      linarith
    have := Int.cast_lt.mp hless
    omega
  have hclose : |m * (2 : Rat) ^ (t - 52) - x| ≤ (2 : Rat) ^ (t - 53) := by
    have hunit := two_zpow_pos (t - 52)
    calc |m * (2 : Rat) ^ (t - 52) - x|
        = |((m : Int) : Rat) - x * (2 : Rat) ^ (-(t - 52))| * (2 : Rat) ^ (t - 52) := by
          rw [← abs_of_pos hunit, ← abs_mul, abs_of_pos hunit, zpow_neg]
          congr 1
          push_cast
          field_simp
      _ ≤ 1 / 2 * (2 : Rat) ^ (t - 52) := by gcongr
      _ = (2 : Rat) ^ (t - 53) := by
          rw [show t - 52 = 1 + (t - 53) by ring, zpow_one_add₀ (by norm_num)]
          ring
  unfold nearest
  rw [if_neg (not_le.mpr hpos), hscale]
  dsimp only
  rw [twoPow_eq, hm, Int.toNat_natCast]
  by_cases hcarry : m = Nat.pow 2 53
  · refine ⟨Nat.pow 2 52, t - 52 + 1, Nat.le_refl _, by decide, by omega, ?_, if_pos hcarry ▸ rfl⟩
    have hsame : ((Nat.pow 2 52 : Nat) : Rat) * (2 : Rat) ^ (t - 52 + 1) = m * (2 : Rat) ^ (t - 52) := by
      rw [hcarry, zpow_add_one₀ (by norm_num)]
      push_cast
      ring
    rwa [hsame]
  · refine ⟨m, t - 52, by omega, Nat.lt_of_le_of_ne hfits hcarry, Int.le_refl _, hclose, ?_⟩
    rw [if_neg hcarry]

end DurableFlow.Binary64
