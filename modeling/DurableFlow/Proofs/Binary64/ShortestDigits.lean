import Mathlib.Algebra.Order.Field.Power
import DurableFlow.Binary64.Decimal
import DurableFlow.Proofs.Binary64.Roundings

/-! The fewest digits that read back. Whichever count of digits is settled on, the number that is rounded
to them is read from them again. -/
namespace DurableFlow.Binary64

/-! ## The place of the point -/

theorem tenPow_eq (e : Int) : tenPow e = (10 : Rat) ^ e := by
  unfold tenPow
  split
  · rename_i h
    obtain ⟨n, rfl⟩ := Int.eq_ofNat_of_zero_le h
    simp
  · rename_i h
    obtain ⟨n, rfl⟩ : ∃ n : Nat, e = -n := ⟨e.natAbs, by omega⟩
    simp [Rat.mkRat_eq_div]

private theorem ten_zpow_le_of_nonneg {a b : Nat} (hb : b ≠ 0) (hpair : (10 : Rat) ^ a ≤ 2 ^ b)
    {x y : Int} (hy : 0 ≤ y) (h : x * b ≤ a * y) : (10 : Rat) ^ x ≤ 2 ^ y := by
  rw [← pow_le_pow_iff_left₀ (by positivity) (by positivity) hb]
  calc ((10 : Rat) ^ x) ^ b = (10 : Rat) ^ (x * b) := by rw [zpow_mul, zpow_natCast]
    _ ≤ (10 : Rat) ^ (a * y) := zpow_le_zpow_right₀ (by norm_num) h
    _ = ((10 : Rat) ^ a) ^ y := by rw [zpow_mul, zpow_natCast]
    _ ≤ ((2 : Rat) ^ b) ^ y := zpow_le_zpow_left₀ hy (by positivity) hpair
    _ = ((2 : Rat) ^ y) ^ b := by rw [← zpow_natCast, ← zpow_natCast, zpow_comm]

private theorem ten_zpow_le_of_nonpos {a b : Nat} (hb : b ≠ 0) (hpair : (2 : Rat) ^ b ≤ 10 ^ a)
    {x y : Int} (hy : y ≤ 0) (h : x * b ≤ a * y) : (10 : Rat) ^ x ≤ 2 ^ y := by
  rw [← pow_le_pow_iff_left₀ (by positivity) (by positivity) hb]
  have hinverse : ((10 : Rat) ^ a) ^ y ≤ ((2 : Rat) ^ b) ^ y := by
    obtain ⟨n, rfl⟩ : ∃ n : Nat, y = -n := ⟨y.natAbs, by omega⟩
    rw [zpow_neg, zpow_neg, zpow_natCast, zpow_natCast]
    exact inv_anti₀ (by positivity) (pow_le_pow_left₀ (by positivity) hpair n)
  calc ((10 : Rat) ^ x) ^ b = (10 : Rat) ^ (x * b) := by rw [zpow_mul, zpow_natCast]
    _ ≤ (10 : Rat) ^ (a * y) := zpow_le_zpow_right₀ (by norm_num) h
    _ = ((10 : Rat) ^ a) ^ y := by rw [zpow_mul, zpow_natCast]
    _ ≤ ((2 : Rat) ^ b) ^ y := hinverse
    _ = ((2 : Rat) ^ y) ^ b := by rw [← zpow_natCast, ← zpow_natCast, zpow_comm]

private theorem ten_zpow_le {t b : Int} (h : 4096 * t ≤ 1233 * b) (hlow : -1074 ≤ b)
    (hhigh : b ≤ 1024) : (10 : Rat) ^ (t - 2) ≤ 2 ^ (b - 1) := by
  rcases le_or_gt 1 b with hpos | hneg
  · exact ten_zpow_le_of_nonneg (a := 3) (b := 10) (by decide) (by norm_num) (by omega) (by omega)
  · exact ten_zpow_le_of_nonpos (a := 28) (b := 93) (by decide) (by norm_num) (by omega) (by omega)

/-- The point stands no further right than it must. -/
theorem tenPow_pointOf_le {q : Rat} (h : (2 : Rat) ^ (-1074 : Int) ≤ q)
    (h' : q < (2 : Rat) ^ (1024 : Int)) : (10 : Rat) ^ (pointOf q - 1) ≤ q := by
  have hpos : 0 < q := lt_of_lt_of_le (by positivity) h
  obtain ⟨hlow, hhigh⟩ := log_bounds hpos
  have hstep {p : Int} (hp : (10 : Rat) ^ (p - 1) ≤ q) :
      (10 : Rat) ^ ((if q < tenPow p then p else p + 1) - 1) ≤ q := by
    split
    · exact hp
    · rename_i hmore
      rw [add_sub_cancel_right, ← tenPow_eq]
      exact not_lt.mp hmore
  unfold pointOf
  dsimp only
  generalize (q.num.natAbs.log2 : Int) - (q.den.log2 : Int) = bits at *
  refine hstep (hstep (hstep (hstep ?_)))
  have hleast : -1074 < bits + 1 :=
    (zpow_lt_zpow_iff_right₀ one_lt_two).mp (lt_of_le_of_lt h hhigh)
  have hmost : bits - 1 < 1024 := (zpow_lt_zpow_iff_right₀ one_lt_two).mp (lt_trans hlow h')
  have hguess : 4096 * Int.fdiv (bits * 1233) 4096 ≤ 1233 * bits := by
    rw [Int.fdiv_eq_ediv_of_nonneg _ (by decide)]
    omega
  calc (10 : Rat) ^ (Int.fdiv (bits * 1233) 4096 - 1 - 1)
      = (10 : Rat) ^ (Int.fdiv (bits * 1233) 4096 - 2) := by
        congr 1
        ring
    _ ≤ 2 ^ (bits - 1) := ten_zpow_le hguess (by omega) (by omega)
    _ ≤ q := hlow.le

/-! ## Digits that read back -/

variable {m n : Nat} {e g : Int}

def ReadsAs (m : Nat) (e : Int) (n : Nat) (g : Int) : Prop :=
  nearest false ((n : Rat) * (10 : Rat) ^ g) = .finite false m e

/-- Decimals of one value read as one number. -/
theorem ReadsAs.unique {m' n' : Nat} {e' g' : Int} (h : ReadsAs m e n g) (h' : ReadsAs m' e' n' g')
    (hvalue : (n : Rat) * (10 : Rat) ^ g = (n' : Rat) * (10 : Rat) ^ g') : m = m' ∧ e = e' := by
  rw [ReadsAs, hvalue, h'] at h
  cases h
  exact ⟨rfl, rfl⟩

private theorem readsAs_eighteen (hformat : InFormat m e) (hm : m ≠ 0) {point : Int}
    (hpoint : (10 : Rat) ^ (point - 1) ≤ m * (2 : Rat) ^ e) :
    ReadsAs m e (roundHalfEven ((m * (2 : Rat) ^ e) * tenPow (18 - point))).toNat (point - 18) := by
  have htwo : (0 : Rat) < (2 : Rat) ^ e := by positivity
  have hten : (0 : Rat) < (10 : Rat) ^ (point - 18) := by positivity
  have hwide : (10 : Rat) ^ (point - 18) < (2 : Rat) ^ e / 2 := by
    have hsplit : (10 : Rat) ^ (point - 1) = 10 ^ 17 * (10 : Rat) ^ (point - 18) := by
      rw [← zpow_natCast, ← zpow_add₀ (by norm_num)]
      congr 1
      ring
    have htop : (m : Rat) ≤ 2 ^ 53 := by exact_mod_cast hformat.1.le
    rw [hsplit] at hpoint
    nlinarith
  have hscale : tenPow (18 - point) = ((10 : Rat) ^ (point - 18))⁻¹ := by
    rw [tenPow_eq, ← zpow_neg]
    congr 1
    ring
  generalize hx : (m * (2 : Rat) ^ e) * tenPow (18 - point) = x
  have hback : (m : Rat) * (2 : Rat) ^ e = x * (10 : Rat) ^ (point - 18) := by
    rw [← hx, hscale, inv_mul_cancel_right₀ hten.ne']
  have hnonneg : 0 ≤ roundHalfEven x := by
    have hpos : 0 ≤ x := by
      rw [← hx, hscale]
      positivity
    exact le_trans (Rat.le_floor_iff.mpr (by exact_mod_cast hpos)) (floor_le_roundHalfEven x)
  have hcast : ((roundHalfEven x).toNat : Rat) = (roundHalfEven x : Rat) := by
    rw [← Int.cast_natCast, Int.toNat_of_nonneg hnonneg]
  refine nearest_eq hformat hm ?_ false
  rw [hcast, hback, ← sub_mul, abs_mul, abs_of_pos hten]
  have hround := abs_roundHalfEven_sub_le x
  nlinarith

private theorem readsAs_of_nearestHit {x : Rat} {target : Binary64} {grid : Int}
    (htarget : target = .finite false m e)
    (h : nearestHit x (fun n => nearest false ((n : Rat) * tenPow grid) == target) = some n) :
    ReadsAs m e n grid := by
  have hhit : (nearest false ((n : Rat) * tenPow grid) == target) = true := by
    unfold nearestHit at h
    dsimp only at h
    generalize (if (roundHalfEven x).toNat = x.floor.toNat then x.floor.toNat + 1
      else x.floor.toNat) = far at h
    split at h
    · cases h
      assumption
    · split at h
      · cases h
        assumption
      · cases h
  rw [beq_iff_eq, tenPow_eq, htarget] at hhit
  exact hhit

private theorem readsAs_shortestFrom (hformat : InFormat m e) (hm : m ≠ 0) {point : Int}
    (hpoint : (10 : Rat) ^ (point - 1) ≤ m * (2 : Rat) ^ e) (more k : Nat) (hk : more + k = 18) :
    ReadsAs m e (shortestFrom (m * (2 : Rat) ^ e) (.finite false m e) point more k).1
      (shortestFrom (m * (2 : Rat) ^ e) (.finite false m e) point more k).2 := by
  induction more generalizing k with
  | zero =>
    have hlast : k = 18 := by omega
    subst hlast
    exact readsAs_eighteen hformat hm hpoint
  | succ more ih =>
    rw [shortestFrom]
    split
    · rename_i n hn
      exact readsAs_of_nearestHit rfl hn
    · exact ih (k + 1) (by omega)

/-- Trailing zeros make no difference to the value. -/
theorem trim_value (n : Nat) (g : Int) :
    ((trim n g).1 : Rat) * (10 : Rat) ^ (trim n g).2 = (n : Rat) * (10 : Rat) ^ g := by
  fun_induction trim n g with
  | case1 n g h ih =>
    rw [ih, zpow_add₀ (by norm_num), zpow_one]
    have hdiv : ((n / 10 : Nat) : Rat) * 10 = n := by
      exact_mod_cast Nat.div_mul_cancel (Nat.dvd_of_mod_eq_zero h.2)
    rw [← hdiv]
    ring
  | case2 => rfl

/-- The fewest digits of a number read as it. -/
theorem readsAs_shortest (hformat : InFormat m e) (hm : m ≠ 0) :
    ReadsAs m e (shortest m e).1 (shortest m e).2 := by
  have hvalue : (m : Rat) * twoPow e = m * (2 : Rat) ^ e := by rw [twoPow_eq]
  have hone : (1 : Rat) ≤ m := by exact_mod_cast Nat.one_le_iff_ne_zero.mpr hm
  obtain ⟨hlt, hlow, hhigh, -⟩ := id hformat
  have hleast : (2 : Rat) ^ (-1074 : Int) ≤ m * (2 : Rat) ^ e :=
    calc (2 : Rat) ^ (-1074 : Int) ≤ (2 : Rat) ^ e := zpow_le_zpow_right₀ (by norm_num) hlow
      _ ≤ m * (2 : Rat) ^ e := le_mul_of_one_le_left (by positivity) hone
  have hmost : m * (2 : Rat) ^ e < (2 : Rat) ^ (1024 : Int) :=
    calc m * (2 : Rat) ^ e < 2 ^ 53 * (2 : Rat) ^ e :=
          mul_lt_mul_of_pos_right (by exact_mod_cast hlt) (by positivity)
      _ = (2 : Rat) ^ (53 + e) := by rw [zpow_add₀ (by norm_num)]; rfl
      _ ≤ (2 : Rat) ^ (1024 : Int) := zpow_le_zpow_right₀ (by norm_num) (by omega)
  have hreads := readsAs_shortestFrom hformat hm (tenPow_pointOf_le hleast hmost) 17 1 rfl
  unfold shortest
  dsimp only
  rw [hvalue, ReadsAs, trim_value]
  exact hreads

end DurableFlow.Binary64
