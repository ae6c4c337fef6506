import Mathlib.Algebra.Order.Field.Power
import DurableFlow.Proofs.Binary64.Roundings

/-! Powers of two. They are numbers of the format up to the exponent 1023; what reaches the next one is
beyond the largest number. -/
namespace DurableFlow.Binary64

variable {q : Rat} {k n : Nat} {s : Bool}

/-! ## Roundings -/

/-- A number of the format is its own nearest number. -/
theorem nearest_self {m : Nat} {e : Int} (hformat : InFormat m e) (hm : m ≠ 0) (s : Bool) :
    nearest s (m * (2 : Rat) ^ e) = .finite s m e := by
  refine nearest_eq hformat hm ?_ s
  rw [sub_self, abs_zero]
  positivity

theorem inFormat_top {e : Int} (h : -1074 ≤ e) (h' : e ≤ 971) : InFormat (2 ^ 52) e :=
  ⟨by decide, h, h', .inl (Nat.le_refl _)⟩

theorem nearest_two_pow (hk : k ≤ 1023) : nearest s ((2 : Rat) ^ k) = .finite s (2 ^ 52) (k - 52) := by
  have hvalue : (2 : Rat) ^ k = (2 ^ 52 : Nat) * (2 : Rat) ^ ((k : Int) - 52) := by
    rw [zpow_sub₀ (by norm_num), zpow_natCast]
    push_cast
    field_simp
  rw [hvalue]
  exact nearest_self (inFormat_top (by omega) (by omega)) (by decide) s

/-- What a magnitude of a power of two or more is rounded to: it is no less than the power. -/
theorem nearest_of_le (h : (2 : Rat) ^ k ≤ q) : ∃ (m : Nat) (e : Int), (2 : Rat) ^ k ≤ m * (2 : Rat) ^ e ∧
    (k : Int) - 52 ≤ e ∧ nearest s q = if 971 < e then .infinite s else .finite s m e := by
  have hpos : 0 < q := lt_of_lt_of_le (by positivity) h
  obtain ⟨t, hlow, hhigh⟩ := exists_mem_Ico_zpow hpos one_lt_two
  have hkt : (k : Int) ≤ t := by
    have hless : (2 : Rat) ^ (k : Int) < (2 : Rat) ^ (t + 1) := by
      rw [zpow_natCast]
      exact lt_of_le_of_lt h hhigh
    have := (zpow_lt_zpow_iff_right₀ (one_lt_two (α := Rat))).mp hless
    omega
  obtain ⟨m, e, hm, -, he, -, hnearest⟩ := nearest_close (by omega) hlow hhigh s
  refine ⟨m, e, ?_, by omega, hnearest⟩
  calc (2 : Rat) ^ k = (2 : Rat) ^ (k : Int) := (zpow_natCast 2 k).symm
    _ ≤ (2 : Rat) ^ ((52 : Nat) + e) := zpow_le_zpow_right₀ (by norm_num) (by omega)
    _ = (2 ^ 52 : Nat) * (2 : Rat) ^ e := by
        rw [zpow_add₀ (by norm_num), zpow_natCast]
        norm_num
    _ ≤ m * (2 : Rat) ^ e := by gcongr

/-- What reaches two to the power of 1024 is beyond the largest number. -/
theorem nearest_infinite (h : (2 : Rat) ^ 1024 ≤ q) : nearest s q = .infinite s := by
  obtain ⟨m, e, -, he, hnearest⟩ := nearest_of_le (s := s) h
  rw [hnearest, if_pos (by push_cast at he; omega)]

/-! ## Integers -/

/-- An integer of at most 53 bits is a number of the format. -/
theorem ofInt?_natCast (h : n < 2 ^ 53) : ∃ d, ofInt? n = some d ∧ d.value? = some (n : Rat) := by
  by_cases hzero : n = 0
  · subst hzero
    exact ⟨zero false, rfl, by simp [zero, value?]⟩
  · have hlow := Nat.log2_self_le hzero
    have hhigh : n < 2 ^ (n.log2 + 1) := Nat.lt_log2_self
    have hlog : n.log2 < 53 := (Nat.log2_lt hzero).mpr h
    generalize n.log2 = t at *
    have hsplit : 2 ^ t * 2 ^ (52 - t) = 2 ^ 52 := by rw [← Nat.pow_add]; congr 1; omega
    have hformat : InFormat (n * 2 ^ (52 - t)) (-(52 - t : Nat)) := by
      refine ⟨?_, by omega, by omega, .inl ?_⟩
      · calc n * 2 ^ (52 - t) < 2 ^ (t + 1) * 2 ^ (52 - t) :=
              Nat.mul_lt_mul_of_pos_right hhigh (by positivity)
          _ = 2 ^ 53 := by
              rw [Nat.pow_succ, Nat.mul_right_comm, hsplit]
              rfl
      · rw [← hsplit]
        exact Nat.mul_le_mul_right _ hlow
    have hvalue : ((n * 2 ^ (52 - t) : Nat) : Rat) * (2 : Rat) ^ (-(52 - t : Nat) : Int) = n := by
      rw [zpow_neg, zpow_natCast]
      push_cast
      field_simp
    have hself := nearest_self hformat (by positivity) false
    rw [hvalue] at hself
    refine ⟨.finite false (n * 2 ^ (52 - t)) (-(52 - t : Nat)), ?_, ?_⟩
    · have hpos : ¬ ((n : Int) : Rat) < 0 := by simp
      unfold ofInt? ofRat
      rw [if_neg hpos, Int.cast_natCast, hself]
    · simp only [value?, twoPow_eq, hvalue]
      rfl

/-- The number nearest to a large integer is no less than a power of two below it. -/
theorem le_of_ofInt? (h : 2 ^ k ≤ n) {d : Binary64} (hd : ofInt? n = some d) :
    ∃ q, d.value? = some q ∧ (2 : Rat) ^ k ≤ q := by
  have hle : (2 : Rat) ^ k ≤ (n : Rat) := by exact_mod_cast h
  obtain ⟨m, e, hvalue, -, hnearest⟩ := nearest_of_le (s := false) hle
  have hpos : ¬ ((n : Int) : Rat) < 0 := by simp
  unfold ofInt? ofRat at hd
  rw [if_neg hpos, Int.cast_natCast, hnearest] at hd
  by_cases hlarge : 971 < e
  · rw [if_pos hlarge] at hd
    cases hd
  · rw [if_neg hlarge] at hd
    cases hd
    refine ⟨_, rfl, ?_⟩
    simpa [twoPow_eq] using hvalue

/-! ## Powers -/

/-- Stripping takes all the factors two away. -/
theorem strip_two_pow (k : Nat) (e : Int) : strip (2 ^ k) e = (1, e + k) := by
  induction k generalizing e with
  | zero =>
    unfold strip
    simp
  | succ k ih =>
    have heven : 2 ^ (k + 1) ≠ 0 ∧ 2 ^ (k + 1) % 2 = 0 :=
      ⟨by positivity, Nat.mul_mod_left _ _⟩
    unfold strip
    rw [dif_pos heven, Nat.pow_succ, Nat.mul_div_cancel _ (by decide), ih]
    push_cast
    ring_nf

private theorem cut_one (e : Int) : cut 1 e = (1, e) := by
  have hextra : Nat.log2 1 + 1 - 256 = 0 := rfl
  unfold cut
  rw [hextra]
  simp

/-- The powers of a power of two need no cut. -/
theorem cutPower_one (e : Int) (n : Nat) : cutPower 1 e n = (1, n * e) := by
  induction n using Nat.strong_induction_on with
  | _ n ih =>
    unfold cutPower
    split
    · rename_i hzero
      simp [hzero]
    · rename_i hpos
      rw [ih (n / 2) (by omega)]
      dsimp only
      rw [Nat.mul_one, cut_one]
      dsimp only
      rw [Nat.mul_one, cut_one]
      split
      · rename_i heven
        have hhalves : (n : Int) = (n / 2 : Nat) + (n / 2 : Nat) := by omega
        rw [← add_mul, ← hhalves]
      · rename_i hodd
        have hhalves : (n : Int) = (n / 2 : Nat) + (n / 2 : Nat) + 1 := by omega
        rw [← add_mul, ← add_one_mul, ← hhalves]

private theorem pow_two_rounds (hn : n ≠ 0) : (nearest false 2).pow n =
    if 1100 < n then .tooLarge
    else match nearest false ((2 : Rat) ^ n) with
      | .infinite _ => .tooLarge
      | d => .number d := by
  have htwo : nearest false 2 = .finite false (2 ^ 52) (-51) := by
    have h := nearest_two_pow (s := false) (k := 1) (by decide)
    rwa [pow_one] at h
  have hlog : Nat.log2 1 = 0 := rfl
  have hpos : (0 : Int) < n := by omega
  have hsign : (1100 : Int) < n ↔ 1100 < n := by omega
  rw [htwo]
  unfold pow
  dsimp only
  rw [if_neg (by omega)]
  split
  · rename_i hzero
    cases hzero
  · rename_i hinfinite
    cases hinfinite
  · rename_i hzero
    exact absurd (Binary64.finite.inj hzero).2.1 (by norm_num)
  · rename_i hfinite
    obtain ⟨rfl, rfl, rfl⟩ := Binary64.finite.inj hfinite
    rw [strip_two_pow, Int.natAbs_natCast]
    have hone : (-51 : Int) + (52 : Nat) = 1 := rfl
    rw [hone, cutPower_one]
    dsimp only
    rw [if_pos hpos, if_pos hpos, hlog, Nat.cast_zero, add_zero, mul_one, if_neg (c := _ < -1200) (by omega),
      twoPow_eq, Nat.cast_one, one_mul, zpow_natCast, Bool.false_and]
    refine if_congr hsign rfl ?_
    cases nearest false ((2 : Rat) ^ n) <;> rfl

/-- A power of the number two. -/
theorem pow_two_eq (hn : n ≤ 1023) : (nearest false 2).pow n = .number (.finite false (2 ^ 52) (n - 52)) := by
  by_cases hzero : n = 0
  · subst hzero
    have hone := nearest_two_pow (s := false) (k := 0) (by decide)
    rw [pow_zero] at hone
    exact congrArg Power.number hone
  · rw [pow_two_rounds hzero, if_neg (by omega), nearest_two_pow hn]

/-- The powers of the number two that are beyond the largest number. -/
theorem pow_two_tooLarge (hn : 1024 ≤ n) : (nearest false 2).pow n = .tooLarge := by
  rw [pow_two_rounds (by omega)]
  split
  · rfl
  · rw [nearest_infinite (pow_le_pow_right₀ (by norm_num) hn)]

end DurableFlow.Binary64
