import DurableFlow.Proofs.Binary64.PowersOfTwo
import DurableFlow.Retry

/-! How far a rounding goes wrong, and the sums and comparisons of numbers that are settled by it. -/
namespace DurableFlow.Binary64

variable {m n : Nat} {e f : Int} {q : Rat}

/-- A magnitude that is not below all numbers with a full mantissa is rounded with a relative error of at
most a 53rd binary place. -/
theorem nearest_error (h : (2 : Rat) ^ (-1022 : Int) ≤ q) (s : Bool) : ∃ (m : Nat) (e : Int),
    2 ^ 52 ≤ m ∧ m < 2 ^ 53 ∧ -1074 ≤ e ∧ |m * (2 : Rat) ^ e - q| ≤ q / 2 ^ 53 ∧
      nearest s q = if 971 < e then .infinite s else .finite s m e := by
  have hpos : 0 < q := lt_of_lt_of_le (by positivity) h
  obtain ⟨t, hlow, hhigh⟩ := exists_mem_Ico_zpow hpos one_lt_two
  have ht : -1022 < t + 1 := (zpow_lt_zpow_iff_right₀ (one_lt_two (α := Rat))).mp (lt_of_le_of_lt h hhigh)
  obtain ⟨m, e, hm, hm', he, hclose, hnearest⟩ := nearest_close (by omega) hlow hhigh s
  refine ⟨m, e, hm, hm', by omega, hclose.trans ?_, hnearest⟩
  calc (2 : Rat) ^ (t - 53) = (2 : Rat) ^ t / 2 ^ 53 := by
        rw [show t - 53 = t - (53 : Nat) by norm_num, zpow_sub₀ (by norm_num), zpow_natCast]
    _ ≤ q / 2 ^ 53 := by gcongr

/-! ## The largest number -/

def largest : Rat := (2 ^ 53 - 1) * (2 : Rat) ^ (971 : Int)

theorem InFormat.le_largest (h : InFormat m e) : m * (2 : Rat) ^ e ≤ largest := by
  obtain ⟨hm, -, he, -⟩ := h
  have hmantissa : (m : Rat) ≤ 2 ^ 53 - 1 := by
    have hle : ((m + 1 : Nat) : Rat) ≤ ((2 ^ 53 : Nat) : Rat) := Nat.cast_le.mpr hm
    push_cast at hle
    linarith
  exact mul_le_mul hmantissa (zpow_le_zpow_right₀ (by norm_num) he) (by positivity) (by norm_num)

/-- An exponent beyond the format makes a full mantissa larger by a last place at least. -/
theorem largest_add_le (hm : 2 ^ 52 ≤ m) (he : 971 < e) :
    largest + (2 : Rat) ^ (971 : Int) ≤ m * (2 : Rat) ^ e := by
  have hmantissa : (2 : Rat) ^ 52 ≤ m := by exact_mod_cast hm
  calc largest + (2 : Rat) ^ (971 : Int) = 2 ^ 52 * (2 : Rat) ^ ((971 : Int) + 1) := by
        rw [largest, zpow_add_one₀ (by norm_num)]
        ring
    _ ≤ m * (2 : Rat) ^ e :=
        mul_le_mul hmantissa (zpow_le_zpow_right₀ (by norm_num) he) (by positivity) (by positivity)

private theorem last_place_large : (2 : Rat) ^ 100 ≤ (2 : Rat) ^ (971 : Int) := by
  rw [← zpow_natCast]
  exact zpow_le_zpow_right₀ (by norm_num) (by norm_num)

/-- A magnitude of full precision up to one is rounded to a number. -/
theorem nearest_small (h : (2 : Rat) ^ (-1022 : Int) ≤ q) (h' : q ≤ 1) (s : Bool) : ∃ (m : Nat) (e : Int),
    nearest s q = .finite s m e ∧ |m * (2 : Rat) ^ e - q| ≤ q / 2 ^ 53 := by
  obtain ⟨m, e, hm, -, -, hclose, hnearest⟩ := nearest_error h s
  have hfits : ¬ 971 < e := by
    intro hover
    have hbeyond := largest_add_le hm hover
    have habove := (abs_le.mp hclose).2
    have hlarge := last_place_large
    unfold largest at hbeyond
    generalize (2 : Rat) ^ (971 : Int) = u at *
    linarith
  exact ⟨m, e, by rw [hnearest, if_neg hfits], hclose⟩

/-! ## Sums and comparisons -/

/-- A number has a sum with a small one, however large it is. -/
theorem add_small (hformat : InFormat m e) (hlow : (2 : Rat) ^ (-1022 : Int) ≤ n * (2 : Rat) ^ f)
    (hhigh : n * (2 : Rat) ^ f ≤ 2) :
    ∃ k g, (finite false m e).add (finite false n f) = .finite false k g ∧ k ≠ 0 ∧ InFormat k g := by
  have hsmall : (0 : Rat) < n * (2 : Rat) ^ f := lt_of_lt_of_le (by positivity) hlow
  have hnumber : (0 : Rat) ≤ m * (2 : Rat) ^ e := by positivity
  obtain ⟨k, g, hk, hk', hg, hclose, hnearest⟩ :=
    nearest_error (q := m * (2 : Rat) ^ e + n * (2 : Rat) ^ f) (by linarith) false
  -- half a last place of the largest number is far more than the small one
  have hfits : ¬ 971 < g := by
    intro hover
    have hbeyond := largest_add_le hk hover
    have hle := hformat.le_largest
    have habove := (abs_le.mp hclose).2
    have hlarge := last_place_large
    unfold largest at hle hbeyond
    generalize (2 : Rat) ^ (971 : Int) = u at *
    norm_num at hlarge
    linarith
  refine ⟨k, g, ?_, by omega, hk', hg, by omega, .inl hk⟩
  have hsum : ((finite false m e).value?.getD 0) + ((finite false n f).value?.getD 0) =
      m * (2 : Rat) ^ e + n * (2 : Rat) ^ f := by
    simp [value?, twoPow_eq]
  unfold add
  dsimp only
  rw [hsum, if_neg (by linarith : ¬ m * (2 : Rat) ^ e + n * (2 : Rat) ^ f = 0), ofRat,
    if_neg (by linarith), hnearest, if_neg hfits]

/-- Two numbers compare as their values do. -/
theorem lt_of_values {a b : Binary64} {p q : Rat} (ha : a.value? = some p) (hb : b.value? = some q) :
    (Amount.double a).lt (.double b) = decide (p < q) := by
  cases a with
  | finite s m e =>
    cases b with
    | finite t n f =>
      simp only [Amount.lt, Amount.place?, Amount.toJson, Json.place?, place?, ha, hb, Option.map_some]
      rfl
    | infinite t => cases hb
    | nan => cases hb
  | infinite s => cases ha
  | nan => cases ha

theorem value?_positive (m : Nat) (e : Int) : (finite false m e).value? = some (m * (2 : Rat) ^ e) := by
  rw [value?, twoPow_eq]
  rfl

theorem value?_zero : (zero false).value? = some 0 := by
  rw [zero, value?_positive, Nat.cast_zero, zero_mul]

end DurableFlow.Binary64
