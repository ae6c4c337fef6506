import Mathlib.Data.Rat.Floor
import Mathlib.Tactic.Positivity
import Mathlib.Tactic.Linarith
import Mathlib.Tactic.FieldSimp
import DurableFlow.Proofs.Binary64.Roundings
import DurableFlow.Proofs.Store.CopiedReads
import DurableFlow.Proofs.ZonedTimes

/-! When a due context wakes. A server compares scores, which are rounded beyond 53 bits; yet no
context is due there before its time. -/
namespace DurableFlow

namespace Binary64

/-- An integer of more than 53 bits has a mantissa of full length. -/
theorem scaleOf_natCast {n : Nat} (h : n ≠ 0) :
    scaleOf (n : Rat) = max ((n.log2 : Int) - 52) (-1074) := by
  have hle : twoPow (n.log2 : Int) ≤ (n : Rat) := by
    rw [twoPow_eq, zpow_natCast]
    exact_mod_cast Nat.log2_self_le h
  have hone : Nat.log2 1 = 0 := by decide
  simp [scaleOf, hone, not_lt.mpr hle]

private theorem le_mul_twoPow {m : Nat} {e : Int} (hm : 2 ^ 52 ≤ m) (he : 1 ≤ e) :
    (2 : Rat) ^ 53 ≤ (m : Rat) * twoPow e := by
  have hm' : (2 : Rat) ^ 52 ≤ (m : Rat) := by exact_mod_cast hm
  have he' : (2 : Rat) ^ (1 : Int) ≤ (2 : Rat) ^ e := zpow_le_zpow_right₀ (by norm_num) he
  rw [twoPow_eq]
  calc (2 : Rat) ^ 53 = 2 ^ 52 * (2 : Rat) ^ (1 : Int) := by norm_num
    _ ≤ (m : Rat) * (2 : Rat) ^ e := mul_le_mul hm' he' (by positivity) (by positivity)

private theorem le_mantissa {n : Nat} (hn : n ≠ 0) (hlog : 53 ≤ n.log2) :
    2 ^ 52 ≤ (roundHalfEven ((n : Rat) * twoPow (-(n.log2 - 52 : Nat)))).toNat := by
  have hself : (2 : Rat) ^ n.log2 ≤ n := by exact_mod_cast Nat.log2_self_le hn
  have hle : (2 : Rat) ^ 52 ≤ (n : Rat) * twoPow (-(n.log2 - 52 : Nat)) := by
    rw [twoPow_eq, zpow_neg, zpow_natCast, ← div_eq_mul_inv, le_div_iff₀ (by positivity), ← pow_add,
      Nat.add_sub_cancel' (by omega : 52 ≤ n.log2)]
    exact hself
  have hfloor : (2 ^ 52 : Int) ≤ ((n : Rat) * twoPow (-(n.log2 - 52 : Nat))).floor := by
    rw [Rat.le_floor_iff]
    exact_mod_cast hle
  have hround := floor_le_roundHalfEven ((n : Rat) * twoPow (-(n.log2 - 52 : Nat)))
  omega

/-- An integer of more than 53 bits does not become a number of fewer. -/
theorem le_of_nearest {n : Nat} (h : 2 ^ 53 ≤ n) {q : Rat}
    (hq : (nearest false (n : Rat)).value? = some q) : 2 ^ 53 ≤ q := by
  have hn : n ≠ 0 := by omega
  have hlog : 53 ≤ n.log2 := (Nat.le_log2 hn).mpr h
  have hscale : scaleOf (n : Rat) = ((n.log2 - 52 : Nat) : Int) := by
    rw [scaleOf_natCast hn]
    omega
  have hpos : ¬ ((n : Rat) ≤ 0) := by
    have hlt : (0 : Rat) < n := by exact_mod_cast Nat.pos_of_ne_zero hn
    exact not_le.mpr hlt
  have hmantissa := le_mantissa hn hlog
  simp only [nearest, if_neg hpos, hscale] at hq
  split at hq
  · split at hq
    · cases hq
    · cases hq
      exact le_mul_twoPow (Nat.le_refl _) (by omega)
  · split at hq
    · cases hq
    · cases hq
      exact le_mul_twoPow hmantissa (by omega)

end Binary64

namespace Store.Scored

/-- Only scores beyond 53 bits are rounded, and never to below them: a score up to a time that has
fewer bits is that of an earlier time. -/
theorem le_of_scoreOf_le {t bound : Int} (hbound : bound.natAbs < 2 ^ 53)
    (h : scoreOf t ≤ scoreOf bound) : t ≤ bound := by
  have hb : scoreOf bound = bound := if_pos (Nat.le_of_lt hbound)
  rw [hb] at h
  by_cases ht : t.natAbs ≤ Nat.pow 2 53
  · rwa [scoreOf, if_pos ht] at h
  · have hlarge : ¬ t.natAbs ≤ 2 ^ 53 := ht
    by_cases hneg : t ≤ 0
    · omega
    · obtain ⟨n, rfl⟩ : ∃ n : Nat, t = n := ⟨t.natAbs, by omega⟩
      have hn : 2 ^ 53 ≤ n := by omega
      rw [scoreOf, if_neg ht] at h
      split at h
      · rename_i q hq
        obtain ⟨d, hd, hv⟩ := Option.bind_eq_some_iff.mp hq
        have hnear : (Binary64.nearest false (n : Rat)).value? = some q := by
          have hpos : ¬ (n : Rat) < 0 := not_lt.mpr (Nat.cast_nonneg n)
          simp only [Binary64.ofInt?, Binary64.ofRat, Int.cast_natCast, if_neg hpos] at hd
          split at hd
          · cases hd
          · cases hd
            exact hv
        have hle : ((2 ^ 53 : Int) : Rat) ≤ q := by exact_mod_cast Binary64.le_of_nearest hn hnear
        have := Rat.le_floor_iff.mpr hle
        omega
      · exact h

end Store.Scored
namespace Moment

/-- A time that a clock shows, in milliseconds, has fewer than 53 bits. -/
theorem IsShown.millis_lt {t : Moment} (h : t.IsShown) : t.millis.natAbs < 2 ^ 53 := by
  have hclock := isDated_iff.mp h.dated
  have hnear := h.near
  simp only [utc, clock] at hclock
  unfold millis
  rw [Int.fdiv_eq_ediv_of_nonneg _ (by decide)]
  omega

/-- A time between the years 1 and 9999, in milliseconds, has fewer than 53 bits. -/
theorem millis_lt {t : Moment} (h : t.isDated = true) : t.millis.natAbs < 2 ^ 53 := by
  have hd := isDated_iff.mp h
  unfold millis
  rw [Int.fdiv_eq_ediv_of_nonneg _ (by decide)]
  omega

end Moment

namespace Store

/-- The milliseconds of a time are a score as they are. -/
theorem scoreOf_millis {t : Moment} (h : t.isDated = true) : Scored.scoreOf t.millis = t.millis :=
  if_pos (Nat.le_of_lt (Moment.millis_lt h))

theorem scoreOf_shown {t : Moment} (h : t.IsShown) : Scored.scoreOf t.millis = t.millis :=
  if_pos (Nat.le_of_lt h.millis_lt)

def Come (t : Moment) (c : Context) : Prop := ∃ w, c.wakeup = some w ∧ t.isBefore w = false

def Awaited (k : Kind) (t : Moment) (c : Context) : Prop :=
  ∃ w, c.wakeup = some w ∧ t.isBefore (k.time w) = false

theorem awaited_of_row {s : Store} {i : String} {t : Moment} {r : Context} (hr : s.row? i = some r)
    (ht : Come t r) : Awaited s.kind t r := by
  obtain ⟨w, hw, hcome⟩ := ht
  have hkept := (mirrors_row hr).wakeup
  rw [hw, Option.map_some, Option.some.injEq] at hkept
  exact ⟨w, hw, hkept ▸ hcome⟩

theorem Copied.awaited {s : Store} {t : Moment} {c : Context} (h : Copied s c) (ht : Come t c) :
    Awaited s.kind t c := by
  obtain ⟨i, r, -, hr, rfl⟩ := h
  have hrow : Awaited s.kind t r := awaited_of_row hr ht
  exact hrow

/-- A copy of a row with a time of so many milliseconds. -/
theorem come_of_millis {t : Moment} {c : Context} {ms : Int}
    (hw : c.wakeup = some (Moment.ofMillis ms)) (h : ms ≤ t.millis) : Come t c := by
  refine ⟨_, hw, ?_⟩
  have hstep : t.InStep (Moment.ofMillis ms) := t.inStep_utc _
  rw [hstep, decide_eq_false_iff_not]
  simp only [Moment.millis, Moment.ofMillis, Moment.utc] at h ⊢
  rw [Int.fdiv_eq_ediv_of_nonneg _ (by decide)] at h
  omega

/-- A due context waits, and its time has come. -/
theorem Sound.due_come {s : Store} (hs : s.Sound) {t : Moment} (ht : t.IsShown)
    {limit : Json} {cs : List Context} (h : s.due (some t) limit = .ok cs) {c : Context}
    (hc : c ∈ cs) : Come t c := by
  cases s with
  | memory m =>
    obtain ⟨found, hfound, h⟩ := bind_eq_ok.mp h
    obtain ⟨⟨i, d⟩, _, hf⟩ := of_mem_filterMapM hfound (List.mem_mergeSort.mp (mem_of_limited h hc))
    obtain ⟨b, hb, hf⟩ := bind_eq_ok.mp hf
    cases b with
    | false => cases hf
    | true =>
      cases hf
      unfold Context.isDue at hb
      split at hb
      · rename_i w _ hw
        refine ⟨w, hw, ?_⟩
        by_cases hz : w.zoned = t.zoned
        · simpa [Context.hasCome, Moment.notAfter?, hz] using hb
        · simp [Context.hasCome, Moment.notAfter?, hz] at hb
      · cases hb
  | rows r =>
    obtain ⟨_, _, h⟩ := bind_eq_ok.mp h
    obtain ⟨bound, _, h⟩ := bind_eq_ok.mp h
    obtain ⟨-, rfl⟩ := mapM_read_eq_ok.mp h
    obtain ⟨row, hrow, rfl⟩ := List.mem_map.mp hc
    obtain ⟨_, hdue⟩ := List.mem_filter.mp (List.mem_mergeSort.mp (List.mem_of_mem_take hrow))
    cases hw : row.wakeup with
    | none => simp [hw] at hdue
    | some ms =>
      have hle : row.completed = none ∧ ms ≤ t.millis := by simpa [hw] using hdue
      exact come_of_millis (by simp only [ContextRow.context, hw, Option.map_some]) hle.2
  | keys k =>
    obtain ⟨_, _, h⟩ := bind_eq_ok.mp h
    obtain ⟨ids, hids, h⟩ := bind_eq_ok.mp h
    obtain ⟨i, hi, ⟨j, r, hj, hr, he⟩, hid⟩ := rowsOf_copied hs h hc
    obtain ⟨row, ms, latest, hrow, _, hwake, hlatest, hle⟩ := waiting_of_dueIds hs hids hi
    cases hlatest
    rw [hid] at hj
    cases hj
    simp only [row?, hrow, Option.some.injEq] at hr
    subst hr
    have hw : c.wakeup = some (Moment.ofMillis ms) := by
      rw [he]
      simp only [ContextRow.context, hwake, Option.map_some]
    exact come_of_millis hw (Scored.le_of_scoreOf_le ht.millis_lt hle)

end Store
end DurableFlow
