import DurableFlow.Settings
import DurableFlow.Proofs.Binary64.PowersOfTwo
import DurableFlow.Proofs.Engine.RetriedInputs

/-! The usual delays. Each is twice the one before it until the longest is reached; the power that gives
them leaves the format at the 1025th try, which is where an input with more tries than that ends. -/
namespace DurableFlow

open Binary64 (nearest twoPow)

namespace RetryPolicy
variable {k n a : Nat}

def usual (n : Nat) : RetryPolicy := ⟨.int n, usualInitialDelay, usualMaxDelay, usualMultiplier⟩

theorem withMaxAttempts_eq_usual (hn : 1 ≤ n) : withMaxAttempts (.int n) = .ok (usual n) := by
  have hfew : (Amount.int n).lt (.int 1) = false := by
    simp only [Amount.lt, Amount.place?_of_whole (a := .int n) rfl, Amount.place?_of_whole (a := .int 1) rfl,
      Binary64.Place.lt, decide_eq_false_iff_not, not_lt]
    exact_mod_cast hn
  have hdelays : usualInitialDelay.lt (.int 0) = false ∧ usualMaxDelay.lt (.int 0) = false := by
    decide
  have hread : Amount.ofJson (.int n) = .ok (.int n) := rfl
  have hfirst : Amount.ofJson usualInitialDelay.toJson = .ok usualInitialDelay := rfl
  have hlongest : Amount.ofJson usualMaxDelay.toJson = .ok usualMaxDelay := rfl
  simp only [withMaxAttempts, ofValues, hread, hfirst, hlongest, hfew, hdelays, bind, Except.bind]
  rfl

/-! ## Growth -/

/-- How much the first delay grows to, up to the largest power of two of the format. -/
theorem growth_eq (hk : k ≤ 1023) :
    (Amount.double (nearest false 2)).pow k = .ok (.double (nearest false (2 ^ k))) := by
  obtain ⟨d, hd, hvalue⟩ := Binary64.ofInt?_natCast (n := k) (by omega)
  have hfloor : (d.value?.getD 0).floor = (k : Int) := by
    rw [hvalue]
    exact Rat.floor_intCast k
  have hpower : (nearest false 2).pow k = .number (nearest false (2 ^ k)) := by
    rw [Binary64.pow_two_eq hk, Binary64.nearest_two_pow hk]
  change Amount.doublePower (nearest false 2) k = _
  simp only [Amount.doublePower, Amount.doubleOf, hd, bind, Except.bind, hfloor, hpower]
  rfl

/-- Beyond it there is no growth to be had. -/
theorem growth_tooLarge (hk : 1024 ≤ k) :
    ∃ x, (Amount.double (nearest false 2)).pow k = .error (.tooLarge x) ∧ (k < 2 ^ 53 → x = .power) := by
  change ∃ x, Amount.doublePower (nearest false 2) k = _ ∧ _
  cases hd : Binary64.ofInt? k with
  | none =>
    refine ⟨.double, ?_, fun hsmall => ?_⟩
    · simp only [Amount.doublePower, Amount.doubleOf, hd]
      rfl
    · obtain ⟨d, hd', -⟩ := Binary64.ofInt?_natCast hsmall
      cases hd.symm.trans hd'
  | some d =>
    obtain ⟨q, hvalue, hq⟩ := Binary64.le_of_ofInt? (k := 10) (by omega) hd
    have hfloor : (1024 : Int) ≤ (d.value?.getD 0).floor := by
      rw [hvalue]
      refine Rat.le_floor_iff.mpr (le_trans ?_ hq)
      norm_num
    obtain ⟨m, hm⟩ := Int.eq_ofNat_of_zero_le (le_trans (by decide) hfloor)
    rw [hm] at hfloor
    have hpower := Binary64.pow_two_tooLarge (n := m) (by exact_mod_cast hfloor)
    refine ⟨.power, ?_, fun _ => rfl⟩
    simp only [Amount.doublePower, Amount.doubleOf, hd, bind, Except.bind, hm, hpower]
    rfl

/-! ## Delays -/

private theorem lt_of_places {a b : Amount} {p q : Binary64.Place} (ha : a.place? = some p)
    (hb : b.place? = some q) : a.lt b = p.lt q := by
  simp only [Amount.lt, ha, hb]

private theorem place?_finite (m : Nat) (e : Int) :
    (Amount.double (.finite false m e)).place? = some (.exactly (m * (2 : Rat) ^ e)) := by
  rw [← Binary64.twoPow_eq]
  rfl

private theorem place?_usualMaxDelay : usualMaxDelay.place? = some (.exactly 200) := rfl

/-- The first delay, grown. -/
theorem usualInitialDelay_mul (hk : k ≤ 1023) :
    usualInitialDelay.mul (.double (nearest false (2 ^ k))) = .ok (.double (nearest false (5 * 2 ^ k))) := by
  have hfive : Amount.toDouble usualInitialDelay = .ok (.finite false (5 * 2 ^ 50) (-50)) := by decide +kernel
  have hvalue : (((5 * 2 ^ 50 * 2 ^ 52 : Nat)) : Rat) * twoPow (-50 + (k - 52)) = 5 * 2 ^ k := by
    rw [Binary64.twoPow_eq, show (-50 : Int) + (k - 52) = k - (102 : Nat) by push_cast; ring,
      zpow_sub₀ (by norm_num), zpow_natCast, zpow_natCast]
    push_cast
    ring
  have hproduct : (Binary64.finite false (5 * 2 ^ 50) (-50)).mul (.finite false (2 ^ 52) (k - 52)) =
      nearest false (5 * 2 ^ k) := by
    rw [← hvalue]
    rfl
  change (do return Amount.double ((← Amount.toDouble usualInitialDelay).mul (nearest false (2 ^ k))) :
    Except Failure Amount) = _
  rw [hfive, Binary64.nearest_two_pow hk, ← hproduct]
  rfl

private theorem min_of_small (hk : k ≤ 5) :
    ((Amount.double (nearest false (5 * 2 ^ k))).min usualMaxDelay).truncate = .ok (5 * 2 ^ k) := by
  have hformat : Binary64.InFormat (5 * 2 ^ 50) (k - 50) := ⟨by decide, by omega, by omega, .inl (by decide)⟩
  have hvalue : ((5 * 2 ^ 50 : Nat) : Rat) * (2 : Rat) ^ ((k : Int) - 50) = 5 * 2 ^ k := by
    rw [zpow_sub₀ (by norm_num), zpow_natCast]
    push_cast
    field_simp
    norm_num
  have hself := Binary64.nearest_self hformat (by decide) false
  rw [hvalue] at hself
  have hless : (2 : Rat) ^ k ≤ 2 ^ 5 := pow_le_pow_right₀ (by norm_num) hk
  have hkept : usualMaxDelay.lt (.double (nearest false (5 * 2 ^ k))) = false := by
    rw [hself, lt_of_places place?_usualMaxDelay (place?_finite _ _), hvalue]
    refine decide_eq_false (not_lt.mpr ?_)
    linarith
  have hfloor : (((5 * 2 ^ 50 : Nat) : Rat) * twoPow (k - 50)).floor = 5 * 2 ^ k := by
    rw [Binary64.twoPow_eq, hvalue]
    exact_mod_cast Rat.floor_intCast (5 * 2 ^ k)
  unfold Amount.min
  rw [hkept, hself]
  exact congrArg Except.ok hfloor

private theorem min_of_large (hk : 6 ≤ k) :
    ((Amount.double (nearest false (5 * 2 ^ k))).min usualMaxDelay).truncate = .ok 200 := by
  have hle : (2 : Rat) ^ (k + 2) ≤ 5 * 2 ^ k := by
    rw [pow_add]
    nlinarith [pow_pos (two_pos (α := Rat)) k]
  have hmore : (2 : Rat) ^ 8 ≤ 2 ^ (k + 2) := pow_le_pow_right₀ (by norm_num) (by omega)
  obtain ⟨m, e, hvalue, -, hnearest⟩ := Binary64.nearest_of_le (s := false) hle
  have hcut : usualMaxDelay.lt (.double (nearest false (5 * 2 ^ k))) = true := by
    rw [hnearest]
    by_cases hlarge : 971 < e
    · rw [if_pos hlarge]
      rfl
    · rw [if_neg hlarge, lt_of_places place?_usualMaxDelay (place?_finite _ _)]
      refine decide_eq_true ?_
      linarith
  unfold Amount.min
  rw [hcut]
  rfl

/-- A grown delay is cut to the longest one. -/
theorem min_usualMaxDelay (k : Nat) :
    ((Amount.double (nearest false (5 * 2 ^ k))).min usualMaxDelay).truncate = .ok (min (5 * 2 ^ k) 200) := by
  by_cases hk : k ≤ 5
  · have hless : (2 : Int) ^ k ≤ 2 ^ 5 := pow_le_pow_right₀ (by norm_num) hk
    rw [min_of_small hk, min_eq_left (by omega)]
  · have hmore : (2 : Int) ^ 6 ≤ 2 ^ k := pow_le_pow_right₀ (by norm_num) (by omega)
    rw [min_of_large (by omega), min_eq_right (by omega)]

private theorem atLeast_int (a n : Nat) : (Amount.int a).atLeast (.int n) = decide (n ≤ a) := by
  simp only [Amount.atLeast, Amount.place?_of_whole (a := .int a) rfl, Amount.place?_of_whole (a := .int n) rfl,
    Binary64.Place.lt, Int.cast_natCast, Nat.cast_lt, ← decide_not, not_lt]

theorem delayAfter_usual_last (ha : n ≤ a) : (usual n).delayAfter a = .ok none := by
  unfold delayAfter
  exact if_pos ((atLeast_int a n).trans (decide_eq_true ha))

private theorem delayAfter_usual_grown (ha : 1 ≤ a) (hn : a < n) : (usual n).delayAfter a = (do
    let growth ← (Amount.double (nearest false 2)).pow (a - 1 : Nat)
    let delay ← usualInitialDelay.mul growth
    return some (← (delay.min usualMaxDelay).truncate)) := by
  have hmore : (Amount.int a).atLeast (usual n).maxAttempts = false :=
    (atLeast_int a n).trans (decide_eq_false (by omega))
  have hattempt : (a : Int) - 1 = (a - 1 : Nat) := by omega
  unfold delayAfter
  rw [hmore, hattempt]
  rfl

/-- The delay after a try that is followed by another. -/
theorem delayAfter_usual (ha : 1 ≤ a) (hn : a < n) (hpower : a ≤ 1024) :
    (usual n).delayAfter a = .ok (some (min (5 * 2 ^ (a - 1)) 200)) := by
  rw [delayAfter_usual_grown ha hn, growth_eq (by omega)]
  change (do
    let delay ← usualInitialDelay.mul (.double (nearest false (2 ^ (a - 1))))
    return some (← (delay.min usualMaxDelay).truncate)) = _
  rw [usualInitialDelay_mul (by omega)]
  change (do return some (← (Amount.min _ usualMaxDelay).truncate)) = _
  rw [min_usualMaxDelay]
  rfl

/-- There is no delay after a try whose power is too large. -/
theorem delayAfter_usual_tooLarge (hn : a < n) (hpower : 1024 < a) :
    ∃ x, (usual n).delayAfter a = .error (.tooLarge x) ∧ (a ≤ 2 ^ 53 → x = .power) := by
  obtain ⟨x, hx, hsmall⟩ := growth_tooLarge (k := a - 1) (by omega)
  rw [delayAfter_usual_grown (by omega) hn, hx]
  exact ⟨x, rfl, fun hle => hsmall (by omega)⟩

def usualTries (n : Nat) : Nat := min n 1025

private theorem delay_bounds {x : Int} (ha : 1 ≤ a) (h : (usual n).delayAfter a = .ok (some x)) :
    a < usualTries n ∧ x = min (5 * 2 ^ (a - 1)) 200 := by
  have hn : a < n := by
    by_contra hlast
    rw [delayAfter_usual_last (by omega)] at h
    cases h
  have hpower : a ≤ 1024 := by
    by_contra hlarge
    obtain ⟨_, herror, -⟩ := delayAfter_usual_tooLarge hn (by omega)
    cases herror.symm.trans h
  rw [delayAfter_usual ha hn hpower] at h
  cases h
  exact ⟨by unfold usualTries; omega, rfl⟩

/-- The usual delays go up, to the longest one at most. -/
theorem usual_delays_mono {b : Nat} {x y : Int} (ha : 1 ≤ a) (hab : a ≤ b)
    (hx : (usual n).delayAfter a = .ok (some x)) (hy : (usual n).delayAfter b = .ok (some y)) :
    0 ≤ x ∧ x ≤ y ∧ y ≤ 200 := by
  obtain ⟨-, rfl⟩ := delay_bounds ha hx
  obtain ⟨-, rfl⟩ := delay_bounds (by omega) hy
  have hpower : (2 : Int) ^ (a - 1) ≤ 2 ^ (b - 1) := pow_le_pow_right₀ (by norm_num) (by omega)
  have hpos : (0 : Int) < 2 ^ (a - 1) := by positivity
  omega

end RetryPolicy

namespace Engine
open RetryPolicy (usual usualTries)
open Store (Roomy)
variable {e : Engine} {i : String} {n : Nat} {lost : List Bool}

/-- Short waits take no longer than their number tells. -/
theorem forM_pause {delays : List Int} (h : ∀ ms ∈ delays, 0 ≤ ms ∧ ms ≤ 200) (e : Engine) :
    ∃ e', delays.forM pause e = .ok ⟨⟩ e' ∧ e.clock ≤ e'.clock ∧
      e'.clock ≤ e.clock + 200000 * delays.length := by
  induction delays generalizing e with
  | nil => exact ⟨e, rfl, Int.le_refl _, by simp⟩
  | cons ms delays ih =>
    obtain ⟨hlow, hhigh⟩ := h ms (List.mem_cons_self ..)
    have hexact : isExactPause ms = true := by
      simp only [isExactPause, decide_eq_true_eq]
      exact le_trans (by omega : ms.natAbs ≤ 200) (by decide)
    have hpause : pause ms e =
        .ok () { e with clock := e.clock + ms * 1000, pauses := e.pauses ++ [ms] } := by
      unfold pause
      rw [if_pos hexact]
      rfl
    obtain ⟨e', he', hlower, hupper⟩ := ih (fun x hx => h x (List.mem_cons_of_mem _ hx))
      { e with clock := e.clock + ms * 1000, pauses := e.pauses ++ [ms] }
    refine ⟨e', ?_, by dsimp only at hlower; omega, ?_⟩
    · exact (Action.bind_of_ok hpause).trans he'
    · dsimp only at hupper
      rw [List.length_cons]
      push_cast
      omega

private theorem isDated_iff : e.IsDated ↔ (Moment.utc e.clock).isDated = true := by
  unfold IsDated Moment.dated
  by_cases h : (Moment.utc e.clock).isDated = true
  · simp [h]
  · simp only [h, if_false, iff_false, Bool.false_eq_true, not_exists]
    intro t
    split_ifs <;> exact fun hok => by cases hok

/-- Between two dates there are dates only. -/
theorem IsDated.between {f g : Engine} (he : e.IsDated) (hf : f.IsDated) (hlow : e.clock ≤ g.clock)
    (hhigh : g.clock ≤ f.clock) : g.IsDated := by
  rw [isDated_iff] at *
  simp only [Moment.isDated, Bool.and_eq_true, decide_eq_true_eq] at *
  dsimp only [Moment.utc] at *
  omega

/-- The tries that the usual delays allow can be made. -/
theorem patient_usual (hp : e.policy = usual n) (he : e.IsDated)
    (hlater : ({ e with clock := e.clock + 200000 * usualTries n } : Engine).IsDated) :
    Patient e (usualTries n) := by
  constructor
  · intro a ha hless
    rw [hp]
    unfold usualTries at hless
    exact ⟨_, RetryPolicy.delayAfter_usual ha (by omega) (by omega)⟩
  · intro delays hd hlength
    rw [hp] at hd
    have hshort : ∀ ms ∈ delays, 0 ≤ ms ∧ ms ≤ 200 := by
      intro ms hms
      obtain ⟨k, hk⟩ := List.mem_iff_getElem?.mp hms
      have hbounds := RetryPolicy.usual_delays_mono (by omega) (Nat.le_refl _) (hd k ms hk) (hd k ms hk)
      exact ⟨hbounds.1, hbounds.2.2⟩
    obtain ⟨e', he', hlower, hupper⟩ := forM_pause hshort e
    exact ⟨e', he', he.between hlater hlower (by dsimp only; omega)⟩

/-! ## Inputs -/

/-- An engine with an open row, with races to come for it, and with the time that the usual delays take. -/
structure Contending (n : Nat) (lost : List Bool) (e : Engine) (i : String) : Prop where
  ready : e.Ready
  contested : Contested lost e
  opened : ∃ r, e.store.row? i = some r ∧ r.completed = none ∧ Roomy e.store.kind r (2 * usualTries n)
  later : ({ e with clock := e.clock + 200000 * usualTries n } : Engine).IsDated

/-- The failure of an input that has lost the races of all its tries: a lost race, or the power that is too
large. -/
def Beaten (n : Nat) (o : Outcome) : Prop :=
  ∃ f e', o = .error f e' ∧ (n ≤ 1025 → f.isStale = true) ∧ (1025 < n → f = .tooLarge .power)

private theorem Quits.beaten {f : Failure} {e' : Engine} (h : Quits (usual n) (usualTries n) f) :
    Beaten n (.error f e') := by
  refine ⟨f, e', rfl, fun hfew => ?_, fun hmany => ?_⟩
  · have hlast : (usual n).delayAfter (usualTries n) = .ok none :=
      RetryPolicy.delayAfter_usual_last (by unfold usualTries; omega)
    rcases h with ⟨-, hstale⟩ | herror
    · exact hstale
    · cases hlast.symm.trans herror
  · have htries : usualTries n = 1025 := by
      unfold usualTries
      omega
    obtain ⟨x, hx, hpower⟩ := RetryPolicy.delayAfter_usual_tooLarge (a := 1025) hmany (by decide)
    rw [htries] at h
    rcases h with ⟨hnone, -⟩ | herror
    · cases hx.symm.trans hnone
    · cases hx.symm.trans herror
      rw [hpower (by decide)]

/-- An input with the usual delays ends as it would have with no race lost, or is beaten; and it is beaten if
it would have ended well and every race is lost. -/
theorem Contending.deliver (h : Contending n lost e i) (hn : 1 ≤ n) (hp : e.policy = usual n)
    (choice given : Json) :
    Tried e lost (usualTries n)
      (·.Agrees i (Engine.deliver (some i) choice given { e with faults := .none })) (Beaten n)
      (Engine.deliver (some i) choice given e) ∧
    ((∀ b ∈ lost, b = true) → usualTries n ≤ lost.length →
      (∃ c e', Engine.deliver (some i) choice given { e with faults := .none } = .ok c e') →
      Beaten n (Engine.deliver (some i) choice given e)) := by
  obtain ⟨he, hu, ⟨r, hr, ho, hb⟩, hlater⟩ := h
  have hpos : 1 ≤ usualTries n := by
    unfold usualTries
    omega
  have hbound : usualTries n ≤ n := Nat.min_le_left ..
  have hend (ms : Int) : e.policy.delayAfter (usualTries n) ≠ .ok (some ms) := by
    rw [hp]
    exact fun hsome => absurd (RetryPolicy.delay_bounds hpos hsome).1 (Nat.lt_irrefl _)
  have hlosing : ({ e with faults := .none } : Engine) = losing [] e := by
    simp only [losing, hu.faults, Faults.none]
  have hwhole {f : Engine} (hf : f.policy = e.policy) : f.policy.maxAttempts.whole? = some (n : Int) := by
    rw [hf, hp]
    rfl
  have htried := deliverFrom_absorbs he hu hr ho (patient_usual hp hu.dated hlater) hend hpos hb choice given
    hbound hbound
  rw [hlosing, deliver_eq (hwhole rfl), deliver_eq (e := losing [] e) (hwhole rfl)]
  have hbeaten : (∃ f e', deliverFrom (some i) choice given 1 n e = .error f e' ∧
      Quits e.policy (usualTries n) f) → Beaten n (deliverFrom (some i) choice given 1 n e) := by
    rintro ⟨f, e', hf, hquits⟩
    rw [hf]
    exact Quits.beaten (hp ▸ hquits)
  refine ⟨htried.mono (·.1) hbeaten, fun hall hlong hcalm => hbeaten (htried.quits hall hlong ?_)⟩
  rintro ⟨⟨hanswer, -⟩, hescapes⟩
  obtain ⟨c, e', hc⟩ := hcalm
  rw [hc] at hanswer
  cases ho : deliverFrom (some i) choice given 1 n e with
  | ok c₁ e₁ => exact ⟨⟨c₁, e₁, rfl⟩, ho ▸ hescapes⟩
  | error f e₁ =>
    rw [ho] at hanswer
    cases hanswer

/-- With the usual delays and any number of tries, the delay after each of the first 1024 tries that is not
the last one is five milliseconds, doubled for every try before, or 200 where that is more; so it is never
negative, never below an earlier one and never above the longest. After the last try and beyond there is
none, and after any other try the power is too large. Hence an input that has lost the races of all its
tries ends with a lost race if at most 1025 of them are allowed, and else with the power that is too large;
and it does lose them, if it would have ended well otherwise and every race is lost. -/
theorem usual_delays (hn : 1 ≤ n) : ∃ p, RetryPolicy.withMaxAttempts (.int n) = .ok p ∧
    (∀ s : Settings, s.staleRetries = n → s.retryPolicy = .ok p) ∧
    (∀ a : Nat, n ≤ a → p.delayAfter a = .ok none) ∧
    (∀ a : Nat, 1 ≤ a → a < n → a ≤ 1024 → p.delayAfter a = .ok (some (min (5 * 2 ^ (a - 1)) 200))) ∧
    (∀ a : Nat, 1024 < a → a < n → ∃ x, p.delayAfter a = .error (.tooLarge x)) ∧
    p.maxDelay = .int 200 ∧
    (∀ (a b : Nat) (x y : Int), 1 ≤ a → a ≤ b → p.delayAfter a = .ok (some x) →
      p.delayAfter b = .ok (some y) → 0 ≤ x ∧ x ≤ y ∧ y ≤ 200) ∧
    ∀ (e : Engine) (i : String) (lost : List Bool) (choice given : Json), e.policy = p →
      Contending n lost e i →
      Tried e lost (usualTries n)
        (·.Agrees i (deliver (some i) choice given { e with faults := .none })) (Beaten n)
        (deliver (some i) choice given e) ∧
      ((∀ b ∈ lost, b = true) → usualTries n ≤ lost.length →
        (∃ c e', deliver (some i) choice given { e with faults := .none } = .ok c e') →
        Beaten n (deliver (some i) choice given e)) := by
  have hpolicy := RetryPolicy.withMaxAttempts_eq_usual hn
  refine ⟨usual n, hpolicy, ?_, fun a => RetryPolicy.delayAfter_usual_last,
    fun a => RetryPolicy.delayAfter_usual, ?_, rfl, fun a b x y => RetryPolicy.usual_delays_mono,
    fun e i lost choice given hp h => h.deliver hn hp choice given⟩
  · intro s hs
    unfold Settings.retryPolicy
    rw [hs, hpolicy]
  · intro a hlarge hless
    obtain ⟨x, hx, -⟩ := RetryPolicy.delayAfter_usual_tooLarge hless hlarge
    exact ⟨x, hx⟩

/-! ## A waiting row -/

private theorem contending_waiting (n races : Nat) :
    Contending n (List.replicate races true) (waiting (usual n) (List.replicate races true)) (freshId 1) := by
  refine ⟨ready_waiting _ _, ⟨rfl, rfl, _, rfl⟩, ⟨_, rfl, rfl, fun hk => by cases hk⟩, ?_⟩
  have htries : usualTries n ≤ 1025 := Nat.min_le_right ..
  rw [isDated_iff]
  simp only [Moment.isDated, Bool.and_eq_true, decide_eq_true_eq]
  dsimp only [Moment.utc, waiting, ofStore]
  omega

private theorem exists_ok {o : Outcome} (h : o.answer.isOk = true) : ∃ c e', o = .ok c e' := by
  cases o with
  | ok c e' => exact ⟨c, e', rfl⟩
  | error f e' => cases h

/-- Two tries are allowed, and both lose their races. -/
theorem usual_delays_two_tries :
    let e := waiting (usual 2) (List.replicate 2 true)
    1 ≤ 2 ∧ (∃ p, RetryPolicy.withMaxAttempts (.int 2) = .ok p ∧ e.policy = p) ∧
      Contending 2 (List.replicate 2 true) e (freshId 1) ∧
      Beaten 2 (deliver (some (freshId 1)) (.int 0) (.object []) e) := by
  intro e
  obtain ⟨p, hp, -, -, -, -, -, -, hinputs⟩ := usual_delays (n := 2) (by decide)
  have hpolicy : e.policy = p := by
    cases hp.symm.trans (RetryPolicy.withMaxAttempts_eq_usual (n := 2) (by decide))
    rfl
  exact ⟨by decide, ⟨p, hp, hpolicy⟩, contending_waiting 2 2,
    (hinputs e (freshId 1) _ (.int 0) (.object []) hpolicy (contending_waiting 2 2)).2
      (fun b hb => List.eq_of_mem_replicate hb) (by decide) (exists_ok (by decide +kernel))⟩

/-- With one try more than 1025 there is no delay after the 1025th, and an input that has lost so many races
ends with no lost race. -/
theorem usual_delays_end :
    let e := waiting (usual 1026) (List.replicate 1025 true)
    (∃ p, RetryPolicy.withMaxAttempts (.int 1026) = .ok p ∧ e.policy = p ∧
      p.delayAfter 1025 = .error (.tooLarge .power)) ∧
    (∃ r, e.store.row? (freshId 1) = some r ∧ r.completed = none) ∧
    (∃ c e', deliver (some (freshId 1)) (.int 0) (.object []) { e with faults := .none } = .ok c e') ∧
    ∃ e', deliver (some (freshId 1)) (.int 0) (.object []) e = .error (.tooLarge .power) e' := by
  intro e
  obtain ⟨x, hx, hpower⟩ := RetryPolicy.delayAfter_usual_tooLarge (n := 1026) (a := 1025) (by decide)
    (by decide)
  rw [hpower (by decide)] at hx
  have hcalm : ∃ c e', deliver (some (freshId 1)) (.int 0) (.object []) { e with faults := .none } =
    .ok c e' := exists_ok (by decide +kernel)
  obtain ⟨-, hbeaten⟩ := (contending_waiting 1026 1025).deliver (by decide) rfl (.int 0) (.object [])
  obtain ⟨f, e', hf, -, hmany⟩ := hbeaten (fun b hb => List.eq_of_mem_replicate hb)
    (by rw [List.length_replicate]; decide) hcalm
  refine ⟨⟨_, RetryPolicy.withMaxAttempts_eq_usual (by decide), rfl, hx⟩, ⟨_, rfl, rfl⟩, hcalm, e', ?_⟩
  rw [hf, hmany (by decide)]

end Engine
end DurableFlow
