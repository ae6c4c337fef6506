import DurableFlow.Worker
import DurableFlow.Proofs.Binary64.RoundingErrors
import DurableFlow.Proofs.Engine.StoreWrites
import DurableFlow.Proofs.Store.EarliestWakeups

/-! The delay that a worker chooses after a tick: never more than the interval, all of it after a failure,
and otherwise over in time for the earliest context that waits. -/
namespace DurableFlow

namespace Engine

def storeAt (home : Nat) (e : Engine) : Store := (e.replaced[home]?).getD e.store

def leaving (home : Nat) (e f : Engine) : Engine :=
  match e.replaced[home]? with
  | none => f
  | some _ => backFrom home e.store f

theorem atHome_eq {α : Type} (home : Nat) (act : Run α) (e : Engine) : atHome home act e =
    match act { e with store := e.storeAt home } with
    | .ok a f => .ok a (e.leaving home f)
    | .error x f => .error x (e.leaving home f) := by
  unfold atHome storeAt leaving
  cases e.replaced[home]? with
  | none =>
    dsimp only [Option.getD_none]
    split <;> assumption
  | some old => rfl

/-- The step leaves the store that it was over to be found there. -/
theorem storeAt_leaving {home : Nat} {e f : Engine} (h : f.replaced = e.replaced) :
    (e.leaving home f).storeAt home = f.store := by
  unfold leaving
  split
  · rename_i hhome
    rw [storeAt, h, hhome]
    rfl
  · rename_i old hhome
    have hlength : home < f.replaced.length := by
      rw [h]
      exact (List.getElem?_eq_some_iff.mp hhome).1
    rw [storeAt, backFrom, List.getElem?_set_self hlength]
    rfl

/-- A step that changes nothing leaves nothing changed. -/
theorem leaving_self (home : Nat) (e : Engine) : e.leaving home { e with store := e.storeAt home } = e := by
  unfold leaving
  split
  · rename_i hhome
    rw [storeAt, hhome]
    rfl
  · rename_i old hhome
    obtain ⟨hlength, rfl⟩ := List.getElem?_eq_some_iff.mp hhome
    rw [backFrom, storeAt, hhome, Option.getD_some, List.set_getElem_self]

theorem leaving_clock (home : Nat) (e f : Engine) : (e.leaving home f).clock = f.clock := by
  unfold leaving
  split <;> rfl

theorem leaving_others (home : Nat) (e f : Engine) : (e.leaving home f).others = f.others := by
  unfold leaving
  split <;> rfl

theorem leaving_faults (home : Nat) (e f : Engine) : (e.leaving home f).faults = f.faults := by
  unfold leaving
  split <;> rfl

/-- The time that an engine tells, where its clock shows a date. -/
theorem now_eq_ok {e : Engine} (he : e.IsDated) : now e = .ok (Moment.utc e.clock).cutToMillis e := by
  obtain ⟨t, ht⟩ := he
  obtain ⟨-, rfl⟩ := Moment.dated_eq_ok.mp ht
  have hnow := now_tells ht
  unfold Action.Ensures at hnow
  split at hnow
  · rename_i hrun
    rw [hrun, hnow.1, hnow.2]
  · exact hnow.elim

end Engine

namespace Worker
open Binary64
open DurableFlow.Action (Ensures)
variable {w : Worker} {handler : Handler} {e : Engine} {lag : Nat}

/-! ## Turns in which time passes -/

def tick (w : Worker) : Run Engine.Pass :=
  Engine.atHome w.home (Engine.tick none w.batchSize.toJson)

def lookAhead (w : Worker) : Run (Option Moment) :=
  Engine.atHome w.home (Engine.ask .nextWakeup Store.nextWakeup)

def delayAfter (w : Worker) (failing isFull : Bool) : Run Binary64 :=
  if failing then Action.ofExcept w.interval
  else if isFull then pure (zero false)
  else w.wait

/-- A turn in which so many microseconds pass between its tick, with the handlers, and its look at store
and clock. What passes between the store and the clock might as well pass before both. -/
def turnLasting (w : Worker) (handler : Handler) (lag : Nat) : Run Turn := do
  let (w, handled, failing, isFull) ← w.wake handler
  modify fun e => { e with clock := e.clock + lag }
  let delay ← Action.attempt (w.delayAfter failing isFull)
  return ⟨w, handled, delay⟩

/-- A turn is one in which no time passes. -/
theorem turn_eq_lasting : w.turn handler = w.turnLasting handler 0 := by
  have hstill : (modify fun e => { e with clock := e.clock + (0 : Nat) } : Run PUnit) = pure ⟨⟩ := by
    funext e
    change EStateM.Result.ok PUnit.unit { e with clock := e.clock + (0 : Nat) } = .ok PUnit.unit e
    rw [Int.ofNat_zero, Int.add_zero]
  unfold turn turnLasting
  congr 1
  funext r
  dsimp only
  rw [hstill, pure_bind]
  rfl

/-! ## The steps of a turn -/

/-- Handlers do not stop a turn, and keep what each of them keeps. -/
theorem notifyAll_keeps {P : Engine → Prop} (hjournal : ∀ e journal, P e → P { e with journal })
    (hhandler : ∀ c e, P e → Ensures (handler c) e (fun _ e' => P e') (fun _ e' => P e'))
    (cs : List Context) (he : P e) :
    Ensures (cs.forM (w.notify handler)) e (fun _ e' => P e') (fun _ _ => False) := by
  induction cs generalizing e with
  | nil => exact Ensures.pure he
  | cons c rest ih =>
    change Ensures (w.notify handler c >>= fun _ => rest.forM (w.notify handler)) e _ _
    apply Ensures.bind
    unfold notify
    apply Ensures.bind
    apply Ensures.attempt
    refine (hhandler c e he).mono (fun _ e' he' => Ensures.pure (ih he')) fun f e' he' => ?_
    exact Ensures.modify (ih (hjournal e' _ he'))

def after (w : Worker) (resumed : List Context) : Worker :=
  { w with resumed := w.resumed + resumed.length }

private theorem wake_of_error (handler : Handler) {f : Failure} {e₁ : Engine}
    (h : w.tick e = .error f e₁) :
    ∃ journal, w.wake handler e = .ok (w, [], true, false) { e₁ with journal } := by
  have htick : Action.attempt (Engine.atHome w.home (Engine.tick none w.batchSize.toJson)) e =
      .ok (.error f) e₁ := Action.attempt_of_error h
  unfold wake
  rw [Action.bind_of_ok htick]
  exact ⟨_, rfl⟩

private theorem wake_of_ok {pass : Engine.Pass} {e₁ e₂ : Engine} (h : w.tick e = .ok pass e₁)
    (hnotify : pass.resumed.forM (w.notify handler) e₁ = .ok ⟨⟩ e₂) :
    w.wake handler e = .ok (w.after pass.resumed, pass.resumed, !pass.failed.isEmpty,
      !(Amount.int pass.resumed.length).lt w.batchSize) e₂ := by
  have htick : Action.attempt (Engine.atHome w.home (Engine.tick none w.batchSize.toJson)) e =
      .ok (.ok pass) e₁ := Action.attempt_of_ok h
  unfold wake
  rw [Action.bind_of_ok htick]
  exact Action.bind_of_ok hnotify

private theorem turnLasting_of_wake (lag : Nat) {w' : Worker} {handled : List Context}
    {failing isFull : Bool} {e₂ : Engine}
    (h : w.wake handler e = .ok (w', handled, failing, isFull) e₂) :
    ∃ delay e', Action.attempt (w'.delayAfter failing isFull) { e₂ with clock := e₂.clock + lag } =
        .ok delay e' ∧ w.turnLasting handler lag e = .ok ⟨w', handled, delay⟩ e' := by
  obtain ⟨delay, e', hdelay⟩ := Action.attempt_returns (w'.delayAfter failing isFull)
    { e₂ with clock := e₂.clock + lag }
  refine ⟨delay, e', hdelay, ?_⟩
  unfold turnLasting
  rw [Action.bind_of_ok h]
  exact Action.bind_of_ok hdelay

/-- A turn whose tick raises chooses the interval. -/
theorem turnLasting_of_error (handler : Handler) (lag : Nat) {f : Failure} {e₁ : Engine}
    (h : w.tick e = .error f e₁) :
    ∃ journal, w.turnLasting handler lag e =
      .ok ⟨w, [], w.interval⟩ { e₁ with clock := e₁.clock + lag, journal } := by
  obtain ⟨journal, hwake⟩ := wake_of_error handler h
  obtain ⟨delay, e', hdelay, hturn⟩ := turnLasting_of_wake lag hwake
  cases (Action.attempt_ofExcept w.interval _).symm.trans hdelay
  exact ⟨_, hturn⟩

/-- A turn whose tick passes: its handlers, and then the choice of a delay. -/
theorem turnLasting_of_ok (handler : Handler) (lag : Nat) {pass : Engine.Pass} {e₁ : Engine}
    (h : w.tick e = .ok pass e₁) :
    ∃ e₂ delay e', pass.resumed.forM (w.notify handler) e₁ = .ok ⟨⟩ e₂ ∧
      Action.attempt (w.delayAfter (!pass.failed.isEmpty)
        (!(Amount.int pass.resumed.length).lt w.batchSize)) { e₂ with clock := e₂.clock + lag } =
          .ok delay e' ∧
      w.turnLasting handler lag e = .ok ⟨w.after pass.resumed, pass.resumed, delay⟩ e' := by
  have hnotify : Ensures (pass.resumed.forM (w.notify handler)) e₁ (fun _ _ => True)
      (fun _ _ => False) :=
    notifyAll_keeps (P := fun _ => True) (fun _ _ _ => trivial)
      (fun _ _ _ => Ensures.always (fun _ _ => trivial) fun _ _ => trivial) pass.resumed trivial
  cases hrun : pass.resumed.forM (w.notify handler) e₁ with
  | error f e₂ => exact (hnotify.of_eq_error hrun).elim
  | ok u e₂ =>
    obtain ⟨delay, e', hdelay, hturn⟩ := turnLasting_of_wake lag (wake_of_ok h hrun)
    exact ⟨e₂, delay, e', rfl, hdelay, hturn⟩

/-- A turn whose tick leaves a row that keeps failing chooses the interval. -/
theorem turnLasting_of_failed (handler : Handler) (lag : Nat) {pass : Engine.Pass} {e₁ : Engine}
    (h : w.tick e = .ok pass e₁) (hfailed : pass.failed ≠ []) : ∃ e', w.turnLasting handler lag e =
      .ok ⟨w.after pass.resumed, pass.resumed, w.interval⟩ e' := by
  obtain ⟨e₂, delay, e', -, hdelay, hturn⟩ := turnLasting_of_ok handler lag h
  have hfailing : (!pass.failed.isEmpty) = true := by simpa using hfailed
  rw [hfailing] at hdelay
  cases (Action.attempt_ofExcept w.interval _).symm.trans hdelay
  exact ⟨_, hturn⟩

/-- A turn always ends, though the choice of its delay may fail. -/
theorem turnLasting_returns (w : Worker) (handler : Handler) (lag : Nat) (e : Engine) :
    ∃ t e', w.turnLasting handler lag e = .ok t e' := by
  cases htick : w.tick e with
  | error f e₁ =>
    obtain ⟨journal, hturn⟩ := turnLasting_of_error handler lag htick
    exact ⟨_, _, hturn⟩
  | ok pass e₁ =>
    obtain ⟨e₂, delay, e', -, -, hturn⟩ := turnLasting_of_ok handler lag htick
    exact ⟨_, e', hturn⟩

/-! ## The interval -/

theorem jitter_small (w : Worker) : ∃ (n : Nat) (f : Int), w.jitter = finite false n f ∧
    (2 : Rat) ^ (-1022 : Int) ≤ n * (2 : Rat) ^ f ∧ n * (2 : Rat) ^ f ≤ 2 := by
  have htiny : (2 : Rat) ^ (-1022 : Int) ≤ (2 : Rat) ^ (-20 : Int) :=
    zpow_le_zpow_right₀ (by norm_num) (by norm_num)
  rw [show (2 : Rat) ^ (-20 : Int) = 1 / 1048576 by norm_num] at htiny
  unfold jitter
  dsimp only
  generalize w.name.toList.foldl (fun sum c => sum + c.toNat) 0 = sum
  obtain ⟨k, hk, hlow, hhigh⟩ : ∃ k : Nat, 1 + (sum : Int) % 5 = k ∧ 1 ≤ k ∧ k ≤ 5 :=
    ⟨1 + sum % 5, by push_cast; rfl, by omega, by omega⟩
  have hlow : (1 : Rat) ≤ k := by exact_mod_cast hlow
  have hhigh : (k : Rat) ≤ 5 := by exact_mod_cast hhigh
  have hvalue : mkRat (k : Int) 1000 = (k : Rat) / 1000 := Rat.mkRat_eq_div _ _
  obtain ⟨n, f, hnearest, hclose⟩ :=
    nearest_small (q := (k : Rat) / 1000) (by linarith) (by linarith) false
  obtain ⟨hbelow, habove⟩ := abs_le.mp hclose
  rw [hk, hvalue, ofRat, if_neg (by linarith), hnearest]
  exact ⟨n, f, rfl, by linarith, by linarith⟩

/-- With a finite interval the wait between two turns is a positive number, rounded as it may be. -/
theorem interval_inFormat {m : Nat} {x : Int} (h : w.tickInterval.toDouble = .ok (finite false m x))
    (hformat : InFormat m x) :
    ∃ k g, w.interval = .ok (finite false k g) ∧ k ≠ 0 ∧ InFormat k g := by
  obtain ⟨n, f, hjitter, hlow, hhigh⟩ := jitter_small w
  obtain ⟨k, g, hsum, hk, hkg⟩ := add_small hformat hlow hhigh
  refine ⟨k, g, ?_, hk, hkg⟩
  have hadd : w.tickInterval.add (.double w.jitter) = .ok (.double (finite false k g)) := by
    have hrounded : (do return Amount.double ((← w.tickInterval.toDouble).add (← Amount.toDouble (.double w.jitter))) :
        Except Failure Amount) = .ok (.double (finite false k g)) := by
      rw [h, hjitter, ← hsum]
      rfl
    unfold Amount.add
    cases w.tickInterval.whole? with
    | none => exact hrounded
    | some n => exact hrounded
  rw [interval, hadd]
  rfl

/-! ## The delay until a time -/

def delayUntil (ahead : Int) (longest : Binary64) : Binary64 :=
  sooner (later (ofRat (mkRat ahead 1000000)) (zero false)) longest

private theorem later_zero {x : Rat} (hx : x = 0 ∨ (2 : Rat) ^ (-1022 : Int) ≤ |x|) :
    later (ofRat x) (zero false) = nearest false (max x 0) := by
  unfold later
  rcases lt_trichotomy x 0 with hneg | rfl | hpos
  · have hsize := hx.resolve_left hneg.ne
    rw [abs_of_neg hneg] at hsize
    obtain ⟨m, e, hm, -, -, -, hnearest⟩ := nearest_error hsize true
    have hbelow : (Amount.double (nearest true (-x))).lt (.double (zero false)) = true := by
      rw [hnearest]
      split
      · rfl
      · have hmantissa : (0 : Rat) < m := by exact_mod_cast Nat.lt_of_lt_of_le (by decide) hm
        have hvalue : (finite true m e).value? = some (-(m * (2 : Rat) ^ e)) := by
          rw [value?, twoPow_eq]
          rfl
        rw [lt_of_values hvalue value?_zero, decide_eq_true_eq, neg_lt_zero]
        positivity
    rw [max_eq_right hneg.le, ofRat, if_pos hneg, if_pos hbelow]
    rfl
  · rw [max_self]
    decide +kernel
  · have hsize := hx.resolve_left hpos.ne'
    rw [abs_of_pos hpos] at hsize
    obtain ⟨m, e, -, -, -, -, hnearest⟩ := nearest_error hsize false
    have habove : (Amount.double (nearest false x)).lt (.double (zero false)) = false := by
      rw [hnearest]
      split
      · rfl
      · rw [lt_of_values (value?_positive m e) value?_zero, decide_eq_false_iff_not, not_lt]
        positivity
    rw [max_eq_left hpos.le, ofRat, if_neg (not_lt.mpr hpos.le), habove]
    rfl

private theorem sooner_nearest {x : Rat} (hx : x = 0 ∨ (2 : Rat) ^ (-1022 : Int) ≤ x) {k : Nat} {g : Int}
    (hkg : InFormat k g) : ∃ y : Rat, |y - x| ≤ x / 2 ^ 53 ∧
      (sooner (nearest false x) (finite false k g)).value? = some (min y (k * (2 : Rat) ^ g)) := by
  have hvalue {m : Nat} {e : Int} : (sooner (finite false m e) (finite false k g)).value? =
      some (min (m * (2 : Rat) ^ e) (k * (2 : Rat) ^ g)) := by
    unfold sooner
    rw [lt_of_values (value?_positive k g) (value?_positive m e)]
    by_cases hless : (k : Rat) * (2 : Rat) ^ g < m * (2 : Rat) ^ e
    · rw [decide_eq_true hless, if_pos rfl, value?_positive, min_eq_right hless.le]
    · rw [decide_eq_false hless, if_neg (by decide), value?_positive, min_eq_left (not_lt.mp hless)]
  rcases hx with rfl | hsize
  · refine ⟨0, by simp, ?_⟩
    have hzero : nearest false 0 = finite false 0 (-1074) := rfl
    rw [hzero, hvalue, Nat.cast_zero, zero_mul]
  · obtain ⟨m, e, hm, -, -, hclose, hnearest⟩ := nearest_error hsize false
    refine ⟨m * (2 : Rat) ^ e, hclose, ?_⟩
    rw [hnearest]
    by_cases hover : 971 < e
    · have hless : k * (2 : Rat) ^ g ≤ m * (2 : Rat) ^ e :=
        hkg.le_largest.trans
          ((le_add_of_nonneg_right (zpow_nonneg (by norm_num) _)).trans (largest_add_le hm hover))
      rw [if_pos hover, min_eq_right hless]
      exact value?_positive k g
    · rw [if_neg hover, hvalue]

/-- The delay until a time is the time that is left, none for a time that has come, rounded once and cut
at the longest delay. -/
theorem delayUntil_value (ahead : Int) {k : Nat} {g : Int} (hkg : InFormat k g) : ∃ y : Rat,
    |y - max (ahead / 1000000 : Rat) 0| ≤ max (ahead / 1000000 : Rat) 0 / 2 ^ 53 ∧
      (delayUntil ahead (finite false k g)).value? = some (min y (k * (2 : Rat) ^ g)) := by
  have htiny : (2 : Rat) ^ (-1022 : Int) ≤ (2 : Rat) ^ (-20 : Int) :=
    zpow_le_zpow_right₀ (by norm_num) (by norm_num)
  rw [show (2 : Rat) ^ (-20 : Int) = 1 / 1048576 by norm_num] at htiny
  have hrat : mkRat ahead 1000000 = (ahead : Rat) / 1000000 := Rat.mkRat_eq_div _ _
  have hsize : (ahead : Rat) / 1000000 = 0 ∨ (2 : Rat) ^ (-1022 : Int) ≤ |(ahead : Rat) / 1000000| := by
    by_cases hzero : ahead = 0
    · simp [hzero]
    · have hone : (1 : Rat) ≤ |(ahead : Rat)| := by exact_mod_cast Int.one_le_abs hzero
      refine .inr (htiny.trans ?_)
      rw [abs_div, le_div_iff₀ (by norm_num)]
      norm_num
      linarith
  unfold delayUntil
  rw [hrat, later_zero hsize]
  refine sooner_nearest ?_ hkg
  rcases le_or_gt ((ahead : Rat) / 1000000) 0 with hle | hlt
  · exact .inl (max_eq_right hle)
  · rw [max_eq_left hlt.le]
    rw [abs_of_pos hlt] at hsize
    exact hsize

/-! ## The look at store and clock -/

private theorem begin_keeps (op : Operation) (e : Engine) : Ensures (Engine.begin op) e
    (fun _ e' => e'.clock = e.clock ∧ e'.replaced = e.replaced) (fun _ _ => True) := by
  apply Ensures.bind
  apply Ensures.get
  cases ho : e.others with
  | nil =>
    dsimp only
    split
    · exact Ensures.set ⟨rfl, rfl⟩
    · apply Ensures.bind
      apply Ensures.set
      split
      · exact Ensures.throw trivial
      · exact Ensures.pure ⟨rfl, rfl⟩
  | cons step rest =>
    dsimp only
    split
    · exact Ensures.set ⟨rfl, rfl⟩
    · apply Ensures.bind
      apply Ensures.set
      split
      · exact Ensures.throw trivial
      · exact Ensures.pure ⟨rfl, rfl⟩

private theorem ask_nextWakeup (e : Engine) : Ensures (Engine.ask .nextWakeup Store.nextWakeup) e
    (fun next e' => e'.store.nextWakeup = .ok next ∧ e'.clock = e.clock ∧ e'.replaced = e.replaced)
    (fun _ _ => True) := by
  apply Ensures.bind
  refine (begin_keeps _ e).mono ?_ fun _ _ h => h
  rintro _ e' hkept
  apply Ensures.bind
  apply Ensures.get
  exact Ensures.ofExcept (fun _ h => ⟨h, hkept⟩) fun _ _ => trivial

/-- What a worker sees ahead is what its store tells after the look, at the time of the look. -/
theorem lookAhead_reads {next : Option Moment} {e' : Engine} (h : w.lookAhead e = .ok next e') :
    (e'.storeAt w.home).nextWakeup = .ok next ∧ e'.clock = e.clock := by
  rw [lookAhead, Engine.atHome_eq] at h
  split at h
  · rename_i f hask
    cases h
    obtain ⟨hnext, hclock, hreplaced⟩ := (ask_nextWakeup _).of_eq_ok hask
    rw [Engine.storeAt_leaving (e := e) hreplaced, Engine.leaving_clock]
    exact ⟨hnext, hclock⟩
  · cases h

/-- After such a delay the next turn starts in time for a moment: rounding apart, less than a millisecond
after it or after now, whichever is later. -/
def InTime (now : Int) (t : Moment) (delay : Rat) : Prop :=
  ∃ x : Rat, 0 ≤ x ∧ delay ≤ x * (1 + 1 / 2 ^ 53) ∧
    (now : Rat) + 1000000 * x < ((max now t.micros + 1000 : Int) : Rat)

theorem nextWakeup_of_ok {next : Option Moment} {e' : Engine} (h : w.lookAhead e = .ok next e') :
    w.nextWakeup e = .ok next e' := by
  have hlook : Action.attempt (Engine.atHome w.home (Engine.ask .nextWakeup Store.nextWakeup)) e =
      .ok (.ok next) e' := Action.attempt_of_ok h
  unfold nextWakeup
  rw [Action.bind_of_ok hlook]
  rfl

private theorem wait_of_some {longest : Binary64} (hlongest : w.interval = .ok longest) {t : Moment}
    {e' : Engine} (h : w.lookAhead e = .ok (some t) e') (ht : t.zoned = true) (hd : e'.IsDated) :
    w.wait e =
      .ok (delayUntil (t.micros - (Moment.utc e'.clock).cutToMillis.micros) longest) e' := by
  unfold wait
  rw [Action.bind_of_ok (Action.ofExcept_of_ok hlongest), Action.bind_of_ok (nextWakeup_of_ok h)]
  dsimp only
  rw [Action.bind_of_ok (Engine.now_eq_ok hd), ht]
  rfl

private theorem wait_of_none {longest : Binary64} (hlongest : w.interval = .ok longest) {e' : Engine}
    (h : w.lookAhead e = .ok none e') : w.wait e = .ok longest e' := by
  unfold wait
  rw [Action.bind_of_ok (Action.ofExcept_of_ok hlongest), Action.bind_of_ok (nextWakeup_of_ok h)]
  rfl

/-- A time cut to the millisecond is less than a millisecond early. -/
theorem cutToMillis_bounds (t : Moment) :
    t.cutToMillis.micros ≤ t.micros ∧ t.micros < t.cutToMillis.micros + 1000 := by
  unfold Moment.cutToMillis
  dsimp only
  rw [Int.fmod_eq_emod_of_nonneg _ (by decide)]
  omega

private theorem inTime_of_le {clock : Int} {t u : Moment} {q : Rat} (htu : t.micros ≤ u.micros)
    (h : q ≤ max (((t.micros - (Moment.utc clock).cutToMillis.micros : Int) : Rat) / 1000000) 0 *
      (1 + 1 / 2 ^ 53)) : InTime clock u q := by
  obtain ⟨hlow, hhigh⟩ := cutToMillis_bounds (.utc clock)
  change clock < _ at hhigh
  generalize hahead : t.micros - (Moment.utc clock).cutToMillis.micros = ahead at *
  refine ⟨_, le_max_right _ _, h, ?_⟩
  have hmicros : (1000000 : Rat) * max ((ahead : Rat) / 1000000) 0 = ((max ahead 0 : Int) : Rat) := by
    rw [mul_max_of_nonneg _ _ (by norm_num), mul_div_cancel₀ _ (by norm_num), mul_zero]
    push_cast
    rfl
  rw [hmicros, ← Int.cast_add, Int.cast_lt]
  omega

section Chosen
variable {k : Nat} {g : Int} (hkg : InFormat k g)
include hkg

/-- A delay until a time lies between zero and the longest one, and does not go beyond the time. -/
theorem delayUntil_bounded (ahead : Int) : ∃ q, (delayUntil ahead (finite false k g)).value? = some q ∧
    0 ≤ q ∧ q ≤ k * (2 : Rat) ^ g ∧ q ≤ max (ahead / 1000000 : Rat) 0 * (1 + 1 / 2 ^ 53) ∧
      (k ≠ 0 → q = 0 → ahead ≤ 0) := by
  obtain ⟨y, hclose, hvalue⟩ := delayUntil_value ahead hkg
  have hleft : (0 : Rat) ≤ max (ahead / 1000000 : Rat) 0 := le_max_right _ _
  generalize hmax : max (ahead / 1000000 : Rat) 0 = x at *
  obtain ⟨hbelow, habove⟩ := abs_le.mp hclose
  have hy : 0 ≤ y := by linarith
  refine ⟨_, hvalue, le_min hy (by positivity), min_le_right _ _, ?_, fun hk hzero => ?_⟩
  · exact (min_le_left _ _).trans (by linarith)
  · have hlongest : (0 : Rat) < k * (2 : Rat) ^ g := by
      have hk' : (0 : Rat) < k := by exact_mod_cast Nat.pos_of_ne_zero hk
      positivity
    have hyzero : y = 0 := by
      rcases min_choice y (k * (2 : Rat) ^ g) with h | h
      · exact h.symm.trans hzero
      · exact absurd (h.symm.trans hzero) hlongest.ne'
    have hpast : (ahead / 1000000 : Rat) ≤ 0 := by
      have hle : (ahead / 1000000 : Rat) ≤ x := hmax ▸ le_max_left _ _
      linarith
    have hahead : (ahead : Rat) ≤ 0 := by linarith
    exact_mod_cast hahead

/-- Whatever a worker sees, its wait lies between zero and the interval. -/
theorem wait_bounded (hlongest : w.interval = .ok (finite false k g)) (e : Engine) : Ensures w.wait e
    (fun d _ => ∃ q, d.value? = some q ∧ 0 ≤ q ∧ q ≤ k * (2 : Rat) ^ g) (fun _ _ => True) := by
  unfold wait
  apply Ensures.bind
  refine Ensures.of_run (Action.ofExcept_of_ok hlongest) ?_
  apply Ensures.bind
  refine Ensures.always (fun next e' => ?_) fun _ _ => trivial
  cases next with
  | none => exact Ensures.pure ⟨_, value?_positive k g, by positivity, le_rfl⟩
  | some t =>
    apply Ensures.bind
    refine Ensures.always (fun now e₁ => ?_) fun _ _ => trivial
    have hpure : Ensures (pure (delayUntil (t.micros - now.micros) (finite false k g)) : Run Binary64) e₁
        (fun d _ => ∃ q, d.value? = some q ∧ 0 ≤ q ∧ q ≤ k * (2 : Rat) ^ g) (fun _ _ => True) := by
      obtain ⟨q, hq, hlow, hhigh, -⟩ := delayUntil_bounded hkg (t.micros - now.micros)
      exact Ensures.pure ⟨q, hq, hlow, hhigh⟩
    cases ht : t.zoned with
    | true => exact hpure
    | false => exact trivial

/-- A worker that sees the next wakeup time waits until then, and no longer where times compare as their
instants do. It does not wait at all only when a context waits for a time that has come. -/
theorem wait_inTime (hk : k ≠ 0) (hlongest : w.interval = .ok (finite false k g)) {next : Option Moment}
    {e' : Engine} (h : w.lookAhead e = .ok next e') (hs : (e'.storeAt w.home).Timely)
    (hd : e'.IsDated) : ∃ d q, w.wait e = .ok d e' ∧ d.value? = some q ∧
      ((e'.storeAt w.home).WaitsInStep →
        ∀ i t, (e'.storeAt w.home).WaitsUntil i t → InTime e'.clock t q) ∧
      (q = 0 → (e'.storeAt w.home).ReadyBy (Moment.utc e'.clock).cutToMillis) := by
  obtain ⟨hnext, -⟩ := lookAhead_reads h
  have hpositive : (0 : Rat) < k * (2 : Rat) ^ g := by
    have hk' : (0 : Rat) < k := by exact_mod_cast Nat.pos_of_ne_zero hk
    positivity
  obtain ⟨rfl, hidle⟩ | ⟨t, rfl, hearliest, hdated⟩ := hs.nextWakeup_earliest hnext
  · refine ⟨_, _, wait_of_none hlongest h, value?_positive k g, ?_, ?_⟩
    · intro _ i t hw
      exact absurd hw (hidle i t)
    · intro hzero
      exact absurd hzero hpositive.ne'
  · obtain ⟨q, hq, hlow, -, hle, hzero⟩ := delayUntil_bounded hkg
      (t.micros - (Moment.utc e'.clock).cutToMillis.micros)
    refine ⟨_, q, wait_of_some hlongest h hearliest.zoned hd, hq, ?_, ?_⟩
    · intro hstep i u hu
      exact inTime_of_le (hearliest.micros_le hstep hu) hle
    · intro hq
      obtain ⟨i, hi⟩ := hearliest.waits
      have hcome := hzero hk hq
      exact ⟨⟨i, t, hi, by omega⟩, fun hk =>
        ⟨t, hdated hk, fun j u hu => hearliest.micros_le (Store.waitsInStep_of_kind hk) hu⟩⟩

/-! ## The delay of a turn -/

/-- Every delay that a turn chooses lies between zero and the interval. -/
theorem turnLasting_bounded (hlongest : w.interval = .ok (finite false k g)) {t : Turn} {e' : Engine}
    (h : w.turnLasting handler lag e = .ok t e') {d : Binary64} (hd : t.delay = .ok d) :
    ∃ q, d.value? = some q ∧ 0 ≤ q ∧ q ≤ k * (2 : Rat) ^ g := by
  have hchoice (failing isFull : Bool) (e : Engine) : Ensures (w.delayAfter failing isFull) e
      (fun d _ => ∃ q, d.value? = some q ∧ 0 ≤ q ∧ q ≤ k * (2 : Rat) ^ g) (fun _ _ => True) := by
    unfold delayAfter
    split
    · exact Ensures.of_run (Action.ofExcept_of_ok hlongest) ⟨_, value?_positive k g, by positivity, le_rfl⟩
    · split
      · exact Ensures.pure ⟨0, value?_zero, le_rfl, by positivity⟩
      · exact wait_bounded hkg hlongest e
  cases htick : w.tick e with
  | error f e₁ =>
    obtain ⟨journal, hturn⟩ := turnLasting_of_error handler lag htick
    cases h.symm.trans hturn
    cases hlongest.symm.trans hd
    exact ⟨_, value?_positive k g, by positivity, le_rfl⟩
  | ok pass e₁ =>
    obtain ⟨e₂, delay, e'', -, hdelay, hturn⟩ := turnLasting_of_ok handler lag htick
    cases h.symm.trans hturn
    dsimp only at hd
    subst hd
    exact (hchoice _ _ _).of_eq_ok (Action.ok_of_attempt hdelay)

/-- A turn after which no row keeps failing, and that can see the next wakeup time, chooses a delay that
ends in time for every context that waits, if their times compare as their instants do. -/
theorem turnLasting_inTime (hk : k ≠ 0) (hlongest : w.interval = .ok (finite false k g))
    {pass : Engine.Pass} {e₁ e₂ e₃ : Engine} (h : w.tick e = .ok pass e₁) (hfailed : pass.failed = [])
    (hnotify : pass.resumed.forM (w.notify handler) e₁ = .ok ⟨⟩ e₂) {next : Option Moment}
    (hlook : w.lookAhead { e₂ with clock := e₂.clock + lag } = .ok next e₃)
    (hs : (e₃.storeAt w.home).Timely) (hstep : (e₃.storeAt w.home).WaitsInStep) (hd : e₃.IsDated)
    {t : Turn} {e' : Engine}
    (hturn : w.turnLasting handler lag e = .ok t e') : ∃ d q, t.delay = .ok d ∧ d.value? = some q ∧
      ∀ i u, (e₃.storeAt w.home).WaitsUntil i u → InTime e₃.clock u q := by
  obtain ⟨e₂', delay, e'', hnotify', hdelay, hturn'⟩ := turnLasting_of_ok handler lag h
  cases hnotify.symm.trans hnotify'
  cases hturn.symm.trans hturn'
  rw [hfailed] at hdelay
  cases hfull : !(Amount.int pass.resumed.length).lt w.batchSize with
  | true =>
    rw [hfull] at hdelay
    cases hdelay
    refine ⟨_, 0, rfl, value?_zero, fun i u _ => ⟨0, le_rfl, by norm_num, ?_⟩⟩
    rw [mul_zero, add_zero, Int.cast_lt]
    omega
  | false =>
    rw [hfull] at hdelay
    obtain ⟨d, q, hwait, hq, hintime, -⟩ := wait_inTime hkg hk hlongest hlook hs hd
    cases (Action.attempt_of_ok hwait).symm.trans hdelay
    exact ⟨d, q, rfl, hq, hintime hstep⟩

end Chosen

end Worker
end DurableFlow
