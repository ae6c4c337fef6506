import DurableFlow.Proofs.Engine.TickRuns
import DurableFlow.Proofs.Engine.WorkerDelays

/-! Turns of a worker, one after the other. Where nothing fails and nobody else writes, the worker does
not spin: a turn that is not waited after has resumed a context, or the next one does. -/
namespace DurableFlow.Worker
open Binary64
open DurableFlow.Action (Ensures)
open Engine (Hampered)
variable {w : Worker} {handler : Handler} {n : Nat} {e e' : Engine} {lag : Nat} {t : Turn}

/-! ## What hinders a worker -/

/-- Nothing fails over the store that was in use when `home` stores had been replaced, and nobody else
writes to it. -/
structure Undisturbed (home : Nat) (e : Engine) : Prop where
  hampered : Hampered [] e
  timely : (e.storeAt home).Timely

def Harmless (home : Nat) (handler : Handler) : Prop :=
  ∀ c e, Undisturbed home e →
    Ensures (handler c) e (fun _ e' => Undisturbed home e') (fun _ e' => Undisturbed home e')

/-- A context waits for a time that has come, in a store that takes batches of a size. -/
structure Pending (home n : Nat) (e : Engine) : Prop where
  takes : (e.storeAt home).Takes (some n)
  ready : (e.storeAt home).ReadyBy (Moment.utc e.clock).cutToMillis

theorem Undisturbed.later {home : Nat} (h : Undisturbed home e) (clock : Int) :
    Undisturbed home { e with clock } := ⟨⟨h.hampered.alone, h.hampered.faults⟩, h.timely⟩

theorem Undisturbed.noted {home : Nat} (h : Undisturbed home e) (journal : List (Level × String)) :
    Undisturbed home { e with journal } := ⟨⟨h.hampered.alone, h.hampered.faults⟩, h.timely⟩

theorem Pending.later {home : Nat} (h : Pending home n e) {clock : Int} (hle : e.clock ≤ clock) :
    Pending home n { e with clock } := by
  obtain ⟨htakes, ⟨i, u, hw, hu⟩, hlegible⟩ := h
  refine ⟨htakes, ⟨i, u, hw, Int.le_trans hu ?_⟩, hlegible⟩
  simp only [Moment.cutToMillis, Moment.utc, Int.fmod_eq_emod_of_nonneg _ (by decide : (0 : Int) ≤ 1000)]
  omega

/-! ## One turn -/

private theorem hampered_at (hu : Undisturbed w.home e) :
    Hampered [] { e with store := e.storeAt w.home } := ⟨hu.hampered.alone, hu.hampered.faults⟩

private theorem tick_eq (hd : e.IsDated) (hb : w.batchSize = .int n) : w.tick e =
    Engine.atHome w.home (Engine.tick (some (Moment.utc e.clock).cutToMillis)
      (Store.Access.limitValue (some n))) e := by
  have hlimit : w.batchSize.toJson = Store.Access.limitValue (some n) := by rw [hb]; rfl
  have htime : Engine.tick none (Store.Access.limitValue (some n)) { e with store := e.storeAt w.home } =
      Engine.tick (some (Moment.utc e.clock).cutToMillis) (Store.Access.limitValue (some n))
        { e with store := e.storeAt w.home } :=
    Action.bind_of_ok (Engine.now_eq_ok (e := { e with store := e.storeAt w.home }) hd)
  rw [tick, Engine.atHome_eq, Engine.atHome_eq, hlimit, htime]

private theorem isDated_now (hd : e.IsDated) : (Moment.utc e.clock).cutToMillis.isDated = true := by
  obtain ⟨now, hnow⟩ := hd
  exact Moment.isDated_cutToMillis (Moment.dated_eq_ok.mp hnow).1

private theorem isShown_now (hd : e.IsDated) : (Moment.utc e.clock).cutToMillis.IsShown :=
  Moment.isShown_utc (isDated_now hd)

private theorem tick_refused (hu : Undisturbed w.home e) (hd : e.IsDated) (hb : w.batchSize = .int n)
    {f : Failure} (hdue : (e.storeAt w.home).due (some (Moment.utc e.clock).cutToMillis)
      (Store.Access.limitValue (some n)) = .error f) : w.tick e = .error f e := by
  have hask : Engine.ask .due (Store.due (some (Moment.utc e.clock).cutToMillis)
      (Store.Access.limitValue (some n))) { e with store := e.storeAt w.home } =
      .error f { e with store := e.storeAt w.home } := by
    rw [Engine.ask, Action.bind_of_ok (Engine.begin_hampered (hampered_at hu) _)]
    change Action.ofExcept (Store.due _ _ (e.storeAt w.home)) _ = _
    rw [hdue]
    rfl
  have hrefused : Engine.tick (some (Moment.utc e.clock).cutToMillis)
      (Store.Access.limitValue (some n)) { e with store := e.storeAt w.home } =
      .error f { e with store := e.storeAt w.home } := by
    rw [Engine.tick, pure_bind]
    exact Action.bind_of_error (Action.bind_of_error hask)
  rw [tick_eq hd hb, Engine.atHome_eq, hrefused]
  exact congrArg _ (Engine.leaving_self w.home e)

private theorem tick_resumes (hu : Undisturbed w.home e) (hd : e.IsDated) (hb : w.batchSize = .int n)
    {cs : List Context} (hdue : (e.storeAt w.home).due (some (Moment.utc e.clock).cutToMillis)
      (Store.Access.limitValue (some n)) = .ok cs) :
    ∃ pass e', w.tick e = .ok pass e' ∧ Undisturbed w.home e' ∧ (e'.storeAt w.home).Takes (some n) ∧
      pass.failed = [] ∧ pass.resumed.length =
        min n ((e.storeAt w.home).queue (Moment.utc e.clock).cutToMillis).length := by
  have hl := Store.takes_of_due hdue
  obtain ⟨-, rfl⟩ := (hu.timely.due_eq_ok rfl (isShown_now hd) hl).mp hdue
  have htick := Engine.tick_batch (hampered_at hu) hd hu.timely (isShown_now hd) (n := n) hdue
  cases hrun : Engine.tick (some (Moment.utc e.clock).cutToMillis)
      (Store.Access.limitValue (some n)) { e with store := e.storeAt w.home } with
  | error f f' => exact (htick.of_eq_error hrun).elim
  | ok pass f' =>
    obtain ⟨h', hs', -, hfailed, hresumed, hsettled, hreplaced⟩ := htick.of_eq_ok hrun
    have hstore : (e.leaving w.home f').storeAt w.home = f'.store := Engine.storeAt_leaving hreplaced
    refine ⟨pass, e.leaving w.home f', ?_, ⟨⟨?_, ?_⟩, hstore ▸ hs'⟩, ?_, ?_, ?_⟩
    · rw [tick_eq hd hb, Engine.atHome_eq, hrun]
    · exact (Engine.leaving_others _ _ _).trans h'.alone
    · exact (Engine.leaving_faults _ _ _).trans h'.faults
    · intro hkind
      exact hl (hsettled.kind ▸ hstore ▸ hkind)
    · rw [hfailed, Engine.isBroken_nil]
      simp
    · have hlength := congrArg List.length hresumed.ids
      rw [List.length_map, List.length_map, Engine.isBroken_nil] at hlength
      simpa using hlength

/-- A look ahead changes nothing. -/
theorem lookAhead_undisturbed (hu : Undisturbed w.home e) :
    (∃ next, w.lookAhead e = .ok next e) ∨ ∃ f, w.lookAhead e = .error f e := by
  have hask (r : Except Failure (Option Moment)) (hr : (e.storeAt w.home).nextWakeup = r) :
      Engine.ask .nextWakeup Store.nextWakeup { e with store := e.storeAt w.home } =
        Action.ofExcept r { e with store := e.storeAt w.home } := by
    rw [Engine.ask, Action.bind_of_ok (Engine.begin_hampered (hampered_at hu) _)]
    exact congrArg (Action.ofExcept · _) hr
  have hkept := Engine.leaving_self w.home e
  rw [lookAhead, Engine.atHome_eq]
  cases hnext : (e.storeAt w.home).nextWakeup with
  | ok next =>
    rw [hask _ hnext]
    exact .inl ⟨next, congrArg _ hkept⟩
  | error f =>
    rw [hask _ hnext]
    exact .inr ⟨f, congrArg _ hkept⟩

def Turn.isImmediate (t : Turn) : Bool :=
  match t.delay with
  | .ok d => d.isZero
  | .error _ => false

private theorem isZero_iff {d : Binary64} {q : Rat} (h : d.value? = some q) : d.isZero = true ↔ q = 0 := by
  cases d with
  | finite s m x =>
    have hpower : (2 : Rat) ^ x ≠ 0 := zpow_ne_zero _ (by norm_num)
    rw [value?, twoPow_eq] at h
    cases h
    cases s <;> simp [isZero, hpower]
  | infinite s => cases h
  | nan => cases h

section Chosen
variable {k : Nat} {g : Int} (hkg : InFormat k g) (hk : k ≠ 0)
  (hlongest : w.interval = .ok (finite false k g))
include hk

omit hlongest in
private theorem longest_not_zero : (finite false k g).isZero = false := by
  have hk' : (0 : Rat) < k := by exact_mod_cast Nat.pos_of_ne_zero hk
  have hpositive : (0 : Rat) < k * (2 : Rat) ^ g := by positivity
  rw [Bool.eq_false_iff, ne_eq, isZero_iff (value?_positive k g)]
  exact hpositive.ne'

include hkg hlongest

/-- A wait leaves the store alone, and is none only when a context waits for a time that has come. -/
theorem wait_undisturbed (hu : Undisturbed w.home e) : Ensures w.wait e
    (fun d e' => (∃ journal, e' = { e with journal }) ∧
      (d.isZero = true → (e.storeAt w.home).ReadyBy (Moment.utc e.clock).cutToMillis))
    (fun _ e' => ∃ journal, e' = { e with journal }) := by
  have hidle (journal : List (Level × String)) : Ensures
      (pure (finite false k g) : Run Binary64) { e with journal }
      (fun d e' => (∃ journal, e' = { e with journal }) ∧
        (d.isZero = true → (e.storeAt w.home).ReadyBy (Moment.utc e.clock).cutToMillis))
      (fun _ e' => ∃ journal, e' = { e with journal }) :=
    Ensures.pure ⟨⟨journal, rfl⟩, fun hzero => by cases (longest_not_zero hk).symm.trans hzero⟩
  obtain ⟨next, hlook⟩ | ⟨f, hlook⟩ := lookAhead_undisturbed hu
  · by_cases hd : e.IsDated
    · obtain ⟨d, q, hwait, hq, -, hready⟩ := wait_inTime hkg hk hlongest hlook hu.timely hd
      exact Ensures.of_run hwait ⟨⟨e.journal, rfl⟩, fun hzero => hready ((isZero_iff hq).mp hzero)⟩
    · -- where the clock shows no date a worker that sees a time cannot tell how far ahead it lies
      unfold wait
      apply Ensures.bind
      refine Ensures.of_run (Action.ofExcept_of_ok hlongest) ?_
      apply Ensures.bind
      refine Ensures.of_run (nextWakeup_of_ok hlook) ?_
      cases next with
      | none => exact hidle e.journal
      | some u =>
        apply Ensures.bind
        apply Ensures.bind
        apply Ensures.bind
        apply Ensures.get
        exact Ensures.ofExcept (fun now hnow => absurd ⟨now, hnow⟩ hd) fun _ _ => ⟨e.journal, rfl⟩
  · have hfailed : Action.attempt (Engine.atHome w.home (Engine.ask .nextWakeup Store.nextWakeup)) e =
        .ok (.error f) e := Action.attempt_of_error hlook
    have hnone : ∃ journal, w.nextWakeup e = .ok none { e with journal } := by
      unfold nextWakeup
      rw [Action.bind_of_ok hfailed]
      exact ⟨_, rfl⟩
    obtain ⟨journal, hnone⟩ := hnone
    unfold wait
    apply Ensures.bind
    refine Ensures.of_run (Action.ofExcept_of_ok hlongest) ?_
    apply Ensures.bind
    exact Ensures.of_run hnone (hidle journal)

private theorem turn_taken (hh : Harmless w.home handler) (hb : w.batchSize = .int n) (hn : 1 ≤ n)
    (hu : Undisturbed w.home e) (hd : e.IsDated) {cs : List Context}
    (hdue : (e.storeAt w.home).due (some (Moment.utc e.clock).cutToMillis)
      (Store.Access.limitValue (some n)) = .ok cs) (h : w.turnLasting handler lag e = .ok t e') :
    Undisturbed w.home e' ∧ t.worker = w.after t.handled ∧ (Pending w.home n e → t.handled ≠ []) ∧
      (t.isImmediate = true → t.handled ≠ [] ∨ Pending w.home n e') := by
  obtain ⟨pass, e₁, htick, hu₁, htakes, hfailed, hlength⟩ := tick_resumes hu hd hb hdue
  obtain ⟨e₂, delay, e'', hnotify, hdelay, hturn⟩ := turnLasting_of_ok handler lag htick
  cases h.symm.trans hturn
  have hu₂ : Undisturbed w.home e₂ :=
    (notifyAll_keeps (fun _ journal he => he.noted journal) hh pass.resumed hu₁).of_eq_ok hnotify
  have hu₃ : Undisturbed w.home { e₂ with clock := e₂.clock + lag } := hu₂.later _
  have hresumes : Pending w.home n e → pass.resumed ≠ [] := by
    rintro ⟨-, ⟨i, u, ⟨r, hr, hopen, hw⟩, hle⟩, -⟩ hnone
    have hstep : (Moment.utc e.clock).cutToMillis.InStep u := Moment.utc_inStep _ _
    have hcome : (Moment.utc e.clock).cutToMillis.isBefore u = false := by
      rw [hstep, decide_eq_false_iff_not]
      omega
    have hmem := ((hu.timely.queued (isShown_now hd)).members r).mpr ⟨i, hr, hopen, u, hw, hcome⟩
    have hpos := List.length_pos_of_mem hmem
    rw [hnone, List.length_nil] at hlength
    omega
  rw [hfailed] at hdelay
  cases hfull : !(Amount.int pass.resumed.length).lt w.batchSize with
  | true =>
    rw [hfull] at hdelay
    cases hdelay
    refine ⟨hu₃, rfl, hresumes, fun _ => .inl fun hnone => ?_⟩
    have hnone : pass.resumed = [] := hnone
    rw [hnone, hb] at hfull
    have hsize : (0 : Rat) < n := by exact_mod_cast hn
    simp [Amount.lt, Amount.place?, Amount.toJson, Json.place?, Place.lt, hsize] at hfull
  | false =>
    rw [hfull] at hdelay
    have hwait := wait_undisturbed hkg hk hlongest hu₃
    cases delay with
    | ok d =>
      obtain ⟨⟨journal, rfl⟩, hready⟩ := hwait.of_eq_ok (Action.ok_of_attempt hdelay)
      refine ⟨hu₃.noted journal, rfl, hresumes, fun himmediate => or_iff_not_imp_left.mpr fun hnone => ?_⟩
      -- where no handler has run the store is the one that the tick has left
      have hnone : pass.resumed = [] := not_not.mp hnone
      rw [hnone] at hnotify
      cases hnotify
      exact ⟨htakes, hready himmediate⟩
    | error f =>
      obtain ⟨journal, rfl⟩ := hwait.of_eq_error (Action.error_of_attempt hdelay)
      exact ⟨hu₃.noted journal, rfl, hresumes, fun himmediate => absurd himmediate Bool.false_ne_true⟩

/-- A turn that nothing hinders. It resumes a context when one waits for a time that has come; and unless
it has resumed one, it is not waited after only when such a context is there for the next turn. -/
theorem turn_undisturbed (hh : Harmless w.home handler) (hb : w.batchSize = .int n) (hn : 1 ≤ n)
    (hu : Undisturbed w.home e) (hd : e.IsDated) (h : w.turnLasting handler lag e = .ok t e') :
    Undisturbed w.home e' ∧ t.worker = w.after t.handled ∧ (Pending w.home n e → t.handled ≠ []) ∧
      (t.isImmediate = true → t.handled ≠ [] ∨ Pending w.home n e') := by
  cases hdue : (e.storeAt w.home).due (some (Moment.utc e.clock).cutToMillis)
      (Store.Access.limitValue (some n)) with
  | ok cs => exact turn_taken hkg hk hlongest hh hb hn hu hd hdue h
  | error f =>
    obtain ⟨journal, hturn⟩ := turnLasting_of_error handler lag (tick_refused hu hd hb hdue)
    cases h.symm.trans hturn
    refine ⟨(hu.later (e.clock + lag)).noted journal, rfl, ?_, fun hnow => ?_⟩
    · -- what is pending can be read
      rintro ⟨htakes, hready⟩
      have hlegible := hu.timely.legibleBy (isDated_now hd) hready
      cases hdue.symm.trans (hu.timely.due_eq rfl (isShown_now hd) htakes hlegible)
    · have hzero : (finite false k g).isZero = true := by simpa [Turn.isImmediate, hlongest] using hnow
      cases (longest_not_zero hk).symm.trans hzero

end Chosen

/-! ## Turn after turn -/

/-- Turns of a worker, one after the other. Between two of them some time passes, and nothing else. -/
inductive TurnByTurn (handler : Handler) : Worker → Engine → List Turn → Prop
  | ended (w : Worker) (e : Engine) : TurnByTurn handler w e []
  | turn {w : Worker} {e e' : Engine} {t : Turn} {rest : List Turn} (lag : Nat) (clock : Int)
      (dated : e.IsDated) (taken : w.turnLasting handler lag e = .ok t e') (later : e'.clock ≤ clock)
      (next : TurnByTurn handler t.worker { e' with clock } rest) : TurnByTurn handler w e (t :: rest)

/-- The delay after a turn passes on the clock alone. -/
theorem Turn.pass_eq_ok {d : Binary64} (h : t.pass e = .ok d e') : ∃ clock, e' = { e with clock } := by
  have hkept : Ensures t.pass e (fun _ e' => ∃ clock, e' = { e with clock }) (fun _ _ => True) := by
    unfold Turn.pass Engine.elapse
    apply Ensures.bind
    refine Ensures.ofExcept (fun d _ => ?_) fun _ _ => trivial
    apply Ensures.bind
    apply Ensures.bind
    refine Ensures.ofExcept (fun micros _ => ?_) fun _ _ => trivial
    exact Ensures.modify (Ensures.pure ⟨_, rfl⟩)
  exact hkept.of_eq_ok h

/-- A worker that takes a turn, lets its delay pass and goes on takes turns one after the other. -/
theorem TurnByTurn.passed {d : Binary64} {e'' : Engine} (hd : e.IsDated) (h : w.turn handler e = .ok t e')
    (hpass : t.pass e' = .ok d e'') (hlater : e'.clock ≤ e''.clock) {rest : List Turn}
    (hs : TurnByTurn handler t.worker e'' rest) : TurnByTurn handler w e (t :: rest) := by
  obtain ⟨clock, rfl⟩ := Turn.pass_eq_ok hpass
  exact .turn 0 clock hd (turn_eq_lasting ▸ h) hlater hs

/-- A turn that is not waited after has resumed a context, or the turn after it does. -/
def MakesHeadway (t t' : Turn) : Prop := t.isImmediate = true → t.handled ≠ [] ∨ t'.handled ≠ []

/-- Turns of which each two advance are waited after, but for two of them for each context resumed. The
last turn, after which none follows, is left out of account. -/
theorem countP_immediate_le {ts : List Turn} (h : ts.IsChain MakesHeadway) :
    ts.dropLast.countP Turn.isImmediate ≤ 2 * (ts.map fun t => t.handled.length).sum := by
  -- a first turn that resumes a context can be charged once more, by a turn before it
  suffices hcharged : ∀ t rest, (t :: rest).IsChain MakesHeadway →
      (t :: rest).dropLast.countP Turn.isImmediate + (if t.handled = [] then 0 else 1) ≤
        2 * ((t :: rest).map fun t => t.handled.length).sum by
    cases ts with
    | nil => simp
    | cons t rest => exact Nat.le_trans (Nat.le_add_right _ _) (hcharged t rest h)
  intro t rest hchain
  induction rest generalizing t with
  | nil =>
    cases ht : t.handled <;> simp [ht]
    omega
  | cons t' rest ih =>
    obtain ⟨hadvances, hrest⟩ := List.isChain_cons_cons.mp hchain
    have hle := ih t' hrest
    have hcharge : (if t.isImmediate then 1 else 0) + (if t.handled = [] then 0 else 1) ≤
        2 * t.handled.length + (if t'.handled = [] then 0 else 1) := by
      by_cases ht : t.handled = []
      · by_cases himmediate : t.isImmediate = true
        · have hnext : t'.handled ≠ [] := (hadvances himmediate).resolve_left (absurd ht)
          simp [ht, himmediate, hnext]
        · simp [ht, himmediate]
      · have hlength := List.length_pos_of_ne_nil ht
        split <;> split <;> omega
    rw [List.dropLast_cons_cons, List.countP_cons, List.map_cons, List.sum_cons]
    omega

/-- In turns that nothing hinders the first resumes a context when one waits for a time that has come, and
each two advance. -/
theorem TurnByTurn.advances {k : Nat} {g : Int} (hkg : InFormat k g) (hk : k ≠ 0)
    (hlongest : w.interval = .ok (finite false k g)) (hh : Harmless w.home handler)
    (hb : w.batchSize = .int n) (hn : 1 ≤ n) {ts : List Turn} (h : TurnByTurn handler w e ts)
    (hu : Undisturbed w.home e) :
    (∀ t ∈ ts.head?, Pending w.home n e → t.handled ≠ []) ∧ ts.IsChain MakesHeadway := by
  induction h with
  | ended w e => exact ⟨fun t ht => by simp at ht, .nil⟩
  | @turn w e e' t rest lag clock hd taken later next ih =>
    obtain ⟨hu', hworker, hresumes, himmediate⟩ :=
      turn_undisturbed hkg hk hlongest hh hb hn hu hd taken
    rw [hworker] at ih
    obtain ⟨hfirst, hchain⟩ := ih hlongest hh hb (hu'.later clock)
    refine ⟨fun t' ht' => ?_, ?_⟩
    · cases ht'
      exact hresumes
    · refine List.isChain_cons.mpr ⟨fun t' ht' hi => ?_, hchain⟩
      exact (himmediate hi).imp_right fun hpending => hfirst t' ht' (hpending.later later)

/-- A worker with a finite interval and batches of one context or more neither oversleeps nor spins.
In every state, whatever fails and whoever writes, each delay that it chooses lies between zero and the
interval; it is the interval after a tick that raises or that leaves a row failing; and otherwise, where
the worker can see the next wakeup time, the next turn starts less than a millisecond after the later of
now and the earliest time that a context waits for.
In turns that nothing hinders, a turn that is not waited after has resumed a context or the next turn
resumes one, so that there are no more than two of them for each context that is resumed. -/
theorem neither_oversleeps_nor_spins {m : Nat} {x : Int}
    (hinterval : w.tickInterval.toDouble = .ok (finite false m x)) (hformat : InFormat m x)
    (hbatch : w.batchSize = .int n) (hn : 1 ≤ n) (handler : Handler) :
    ∃ longest p, w.interval = .ok longest ∧ longest.value? = some p ∧ 0 < p ∧
      (∀ e lag, ∃ t e', w.turnLasting handler lag e = .ok t e' ∧
        (∀ d, t.delay = .ok d → ∃ q, d.value? = some q ∧ 0 ≤ q ∧ q ≤ p) ∧
        (∀ f e₁, w.tick e = .error f e₁ → t.delay = .ok longest) ∧
        (∀ pass e₁, w.tick e = .ok pass e₁ → pass.failed ≠ [] → t.delay = .ok longest) ∧
        ∀ pass e₁ e₂ next e₃, w.tick e = .ok pass e₁ → pass.failed = [] →
          pass.resumed.forM (w.notify handler) e₁ = .ok ⟨⟩ e₂ →
          w.lookAhead { e₂ with clock := e₂.clock + lag } = .ok next e₃ →
          (e₃.storeAt w.home).Timely → (e₃.storeAt w.home).WaitsInStep → e₃.IsDated →
          ∃ d q, t.delay = .ok d ∧ d.value? = some q ∧
            ∀ i u, (e₃.storeAt w.home).WaitsUntil i u → InTime e₃.clock u q) ∧
      ∀ e ts, Undisturbed w.home e → Harmless w.home handler → TurnByTurn handler w e ts →
        ts.IsChain MakesHeadway ∧
          ts.dropLast.countP Turn.isImmediate ≤ 2 * (ts.map fun t => t.handled.length).sum := by
  obtain ⟨k, g, hlongest, hk, hkg⟩ := interval_inFormat hinterval hformat
  have hpositive : (0 : Rat) < k * (2 : Rat) ^ g := by
    have hk' : (0 : Rat) < k := by exact_mod_cast Nat.pos_of_ne_zero hk
    positivity
  refine ⟨_, _, hlongest, value?_positive k g, hpositive, fun e lag => ?_, fun e ts hu hh hs => ?_⟩
  · obtain ⟨t, e', hturn⟩ := turnLasting_returns w handler lag e
    refine ⟨t, e', hturn, fun d => turnLasting_bounded hkg hlongest hturn, ?_, ?_, ?_⟩
    · intro f e₁ htick
      obtain ⟨e'', hraised⟩ := turnLasting_of_error handler lag htick
      cases hturn.symm.trans hraised
      exact hlongest
    · intro pass e₁ htick hfailed
      obtain ⟨e'', hleft⟩ := turnLasting_of_failed handler lag htick hfailed
      cases hturn.symm.trans hleft
      exact hlongest
    · intro pass e₁ e₂ next e₃ htick hfailed hnotify hlook hstore hstep hd
      exact turnLasting_inTime hkg hk hlongest htick hfailed hnotify hlook hstore hstep hd hturn
  · have hchain := (hs.advances hkg hk hlongest hh hbatch hn hu).2
    exact ⟨hchain, countP_immediate_le hchain⟩

/-- A context comes due between a tick and the look after it: the turn resumes none and is not waited
after, and the next one resumes it. -/
theorem neither_oversleeps_nor_spins_due :
    let waiting : Context := ⟨some "a", .int 7, 1, none, .string "n", none, some (.utc 5000), none,
      .object [], 1, .utc 0, .utc 0, none⟩
    let store : Store := .memory { Store.Memory.empty with contexts := [("a", waiting)] }
    let e := Engine.ofStore store ⟨.int 1, .int 0, .int 0, .int 1⟩ .null 4500
    let w := named "w"
    (w.tickInterval.toDouble = .ok (finite false (2 ^ 52) (-52)) ∧ InFormat (2 ^ 52) (-52) ∧
        w.batchSize = .int (100 : Nat) ∧ 1 ≤ 100 ∧ Undisturbed w.home e ∧
        Harmless w.home fun _ => pure ()) ∧
      ∃ t t', TurnByTurn (fun _ => pure ()) w e [t, t'] ∧ t.handled = [] ∧ t.isImmediate = true ∧
        t'.handled ≠ [] := by
  intro waiting store e w
  have hinterval : w.tickInterval.toDouble = .ok (finite false (2 ^ 52) (-52)) := by decide +kernel
  have hu : Undisturbed w.home e :=
    ⟨⟨rfl, rfl⟩, Store.timely_memory (by decide) (by decide) (by decide)⟩
  have hh : Harmless w.home fun _ => pure () := fun _ _ he => Ensures.pure he
  have hrun : (match w.turnLasting (fun _ => pure ()) 1000 e with
      | .ok t e₁ => decide (t.handled = [] ∧ t.isImmediate = true ∧ e₁.clock ≤ 5500)
      | .error _ _ => false) = true := by decide +kernel
  obtain ⟨t, e₁, hturn⟩ := turnLasting_returns w (fun _ => pure ()) 1000 e
  rw [hturn] at hrun
  obtain ⟨hnone, himmediate, hclock⟩ := of_decide_eq_true hrun
  obtain ⟨t', e₂, hturn'⟩ := turnLasting_returns t.worker (fun _ => pure ()) 0 { e₁ with clock := 5500 }
  have hs : TurnByTurn (fun _ => pure ()) w e [t, t'] :=
    .turn 1000 5500 ⟨_, rfl⟩ hturn hclock (.turn 0 e₂.clock ⟨_, rfl⟩ hturn' (Int.le_refl _) (.ended _ _))
  obtain ⟨-, -, -, -, -, -, hruns⟩ :=
    neither_oversleeps_nor_spins hinterval (inFormat_top (by decide) (by decide)) (n := 100) rfl
      (by decide) fun _ => pure ()
  obtain ⟨hadvances, -⟩ := List.isChain_cons_cons.mp (hruns e _ hu hh hs).1
  exact ⟨⟨hinterval, inFormat_top (by decide) (by decide), rfl, by decide, hu, hh⟩, t, t', hs, hnone,
    himmediate, (hadvances himmediate).resolve_left (absurd hnone)⟩

/-- A turn of a worker finds nothing due, and the worker sleeps past a time that is still to come. -/
def Oversleeps (w : Worker) (e : Engine) (wakeup : Moment) : Prop :=
  ∃ t e' d e'', w.turn (fun _ => pure ()) e = .ok t e' ∧ t.handled = [] ∧ e'.store = e.store ∧
    t.pass e' = .ok d e'' ∧ max e'.clock wakeup.micros < e''.clock

private theorem oversleeps_of_turn {wakeup : Moment} (h : (match w.turn (fun _ => pure ()) e with
    | .ok t e' => (match t.pass e' with
      | .ok _ e'' => decide (t.handled = [] ∧ e'.store = e.store ∧ max e'.clock wakeup.micros < e''.clock)
      | .error _ _ => false)
    | .error _ _ => false) = true) : w.Oversleeps e wakeup := by
  split at h
  · rename_i t e' hturn
    split at h
    · rename_i d e'' hpass
      obtain ⟨hnone, hstore, hlater⟩ := of_decide_eq_true h
      exact ⟨t, e', d, e'', hturn, hnone, hstore, hpass, hlater⟩
    · cases h
  · cases h

/-- A worker in the last tenth of a millisecond reads its clock as almost a millisecond earlier, and
sleeps so much longer: past the time that a context waits for. And half a second before 2:45, when the
clocks of Berlin are still to be set back, a worker takes the second 2:30 of that night for earlier, and
sleeps past 2:45. -/
theorem cut_clock_oversleeps :
    let waiting (i : String) (w : Moment) : String × Context := (i, ⟨some i, .int 7, 1, none, .string "n",
      none, some w, none, .object [], 1, .utc 0, .utc 0, none⟩)
    let e (contexts : List (String × Context)) (clock : Int) := Engine.ofStore
      (.memory { Store.Memory.empty with contexts }) ⟨.int 1, .int 0, .int 0, .int 1⟩ .null clock
    let soon := Moment.utc 1700000000002000
    let second : Moment := ⟨1698543000000000, some (.region "Europe/Berlin" 3600000000)⟩
    let first : Moment := ⟨1698540300000000, some (.region "Europe/Berlin" 7200000000)⟩
    let w := named "w"
    let late := e [waiting "a" soon] 1700000000000900
    let early := e [waiting "a" second, waiting "b" first] 1698540299500000
    (late.store.Timely ∧ late.store.nextWakeup = .ok (some soon) ∧ late.IsDated ∧
        w.Oversleeps late soon) ∧
      early.store.WaitsUntil "b" first ∧ early.store.nextWakeup = .ok (some second) ∧ early.IsDated ∧
        w.Oversleeps early first := by
  intro waiting e soon second first w late early
  refine ⟨⟨Store.timely_memory (by decide) (by decide) (by decide), rfl, ⟨_, rfl⟩,
    oversleeps_of_turn ?_⟩, ⟨_, rfl, rfl, rfl⟩, rfl, ⟨_, rfl⟩, oversleeps_of_turn ?_⟩
  all_goals decide +kernel

end DurableFlow.Worker
