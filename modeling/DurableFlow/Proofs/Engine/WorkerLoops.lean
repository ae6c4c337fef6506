import DurableFlow.Proofs.Engine.WorkerDelays

/-! The loop of a worker. Neither its ticks nor its handlers nor the failures of its store end it. Besides a
shutdown only a turn that cannot tell its delay does, and it is known when a turn cannot. -/
namespace DurableFlow

namespace Store
variable {t u : Moment}

def Memory.Unzoned (m : Memory) : Prop :=
  ∀ i c t, (i, c) ∈ m.contexts → c.isSuspended = true → c.wakeup = some t → t.zoned = false

private theorem foldlM_earlier_zoned {ts : List Moment} (h : ts.foldlM Memory.earlier t = .ok u) :
    u.zoned = t.zoned ∧ ∀ v ∈ ts, v.zoned = t.zoned := by
  induction ts generalizing t with
  | nil =>
    cases h
    exact ⟨rfl, fun _ hv => absurd hv List.not_mem_nil⟩
  | cons v rest ih =>
    rw [List.foldlM_cons] at h
    obtain ⟨first, hfirst, hrest⟩ := bind_eq_ok.mp h
    have hzones : v.zoned = t.zoned ∧ first.zoned = t.zoned := by
      unfold Memory.earlier Moment.before? at hfirst
      by_cases hsame : v.zoned = t.zoned
      · rw [if_pos hsame] at hfirst
        cases hless : v.isBefore t <;> rw [hless] at hfirst <;> cases hfirst
        · exact ⟨hsame, rfl⟩
        · exact ⟨hsame, hsame⟩
      · rw [if_neg hsame] at hfirst
        cases hfirst
    obtain ⟨hu, hall⟩ := ih hrest
    rw [hzones.2] at hu hall
    exact ⟨hu, List.forall_mem_cons.mpr ⟨hzones.1, hall⟩⟩

private theorem memory_unzoned {m : Memory} (h : m.nextWakeup = .ok (some u)) :
    u.zoned = false ↔ m.Unzoned := by
  have hmem {v : Moment} :
      v ∈ (m.contexts.filterMap fun x => if x.2.isSuspended then x.2.wakeup else none) ↔
        ∃ i c, (i, c) ∈ m.contexts ∧ c.isSuspended = true ∧ c.wakeup = some v := by
    simp only [List.mem_filterMap, Prod.exists, Option.ite_none_right_eq_some]
  unfold Memory.nextWakeup at h
  split at h
  · cases h
  · rename_i t rest hlist
    rw [hlist] at hmem
    cases hfold : rest.foldlM Memory.earlier t with
    | error f =>
      rw [hfold] at h
      cases h
    | ok v =>
      rw [hfold] at h
      cases h
      obtain ⟨hu, hall⟩ := foldlM_earlier_zoned hfold
      have hsame : ∀ v ∈ t :: rest, v.zoned = u.zoned :=
        List.forall_mem_cons.mpr ⟨hu.symm, fun v hv => (hall v hv).trans hu.symm⟩
      constructor
      · intro hzone i c v hc hs hv
        exact (hsame v (hmem.mpr ⟨i, c, hc, hs, hv⟩)).trans hzone
      · intro hunzoned
        obtain ⟨i, c, hc, hs, ht⟩ := hmem.mp List.mem_cons_self
        exact hu.trans (hunzoned i c t hc hs ht)

/-- The next wakeup time comes without a zone only from a store in memory, when no context waits for a time
with one. -/
theorem nextWakeup_unzoned {s : Store} (h : s.nextWakeup = .ok (some u)) :
    u.zoned = false ↔ ∃ m, s = .memory m ∧ m.Unzoned := by
  cases s with
  | memory m =>
    rw [memory_unzoned h]
    exact ⟨fun hm => ⟨m, rfl, hm⟩, fun ⟨_, he, hm⟩ => Store.memory.inj he ▸ hm⟩
  | rows r =>
    obtain ⟨_, -, hread⟩ := bind_eq_ok.mp h
    obtain ⟨-, hu⟩ := (option_mapM_eq_ok fun _ _ => Moment.dated_eq_ok).mp hread
    obtain ⟨ms, -, rfl⟩ := Option.map_eq_some_iff.mp hu.symm
    exact ⟨fun hzone => (nomatch hzone), fun ⟨_, he, _⟩ => nomatch he⟩
  | keys k =>
    obtain ⟨_, -, hread⟩ := bind_eq_ok.mp h
    obtain ⟨set, -, hread⟩ := bind_eq_ok.mp hread
    obtain ⟨-, hu⟩ := (option_mapM_eq_ok fun _ _ => Moment.dated_eq_ok).mp hread
    obtain ⟨entry, -, rfl⟩ := Option.map_eq_some_iff.mp hu.symm
    exact ⟨fun hzone => (nomatch hzone), fun ⟨_, he, _⟩ => nomatch he⟩

end Store

/-- Where its clock shows no date, an engine tells no time. -/
theorem Engine.now_eq_error {e : Engine} {f : Failure} (h : (Moment.utc e.clock).dated = .error f) :
    now e = .error f e := by
  have hnow : Action.Ensures now e (fun _ _ => False) (fun g e' => g = f ∧ e' = e) := by
    apply Action.Ensures.bind
    apply Action.Ensures.bind
    apply Action.Ensures.get
    rw [h]
    exact ⟨rfl, rfl⟩
  cases hrun : now e with
  | ok t e' => exact (hnow.of_eq_ok hrun).elim
  | error g e' =>
    obtain ⟨rfl, rfl⟩ := hnow.of_eq_error hrun
    rfl

namespace Worker
open DurableFlow.Action (Ensures)
variable {w : Worker} {e e' : Engine} {f : Failure}

/-! ## When a delay cannot be told -/

/-- A worker cannot tell its interval just when it is given an integer too large for a binary64 number. -/
theorem interval_eq_error : w.interval = .error f ↔
    f = .tooLarge .double ∧ ∃ n, w.tickInterval = .int n ∧ Binary64.ofInt? n = none := by
  have hone : Amount.doubleOf 1 = .ok (.finite false (2 ^ 52) (-52)) := by decide +kernel
  have hzero : Amount.doubleOf 0 = .ok (.finite false 0 (-1074)) := by decide +kernel
  have hsum : w.interval = w.tickInterval.toDouble.map fun d => d.add w.jitter := by
    unfold interval Amount.add
    cases w.tickInterval.whole? <;> cases w.tickInterval.toDouble <;> rfl
  rw [hsum]
  cases w.tickInterval with
  | flag b => cases b <;> simp [Amount.toDouble, hone, hzero, Except.map]
  | double d => simp [Amount.toDouble, Except.map]
  | int n => cases hn : Binary64.ofInt? n <;> simp [Amount.toDouble, Amount.doubleOf, hn, Except.map, eq_comm]

private theorem wait_eq_error {longest : Binary64} (hlongest : w.interval = .ok longest) :
    (∃ e', w.wait e = .error f e') ↔ ∃ u e', w.lookAhead e = .ok (some u) e' ∧
      ((Moment.utc e'.clock).dated = .error f ∨ e'.IsDated ∧ u.zoned = false ∧ f = .zonesApart) := by
  unfold wait
  rw [Action.bind_of_ok (Action.ofExcept_of_ok hlongest)]
  cases hlook : w.lookAhead e with
  | error g e₁ =>
    have hattempt : Action.attempt (Engine.atHome w.home (Engine.ask .nextWakeup Store.nextWakeup)) e =
        .ok (.error g) e₁ := Action.attempt_of_error hlook
    unfold nextWakeup
    rw [bind_assoc, Action.bind_of_ok hattempt]
    exact ⟨fun ⟨_, h⟩ => (nomatch h), fun ⟨_, _, h, _⟩ => nomatch h⟩
  | ok next e₁ =>
    rw [Action.bind_of_ok (nextWakeup_of_ok hlook)]
    cases next with
    | none => exact ⟨fun ⟨_, h⟩ => (nomatch h), fun ⟨_, _, h, _⟩ => nomatch h⟩
    | some u =>
      dsimp only
      cases hd : (Moment.utc e₁.clock).dated with
      | error g =>
        rw [Action.bind_of_error (Engine.now_eq_error hd)]
        constructor
        · rintro ⟨_, h⟩
          cases h
          exact ⟨u, e₁, rfl, .inl hd⟩
        · rintro ⟨_, _, h, hcause⟩
          cases h
          rcases hcause with hcause | ⟨⟨_, hcause⟩, -⟩
          · cases hd.symm.trans hcause
            exact ⟨_, rfl⟩
          · cases hd.symm.trans hcause
      | ok t =>
        rw [Action.bind_of_ok (Engine.now_eq_ok ⟨t, hd⟩)]
        constructor
        · rintro ⟨_, h⟩
          cases hu : u.zoned with
          | false =>
            rw [hu] at h
            cases h
            exact ⟨u, e₁, rfl, .inr ⟨⟨t, hd⟩, hu, rfl⟩⟩
          | true =>
            rw [hu] at h
            cases h
        · rintro ⟨_, _, h, hcause⟩
          cases h
          rcases hcause with hcause | ⟨-, hu, rfl⟩
          · cases hd.symm.trans hcause
          · rw [hu]
            exact ⟨_, rfl⟩

/-! ## Rounds -/

/-- What a turn of a worker comes upon: the engine as whatever went before has left it, with the failures
and the writes of others that lie ahead; what the handler does; and the microseconds that pass before the
worker looks ahead. -/
structure Round where
  engine : Engine
  handler : Handler
  lag : Nat

variable {r : Round}

def ticked (w : Worker) (r : Round) : List Context :=
  match w.tick r.engine with
  | .ok pass _ => pass.resumed
  | .error _ _ => []

def Drains (w : Worker) (r : Round) : Prop :=
  ∃ pass e₁, w.tick r.engine = .ok pass e₁ ∧ pass.failed = [] ∧
    (Amount.int pass.resumed.length).lt w.batchSize = false

/-- In a round the worker comes to look ahead, for no row is left failing and no batch is filled. The look
shows a time, and leaves an engine. -/
def Sees (w : Worker) (r : Round) (u : Moment) (e : Engine) : Prop :=
  ∃ pass e₁ e₂, w.tick r.engine = .ok pass e₁ ∧ pass.failed = [] ∧
    (Amount.int pass.resumed.length).lt w.batchSize = true ∧
    pass.resumed.forM (w.notify r.handler) e₁ = .ok ⟨⟩ e₂ ∧
    w.lookAhead { e₂ with clock := e₂.clock + r.lag } = .ok (some u) e

inductive Strands (w : Worker) (r : Round) : Failure → Prop
  | vast (n : Int) (given : w.tickInterval = .int n) (large : Binary64.ofInt? n = none)
      (waits : ¬ w.Drains r) : Strands w r (.tooLarge .double)
  | undated {u : Moment} {e : Engine} {f : Failure} (told : ∃ d, w.interval = .ok d) (sees : w.Sees r u e)
      (clock : (Moment.utc e.clock).dated = .error f) : Strands w r f
  | unzoned {u : Moment} {e : Engine} (m : Store.Memory) (told : ∃ d, w.interval = .ok d)
      (sees : w.Sees r u e) (dated : e.IsDated) (store : e.storeAt w.home = .memory m)
      (times : m.Unzoned) : Strands w r .zonesApart

private theorem strands_after (cs : List Context) : (w.after cs).Strands r f ↔ w.Strands r f := by
  constructor
  · rintro (⟨n, given, large, waits⟩ | ⟨told, sees, clock⟩ | ⟨m, told, sees, dated, store, times⟩)
    · exact .vast n given large waits
    · exact .undated told sees clock
    · exact .unzoned m told sees dated store times
  · rintro (⟨n, given, large, waits⟩ | ⟨told, sees, clock⟩ | ⟨m, told, sees, dated, store, times⟩)
    · exact .vast n given large waits
    · exact .undated told sees clock
    · exact .unzoned m told sees dated store times

private theorem strands_of_untold {g : Failure} (h : w.interval = .error g) (hwaits : ¬ w.Drains r) :
    w.Strands r f ↔ f = g := by
  obtain ⟨rfl, n, hgiven, hlarge⟩ := interval_eq_error.mp h
  constructor
  · rintro (⟨n, given, large, waits⟩ | ⟨⟨d, told⟩, sees, clock⟩ | ⟨m, ⟨d, told⟩, sees, dated, store, times⟩)
    · rfl
    · cases h.symm.trans told
    · cases h.symm.trans told
  · rintro rfl
    exact .vast n hgiven hlarge hwaits

private theorem strands_of_told {d : Binary64} (h : w.interval = .ok d) :
    w.Strands r f ↔ ∃ u e, w.Sees r u e ∧ ((Moment.utc e.clock).dated = .error f ∨
      e.IsDated ∧ u.zoned = false ∧ f = .zonesApart) := by
  have hzone {u : Moment} {e : Engine} (hsees : w.Sees r u e) :
      u.zoned = false ↔ ∃ m, e.storeAt w.home = .memory m ∧ m.Unzoned := by
    obtain ⟨_, _, _, -, -, -, -, hlook⟩ := hsees
    exact Store.nextWakeup_unzoned (lookAhead_reads hlook).1
  constructor
  · rintro (⟨n, given, large, waits⟩ | ⟨told, sees, clock⟩ | ⟨m, told, sees, dated, store, times⟩)
    · cases h.symm.trans (interval_eq_error.mpr ⟨rfl, n, given, large⟩)
    · exact ⟨_, _, sees, .inl clock⟩
    · exact ⟨_, _, sees, .inr ⟨dated, (hzone sees).mpr ⟨m, store, times⟩, rfl⟩⟩
  · rintro ⟨u, e, hsees, hclock | ⟨hd, hu, rfl⟩⟩
    · exact .undated ⟨d, h⟩ hsees hclock
    · obtain ⟨m, hstore, htimes⟩ := (hzone hsees).mp hu
      exact .unzoned m ⟨d, h⟩ hsees hd hstore htimes

private theorem interval_strands (hwaits : ¬ w.Drains r) (hblind : ∀ u e, ¬ w.Sees r u e) :
    w.interval = .error f ↔ w.Strands r f := by
  cases hinterval : w.interval with
  | error g =>
    rw [strands_of_untold hinterval hwaits, Except.error.injEq]
    exact eq_comm
  | ok d =>
    rw [strands_of_told hinterval]
    exact ⟨fun h => (nomatch h), fun ⟨u, e, h, _⟩ => absurd h (hblind u e)⟩

private theorem not_strands_of_drains (h : w.Drains r) : ¬ w.Strands r f := by
  have hblind {u : Moment} {e : Engine} : ¬ w.Sees r u e := by
    obtain ⟨pass, e₁, htick, -, hfull⟩ := h
    rintro ⟨_, _, _, htick', -, hpart, -⟩
    cases htick.symm.trans htick'
    exact Bool.false_ne_true (hfull.symm.trans hpart)
  rintro (⟨n, given, large, waits⟩ | ⟨told, sees, clock⟩ | ⟨m, told, sees, dated, store, times⟩)
  · exact waits h
  · exact hblind sees
  · exact hblind sees

private theorem wait_strands {pass : Engine.Pass} {e₁ e₂ : Engine}
    (htick : w.tick r.engine = .ok pass e₁) (hfailed : pass.failed = [])
    (hpart : (Amount.int pass.resumed.length).lt w.batchSize = true)
    (hnotify : pass.resumed.forM (w.notify r.handler) e₁ = .ok ⟨⟩ e₂) :
    (∃ e', w.wait { e₂ with clock := e₂.clock + r.lag } = .error f e') ↔ w.Strands r f := by
  have hsees {u : Moment} {e : Engine} :
      w.Sees r u e ↔ w.lookAhead { e₂ with clock := e₂.clock + r.lag } = .ok (some u) e := by
    constructor
    · rintro ⟨_, _, _, htick', -, -, hnotify', hlook⟩
      cases htick.symm.trans htick'
      cases hnotify.symm.trans hnotify'
      exact hlook
    · exact fun hlook => ⟨pass, e₁, e₂, htick, hfailed, hpart, hnotify, hlook⟩
  cases hinterval : w.interval with
  | error g =>
    have hwaits : ¬ w.Drains r := by
      rintro ⟨_, _, htick', -, hfull⟩
      cases htick.symm.trans htick'
      exact Bool.false_ne_true (hfull.symm.trans hpart)
    rw [strands_of_untold hinterval hwaits, wait, hinterval]
    constructor
    · rintro ⟨_, h⟩
      cases h
      rfl
    · rintro rfl
      exact ⟨_, rfl⟩
  | ok d =>
    rw [strands_of_told hinterval, wait_eq_error hinterval]
    simp only [hsees]

/-- A turn hands on what its tick returns, and cannot tell its delay just when the round strands it. -/
theorem turnLasting_in (w : Worker) (r : Round) :
    ∃ delay e', w.turnLasting r.handler r.lag r.engine =
        .ok ⟨w.after (w.ticked r), w.ticked r, delay⟩ e' ∧
      ∀ f, delay = .error f ↔ w.Strands r f := by
  cases htick : w.tick r.engine with
  | error g e₁ =>
    obtain ⟨journal, hturn⟩ := turnLasting_of_error r.handler r.lag htick
    have hnone : w.ticked r = [] := by rw [ticked, htick]
    rw [hnone]
    refine ⟨_, _, hturn, fun f => interval_strands ?_ ?_⟩
    · rintro ⟨_, _, htick', -⟩
      cases htick.symm.trans htick'
    · rintro u e ⟨_, _, _, htick', -⟩
      cases htick.symm.trans htick'
  | ok pass e₁ =>
    have hticked : w.ticked r = pass.resumed := by rw [ticked, htick]
    rw [hticked]
    by_cases hfailed : pass.failed = []
    · obtain ⟨e₂, delay, e', hnotify, hdelay, hturn⟩ := turnLasting_of_ok r.handler r.lag htick
      refine ⟨delay, e', hturn, fun f => ?_⟩
      rw [hfailed] at hdelay
      cases hpart : (Amount.int pass.resumed.length).lt w.batchSize with
      | false =>
        rw [hpart] at hdelay
        cases hdelay
        have hdrains : w.Drains r := ⟨pass, e₁, htick, hfailed, hpart⟩
        exact ⟨fun h => (nomatch h), fun h => absurd h (not_strands_of_drains hdrains)⟩
      | true =>
        rw [hpart] at hdelay
        rw [← wait_strands htick hfailed hpart hnotify]
        constructor
        · rintro rfl
          exact ⟨e', Action.error_of_attempt hdelay⟩
        · rintro ⟨e₃, hwait⟩
          cases (Action.attempt_of_error hwait).symm.trans hdelay
          rfl
    · obtain ⟨e', hturn⟩ := turnLasting_of_failed r.handler r.lag htick hfailed
      refine ⟨_, e', hturn, fun f => interval_strands ?_ ?_⟩
      · rintro ⟨_, _, htick', hnone, -⟩
        cases htick.symm.trans htick'
        exact hfailed hnone
      · rintro u e ⟨_, _, _, htick', hnone, -⟩
        cases htick.symm.trans htick'
        exact hfailed hnone

/-! ## The loop -/

/-- Where the loop of a worker ends: the worker, and the failure that has ended it before a shutdown. -/
structure LoopEnd where
  worker : Worker
  failure : Option Failure

/-- The loop of a worker that is asked to shut down after some rounds: turn after turn, unless a delay
cannot be told. -/
def loop (w : Worker) : List Round → LoopEnd
  | [] => ⟨w, none⟩
  | r :: rest =>
    match w.turnLasting r.handler r.lag r.engine with
    | .error f _ => ⟨w, some f⟩
    | .ok t _ =>
      match t.delay with
      | .error f => ⟨t.worker, some f⟩
      | .ok _ => loop t.worker rest

private theorem after_append (w : Worker) (cs ds : List Context) :
    (w.after cs).after ds = w.after (cs ++ ds) := by
  simp only [after, List.length_append, Nat.add_assoc]

/-- The loop of a worker ends before a shutdown just when a round strands the worker, in the first such
round and with what strands it there. Until its end it has counted what the ticks of its rounds have
returned. -/
theorem loop_ends (w : Worker) (rounds : List Round) :
    ((∀ r ∈ rounds, ∀ f, ¬ w.Strands r f) ∧
        w.loop rounds = ⟨w.after (rounds.flatMap w.ticked), none⟩) ∨
      ∃ before r rest f, rounds = before ++ r :: rest ∧ (∀ s ∈ before, ∀ f, ¬ w.Strands s f) ∧
        w.Strands r f ∧ w.loop rounds = ⟨w.after ((before ++ [r]).flatMap w.ticked), some f⟩ := by
  induction rounds generalizing w with
  | nil => exact .inl ⟨fun _ h => absurd h List.not_mem_nil, rfl⟩
  | cons r rest ih =>
    obtain ⟨delay, e', hturn, hstrands⟩ := turnLasting_in w r
    unfold loop
    rw [hturn]
    cases delay with
    | error f =>
      refine .inr ⟨[], r, rest, f, rfl, fun _ h => absurd h List.not_mem_nil, (hstrands f).mp rfl, ?_⟩
      simp
    | ok d =>
      have hgoes : ∀ f, ¬ w.Strands r f := fun f h => nomatch (hstrands f).mpr h
      dsimp only
      rcases ih (w.after (w.ticked r)) with ⟨hnone, hloop⟩ | ⟨before, s, rest', f, rfl, hnone, hs, hloop⟩
      · refine .inl ⟨List.forall_mem_cons.mpr ⟨hgoes, fun s hs f h => ?_⟩, ?_⟩
        · exact hnone s hs f ((strands_after _).mpr h)
        · rw [hloop, after_append]
          rfl
      · refine .inr ⟨r :: before, s, rest', f, rfl, List.forall_mem_cons.mpr ⟨hgoes, fun s hs f h => ?_⟩,
          (strands_after _).mp hs, ?_⟩
        · exact hnone s hs f ((strands_after _).mpr h)
        · rw [hloop, after_append]
          rfl

/-- A shutdown is not all that ends the loop. In the first case another client writes a wakeup time without a
zone between the tick and the look ahead; in the second the interval is an integer beyond every binary64
number, and a context waits for a time one second ahead. -/
theorem loop_ends_unasked :
    let waiting (t : Moment) : Store := .memory { Store.Memory.empty with contexts := [("a",
      ⟨some "a", .int 7, 1, none, .string "n", none, some t, none, .object [], 1, .utc 0, .utc 0, none⟩)] }
    let e := Engine.ofStore (waiting (.utc 1700000001000000)) ⟨.int 1, .int 0, .int 0, .int 1⟩ .null
      1700000000000000
    let written : Round :=
      ⟨{ e with others := [id, fun _ => waiting ⟨1700000001000000, none⟩] }, fun _ => pure (), 0⟩
    ((named "w").loop [written]).failure = some .zonesApart ∧
      ((named "w").withTickInterval (.int (10 ^ 400))).map (fun w =>
        (w.loop [⟨e, fun _ => pure (), 0⟩]).failure) = .ok (some (.tooLarge .double)) := by
  decide +kernel

end Worker
end DurableFlow
