import DurableFlow.Proofs.Engine.TickSteps
import DurableFlow.Proofs.Session.Requests

/-! Ticks between which anything may happen. Any number of schedulers scan and wake in turns, and
other clients make requests between any two of their steps. -/
namespace DurableFlow
open DurableFlow.Action (Ensures)
open Engine (Pass Woken)
open Store (Acted Awaited Coherent Come Done Fits)

/-- A tick under way: its time, the contexts that it has yet to resume, and what it has done. -/
structure OpenTick where
  now : Moment
  queue : List Context
  pass : Pass

/-- A session with the ticks that have begun, also those that are over. -/
structure Shift where
  session : Session
  ticks : List OpenTick

/-- A turn: a request of any client, the scan with which a tick begins, or the next step of a tick
that has begun. A whole tick is a scan and all of its steps. -/
inductive ShiftTurn where
  | request (q : Session.Request)
  | scan (time : Option Moment) (limit : Json)
  | wake (tick : Nat)

namespace Shift

def store (s : Shift) : Store := s.session.engine.store

def scan (time : Option Moment) (limit : Json) (s : Shift) : Shift :=
  match Engine.scan time limit s.session.engine with
  | .ok found e => ⟨⟨e, s.session.copies⟩, s.ticks ++ [⟨found.1, found.2, ⟨[], []⟩⟩]⟩
  | .error _ e => ⟨⟨e, s.session.copies⟩, s.ticks⟩

/-- A tick goes on. A context that it resumes is handed out at once; a tick that fails is over. -/
def wake (n : Nat) (s : Shift) : Shift :=
  match s.ticks[n]? with
  | some ⟨now, c :: queue, pass⟩ =>
    match Engine.wake c pass s.session.engine with
    | .ok pass' e =>
      ⟨⟨e, s.session.copies ++ pass'.resumed.drop pass.resumed.length⟩,
        s.ticks.set n ⟨now, queue, pass'⟩⟩
    | .error _ e => ⟨⟨e, s.session.copies⟩, s.ticks.set n ⟨now, [], pass⟩⟩
  | _ => s

end Shift

namespace ShiftTurn

def perform : ShiftTurn → Shift → Shift
  | .request q, s => { s with session := (q.perform s.session).2 }
  | .scan time limit, s => s.scan time limit
  | .wake n, s => s.wake n

def IsShown : ShiftTurn → Prop
  | .scan (some t) _ => t.IsShown
  | _ => True

end ShiftTurn

namespace Shift

def run (s : Shift) (turns : List ShiftTurn) : Shift := turns.foldl (fun s turn => turn.perform s) s

theorem run_append (s : Shift) (before after : List ShiftTurn) :
    s.run (before ++ after) = (s.run before).run after := List.foldl_append

def resumed (s : Shift) : List Context := s.ticks.flatMap fun tick => tick.pass.resumed

/-! ## Sound shifts -/

/-- What a tick has yet to resume fits its row and is due; what ticks have resumed fits its row, and
nothing has been resumed twice from one version. -/
structure Sound (s : Shift) : Prop where
  session : s.session.Sound
  queued : ∀ tick ∈ s.ticks, ∀ c ∈ tick.queue, Fits s.store c ∧ Awaited s.store.kind tick.now c
  resumed : ∀ c ∈ s.resumed, Fits s.store c
  once : (s.resumed.map fun c => (c.id, c.version)).Nodup

variable {s s' : Shift} {c c' : Context} {n : Nat} {queue : List Context} {pass pass' : Pass}
  {now : Moment}

private theorem Sound.request (hs : s.Sound) (q : Session.Request) :
    ((ShiftTurn.request q).perform s).Sound := by
  refine ⟨hs.session.perform q, ?_, ?_, hs.once⟩
  · intro tick htick c hc
    obtain ⟨hf, hcome⟩ := hs.queued tick htick c hc
    exact ⟨hs.session.fits_perform q hf, (hs.session.kind_perform q).symm ▸ hcome⟩
  · intro c hc
    exact hs.session.fits_perform q (hs.resumed c hc)

private theorem Sound.quiet (hs : s.Sound) {e : Engine} (hr : e.Ready) (he : e.store = s.store)
    {ticks : List OpenTick}
    (hqueued : ∀ tick ∈ ticks, ∀ c ∈ tick.queue,
      Fits s.store c ∧ Awaited s.store.kind tick.now c)
    (hresumed : (ticks.flatMap fun tick => tick.pass.resumed).Perm s.resumed) :
    Shift.Sound ⟨⟨e, s.session.copies⟩, ticks⟩ := by
  obtain ⟨_, hcoherent, hrested⟩ := hs.session
  refine ⟨⟨hr, fun c hc => he.symm ▸ hcoherent c hc, he.symm ▸ hrested⟩, ?_, ?_, ?_⟩
  · intro tick htick c hc
    change Fits e.store c ∧ Awaited e.store.kind _ _
    rw [he]
    exact hqueued tick htick c hc
  · intro c hc
    change Fits e.store c
    rw [he]
    exact hs.resumed c (hresumed.mem_iff.mp hc)
  · exact (hresumed.map fun c => (c.id, c.version)).nodup_iff.mpr hs.once

private theorem Sound.scan (hs : s.Sound) {time : Option Moment} {limit : Json}
    (hd : (ShiftTurn.scan time limit).IsShown) : (s.scan time limit).Sound := by
  have htime (t : Moment) (h : time = some t) : t.IsShown := by
    subst h
    exact hd
  have hscan := Engine.scan_ensures hs.session.ready htime limit
  unfold Shift.scan
  cases ho : Engine.scan time limit s.session.engine with
  | ok found e =>
    obtain ⟨hq, hfound⟩ := hscan.of_eq_ok ho
    refine hs.quiet (hs.session.ready.quiet hq) hq.store ?_ (.of_eq (by simp [Shift.resumed]))
    intro tick htick c hc
    rcases List.mem_append.mp htick with hold | hnew
    · exact hs.queued tick hold c hc
    · rw [List.mem_singleton.mp hnew] at hc ⊢
      obtain ⟨hcopied, _, hcome⟩ := hfound c hc
      exact ⟨hcopied.current.fits, hcopied.awaited hcome⟩
  | error f e =>
    have hq := hscan.of_eq_error ho
    exact hs.quiet (hs.session.ready.quiet hq) hq.store hs.queued (.refl _)

/-! ## Steps of ticks -/

private theorem flatMap_set {ticks : List OpenTick} {tick tick' : OpenTick} {added : List Context}
    (hn : ticks[n]? = some tick) (h : tick'.pass.resumed = tick.pass.resumed ++ added) :
    ((ticks.set n tick').flatMap fun tick => tick.pass.resumed).Perm
      (added ++ ticks.flatMap fun tick => tick.pass.resumed) := by
  induction ticks generalizing n with
  | nil => cases hn
  | cons x rest ih =>
    cases n with
    | zero =>
      cases hn
      simp only [List.set_cons_zero, List.flatMap_cons, h, List.append_assoc]
      exact List.perm_append_comm_assoc _ _ _
    | succ n =>
      simp only [List.set_cons_succ, List.flatMap_cons]
      exact ((ih hn).append_left _).trans (List.perm_append_comm_assoc _ _ _)

private inductive WakesNext (n : Nat) (s : Shift) : Shift → Prop where
  | idle : WakesNext n s s
  | passed {now : Moment} {c : Context} {queue queue' : List Context} {pass pass' : Pass} {e : Engine}
      (found : s.ticks[n]? = some ⟨now, c :: queue, pass⟩) (ready : e.Ready)
      (store : e.store = s.store) (kept : ∀ d ∈ queue', d ∈ queue)
      (listed : pass'.resumed = pass.resumed) :
      WakesNext n s ⟨⟨e, s.session.copies⟩, s.ticks.set n ⟨now, queue', pass'⟩⟩
  | resumed {now : Moment} {c c' : Context} {queue : List Context} {pass pass' : Pass} {e : Engine}
      (found : s.ticks[n]? = some ⟨now, c :: queue, pass⟩) (ready : e.Ready)
      (done : Done (.park none) s.store c.unbound e.store c'.unbound)
      (listed : pass'.resumed = pass.resumed ++ [c']) :
      WakesNext n s ⟨⟨e, s.session.copies ++ [c']⟩, s.ticks.set n ⟨now, queue, pass'⟩⟩

private theorem wake_wakes (he : s.session.engine.Ready) (n : Nat) : WakesNext n s (s.wake n) := by
  unfold Shift.wake
  split
  · rename_i now c queue pass hn
    have hwake := Engine.wake_resumes he c pass
    cases ho : Engine.wake c pass s.session.engine with
    | ok pass' e =>
      obtain ⟨hr, hw⟩ := hwake.of_eq_ok ho
      cases hw with
      | resumed c' listed done =>
        simp only [listed, List.drop_left]
        exact .resumed hn hr done listed
      | passed listed store =>
        simp only [listed, List.drop_length, List.append_nil]
        exact .passed hn hr store (fun _ hd => hd) listed
    | error f e =>
      obtain ⟨hr, hstore⟩ := hwake.of_eq_error ho
      refine .passed hn hr hstore ?_ rfl
      intro d hd
      cases hd
  · exact .idle

private theorem Sound.queued_set (hs : s.Sound) {now : Moment} {c : Context}
    {queue queue' : List Context} {pass pass' : Pass}
    (found : s.ticks[n]? = some ⟨now, c :: queue, pass⟩) (kept : ∀ d ∈ queue', d ∈ queue)
    (tick : OpenTick) (htick : tick ∈ s.ticks.set n ⟨now, queue', pass'⟩) (d : Context)
    (hd : d ∈ tick.queue) : Fits s.store d ∧ Awaited s.store.kind tick.now d := by
  rcases List.mem_or_eq_of_mem_set htick with hold | rfl
  · exact hs.queued tick hold d hd
  · exact hs.queued _ (List.mem_of_getElem? found) d (List.mem_cons_of_mem _ (kept d hd))

/-- What a tick resumes: a context whose row waits right before, for a time that has come, and no
longer right after. -/
def Resumes (now : Moment) (c : Context) (s s' : Shift) : Prop :=
  ∃ i r r', c.id = some i ∧ s.store.row? i = some r ∧ s'.store.row? i = some r' ∧
    (r.completed = none ∧ Come now r) ∧ c.version = r.version + 1 ∧
    (r'.version = c.version ∧ r'.wakeup = none)

private theorem Sound.of_wakes (hs : s.Sound) (h : WakesNext n s s') : s'.Sound := by
  cases h with
  | idle => exact hs
  | @passed now c queue queue' pass pass' e found ready store kept listed =>
    have hperm : ((s.ticks.set n ⟨now, queue', pass'⟩).flatMap fun tick => tick.pass.resumed).Perm
        ([] ++ s.resumed) := flatMap_set found (listed.trans (List.append_nil _).symm)
    exact hs.quiet ready store (hs.queued_set found kept) hperm
  | @resumed now c c' queue pass pass' e found ready done listed =>
    obtain ⟨hf, hcome⟩ := hs.queued _ (List.mem_of_getElem? found) c List.mem_cons_self
    obtain ⟨i, r, r', hid, hr, hr', _, hversion, _, hfits⟩ := Engine.resumes_of_done done hf hcome
    have hperm : ((s.ticks.set n ⟨now, queue, pass'⟩).flatMap fun tick => tick.pass.resumed).Perm
        ([c'] ++ s.resumed) := flatMap_set found listed
    have hcoherent : Coherent s.store c.unbound := fun _ => hf.of_unbound rfl
    have hacted : Acted (· = .park none) s.store c.unbound e.store c'.unbound :=
      .inr ⟨_, rfl, done⟩
    refine ⟨⟨ready, ?_, hacted.rested hcoherent hs.session.rested⟩, ?_, ?_, ?_⟩
    · intro d hd
      rcases List.mem_append.mp hd with hold | hnew
      · exact fun ho => done.fits (hs.session.coherent d hold ho)
      · rw [List.mem_singleton.mp hnew]
        exact fun _ => hfits
    · intro tick htick d hd
      obtain ⟨hfd, hcd⟩ := hs.queued_set found (fun _ hq => hq) tick htick d hd
      exact ⟨done.fits hfd, done.kind.symm ▸ hcd⟩
    · intro d hd
      rcases List.mem_append.mp (hperm.mem_iff.mp hd) with hnew | hold
      · rw [List.mem_singleton.mp hnew]
        exact hfits
      · exact done.fits (hs.resumed d hold)
    · refine (hperm.map fun c => (c.id, c.version)).nodup_iff.mpr ?_
      refine List.nodup_cons.mpr ⟨?_, hs.once⟩
      -- What has been resumed before is not ahead of the row, and the row goes on by one.
      intro hm
      obtain ⟨d, hd, he⟩ := List.mem_map.mp hm
      obtain ⟨hdid, hdversion⟩ := Prod.mk.inj he
      obtain ⟨hle, _⟩ := (hs.resumed d hd).row (hdid.trans hid) hr
      omega

private theorem Sound.turn (hs : s.Sound) {turn : ShiftTurn} (hd : turn.IsShown) :
    (turn.perform s).Sound := by
  cases turn with
  | request q => exact hs.request q
  | scan time limit => exact hs.scan hd
  | wake n => exact hs.of_wakes (wake_wakes hs.session.ready n)

theorem Sound.run (hs : s.Sound) {turns : List ShiftTurn} (hd : ∀ turn ∈ turns, turn.IsShown) :
    (s.run turns).Sound := by
  induction turns generalizing s with
  | nil => exact hs
  | cons turn rest ih =>
    exact ih (hs.turn (hd turn List.mem_cons_self)) fun t ht => hd t (List.mem_cons_of_mem _ ht)

private theorem resumed_of_wakes (hs : s.Sound) (h : WakesNext n s s') {m : Nat} {tick : OpenTick}
    (hm : s'.ticks[m]? = some tick) (hc : c ∈ tick.pass.resumed) :
    (∃ tick', s.ticks[m]? = some tick' ∧ tick'.now = tick.now ∧ c ∈ tick'.pass.resumed) ∨
      m = n ∧ Resumes tick.now c s s' := by
  cases h with
  | idle => exact .inl ⟨tick, hm, rfl, hc⟩
  | passed found ready store kept listed =>
    left
    by_cases hmn : m = n
    · subst hmn
      rw [List.getElem?_set_self (List.getElem?_eq_some_iff.mp found).1] at hm
      cases hm
      exact ⟨_, found, rfl, listed ▸ hc⟩
    · rw [List.getElem?_set_ne (Ne.symm hmn)] at hm
      exact ⟨tick, hm, rfl, hc⟩
  | @resumed now d c' queue pass pass' e found ready done listed =>
    by_cases hmn : m = n
    · subst hmn
      rw [List.getElem?_set_self (List.getElem?_eq_some_iff.mp found).1] at hm
      cases hm
      rcases List.mem_append.mp (listed ▸ hc) with hold | hnew
      · exact .inl ⟨_, found, rfl, hold⟩
      · obtain ⟨hf, hcome⟩ := hs.queued _ (List.mem_of_getElem? found) d List.mem_cons_self
        obtain ⟨i, r, r', hid, hr, hr', hwaits, hversion, hafter, _⟩ :=
          Engine.resumes_of_done done hf hcome
        rw [List.mem_singleton.mp hnew]
        exact .inr ⟨rfl, i, r, r', hid, hr, hr', hwaits, hversion, hafter⟩
    · rw [List.getElem?_set_ne (Ne.symm hmn)] at hm
      exact .inl ⟨tick, hm, rfl, hc⟩

private theorem resumed_of_scan {time : Option Moment} {limit : Json} {m : Nat} {tick : OpenTick}
    (hm : (s.scan time limit).ticks[m]? = some tick) (hc : c ∈ tick.pass.resumed) :
    s.ticks[m]? = some tick := by
  unfold Shift.scan at hm
  split at hm
  · rw [List.getElem?_append] at hm
    split at hm
    · exact hm
    · rename_i found e _ hlt
      have hnew := List.mem_of_getElem? hm
      rw [List.mem_singleton.mp hnew] at hc
      cases hc
  · exact hm

private theorem resumed_of_run (hs : s.Sound) {turns : List ShiftTurn}
    (hd : ∀ turn ∈ turns, turn.IsShown) {m : Nat} {tick : OpenTick}
    (hm : (s.run turns).ticks[m]? = some tick) (hc : c ∈ tick.pass.resumed)
    (hnone : ∀ tick ∈ s.ticks, tick.pass.resumed = []) :
    ∃ before after, turns = before ++ .wake m :: after ∧
      Resumes tick.now c (s.run before) ((s.run before).wake m) := by
  induction turns using List.reverseRecOn generalizing tick with
  | nil =>
    rw [hnone tick (List.mem_of_getElem? hm)] at hc
    cases hc
  | append_singleton turns turn ih =>
    have hshown (t : ShiftTurn) (ht : t ∈ turns) : t.IsShown := hd t (List.mem_append_left _ ht)
    have hsound : (s.run turns).Sound := hs.run hshown
    have hearlier {tick' : OpenTick} (h : (s.run turns).ticks[m]? = some tick')
        (hnow : tick'.now = tick.now) (hc' : c ∈ tick'.pass.resumed) :
        ∃ before after, turns ++ [turn] = before ++ .wake m :: after ∧
          Resumes tick.now c (s.run before) ((s.run before).wake m) := by
      obtain ⟨before, after, rfl, hresumes⟩ := ih hshown h hc'
      exact ⟨before, after ++ [turn], by simp, hnow ▸ hresumes⟩
    rw [run_append] at hm
    cases turn with
    | request q => exact hearlier hm rfl hc
    | scan time limit => exact hearlier (resumed_of_scan hm hc) rfl hc
    | wake n =>
      obtain ⟨tick', h, hnow, hc'⟩ | ⟨rfl, hresumes⟩ :=
        resumed_of_wakes hsound (wake_wakes hsound.session.ready n) hm hc
      · exact hearlier h hnow hc'
      · exact ⟨turns, [], rfl, hresumes⟩

/-- Over every run of turns, with any requests of others between the steps of any number of ticks:
a context that a tick has resumed was suspended and not completed right before the step that resumed
it, waiting for a time that was not later than that of the tick; and no two resumptions, of one tick
or of two, are of the same context at the same version. -/
theorem resumed_due_once {session : Session} (hs : session.Fresh) {turns : List ShiftTurn}
    (hd : ∀ turn ∈ turns, turn.IsShown) :
    let shift := run ⟨session, []⟩ turns
    (∀ m tick c, shift.ticks[m]? = some tick → c ∈ tick.pass.resumed →
      ∃ before after i r r', turns = before ++ .wake m :: after ∧ c.id = some i ∧
        (run ⟨session, []⟩ before).store.row? i = some r ∧
        (run ⟨session, []⟩ (before ++ [.wake m])).store.row? i = some r' ∧
        r.isSuspended = true ∧ r.completed = none ∧
        (∃ w, r.wakeup = some w ∧ tick.now.isBefore w = false) ∧
        r'.wakeup = none ∧ r'.version = r.version + 1 ∧ c.version = r.version + 1) ∧
    (shift.resumed.map fun c => (c.id, c.version)).Nodup := by
  intro shift
  have hstart : Shift.Sound ⟨session, []⟩ := by
    refine ⟨hs.sound, ?_, ?_, List.nodup_nil⟩
    · intro tick htick
      cases htick
    · intro c hc
      cases hc
  refine ⟨?_, (hstart.run hd).once⟩
  intro m tick c hm hc
  obtain ⟨before, after, hturns, i, r, r', hid, hr, hr', ⟨ho, w, hw, hle⟩, hversion, hv, hnone⟩ :=
    resumed_of_run hstart hd hm hc (fun tick htick => by cases htick)
  refine ⟨before, after, i, r, r', hturns, hid, hr, ?_, ?_, ho, ⟨w, hw, hle⟩, hnone,
    hv.trans hversion, hversion⟩
  · rw [run_append]
    exact hr'
  · simp [Context.isSuspended, Context.status, ho, hw]

/-- Two ticks scan one suspended context. The first to wake it resumes it, the other comes too
late. -/
theorem resumed_due_once_rivals :
    let t := Moment.utc 0
    let turns : List ShiftTurn := [.request (.call (.start Session.oneNode (.int 7) none)),
      .request (.call (.through 0 (.suspend (some t)))), .scan (some t) .null, .scan none .null,
      .wake 1, .wake 0]
    let shift := run ⟨Session.inMemory, []⟩ turns
    (Session.inMemory.Fresh ∧ ∀ turn ∈ turns, turn.IsShown) ∧
      (shift.ticks.map fun tick => tick.pass.resumed.map Context.version) = [[], [3]] ∧
      (shift.resumed.map fun c => (c.id, c.version)).Nodup ∧
      ∀ tick c, shift.ticks[1]? = some tick → c ∈ tick.pass.resumed →
        ∃ r : Context, r.isSuspended = true ∧ c.version = r.version + 1 := by
  intro t turns shift
  have ht : t.IsShown := by decide
  have hd : ∀ turn ∈ turns, turn.IsShown := by
    simp only [turns, List.forall_mem_cons, ShiftTurn.IsShown, true_and]
    exact ⟨ht, fun turn hturn => by cases hturn⟩
  obtain ⟨hdue, honce⟩ := resumed_due_once Session.fresh_inMemory hd
  refine ⟨⟨Session.fresh_inMemory, hd⟩, by decide +kernel, honce, ?_⟩
  intro tick c hm hc
  obtain ⟨_, _, _, r, _, _, _, _, _, hsuspended, _, _, _, _, hversion⟩ := hdue 1 tick c hm hc
  exact ⟨r, hsuspended, hversion⟩

end Shift
end DurableFlow
