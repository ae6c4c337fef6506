import DurableFlow.Proofs.Engine.FamilyCancellation

/-! Sessions: one engine, and the copies of contexts that its clients have been handed. Nobody gives
a copy back, so any copy may be used at any time, however stale it is by then. -/
namespace DurableFlow

/-- An engine and the copies that are about. A client names a copy by its place. -/
structure Session where
  engine : Engine
  copies : List Context

namespace Session
open DurableFlow.Action (Ensures)
open Engine (Anything Moves Passed Quiet Unrecorded)
open Store (Acted Coherent Deed Evolves Fits)

abbrev Answer := Except Failure Unit

/-! ## Requests -/

inductive Use where
  | bind
  | advance (choice : Json)
  | suspend (wakeup : Option Moment)
  | resume
  | complete
  | record (values : List (String × Json))
  | enter (flow : Identifier) (wakeup : Option Moment)
  | exit

def Use.act : Use → OnCopy (List Context)
  | .bind => do let _ ← Engine.bind; return []
  | .advance choice => do Engine.advance choice; return []
  | .suspend wakeup => do Engine.suspend wakeup; return []
  | .resume => do Engine.resume; return []
  | .complete => do Engine.complete; return []
  | .record values => do Engine.record values; return []
  | .enter flow wakeup => do return [← Engine.enterSubFlow flow wakeup]
  | .exit => do return [← Engine.exitSubFlow]

/-- Calls of a context manager, of a scheduler and of the store's reads. Meanwhile anything may
happen that no context can tell: time passes, faults are planned, flows are compiled anew. A call of
several steps can also be made step by step, so that others come between: an exit is a completion,
a load of the parent and a resumption. -/
inductive Call where
  | start (graph : Flow.Graph) (contact : Json) (parent : Option String)
  | load (id : String)
  | read (id : String)
  | due (now : Option Moment) (limit : Json)
  | children (parent : Option String)
  | ofContact (contact : Json) (includeCompleted : Bool)
  | through (copy : Nat) (use : Use)
  | tick (time : Option Moment) (limit : Json)
  | meanwhile (change : Engine → Engine) (quiet : ∀ e, Quiet e (change e))

/-- Calls, and the operations of an engine that load copies of their own. -/
inductive Request where
  | call (call : Call)
  | startFlow (flow : Identifier) (contact : Json)
  | deliver (id : String) (choice results : Json)
  | cancel (id : String) (cascade : Bool)
  | suspendById (id : String) (wakeup : Option Moment)
  | enterById (id : String) (flow : Identifier) (wakeup : Option Moment)
  | exitById (id : String)

def beside (act : Run (List Context)) (s : Session) : Answer × Session :=
  match act s.engine with
  | .ok handed e => (.ok (), ⟨e, s.copies ++ handed⟩)
  | .error f e => (.error f, ⟨e, s.copies⟩)

def through (copy : Nat) (act : OnCopy (List Context)) (s : Session) : Answer × Session :=
  match s.copies[copy]? with
  | none => (.ok (), s)
  | some c =>
    match act ⟨s.engine, c⟩ with
    | .ok handed g => (.ok (), ⟨g.state, s.copies.set copy g.held ++ handed⟩)
    | .error f g => (.error f, ⟨g.state, s.copies.set copy g.held⟩)

def Call.perform : Call → Session → Answer × Session
  | .start graph contact parent => beside do return [← Engine.start graph contact parent]
  | .load id => beside do return [← Engine.load (some id)]
  | .read id => beside do return [← Engine.stored (some id)]
  | .due now limit => beside (Engine.due now limit)
  | .children parent => beside (Engine.ask .children (Store.children parent))
  | .ofContact contact includeCompleted =>
    beside (Engine.ask .ofContact (Store.ofContact contact includeCompleted))
  | .through copy use => Session.through copy use.act
  | .tick time limit => beside do return (← Engine.tick time limit).resumed
  | .meanwhile change _ => fun s => (.ok (), { s with engine := change s.engine })

def Request.perform : Request → Session → Answer × Session
  | .call c => c.perform
  | .startFlow flow contact => beside do return [← Engine.startFlow flow contact]
  | .deliver id choice results => beside do return [← Engine.deliver (some id) choice results]
  | .cancel id cascade => beside do return [← Engine.cancel (some id) cascade]
  | .suspendById id wakeup => beside do return [← Engine.suspendById (some id) wakeup]
  | .enterById id flow wakeup => beside do return [← Engine.enterById (some id) flow wakeup]
  | .exitById id => beside do return [← Engine.exitById (some id)]

def run (s : Session) (requests : List Request) : Session :=
  requests.foldl (fun s q => (q.perform s).2) s

/-- A session before anyone holds a copy, over a store without contexts. Whoever else writes to the
store does so by requests. -/
structure Fresh (s : Session) : Prop where
  vacant : s.engine.store.Vacant
  alone : s.engine.others = []
  unraced : s.engine.faults.racing = false
  unheld : s.copies = []

def inMemory : Session :=
  ⟨Engine.ofStore (.memory .empty) ⟨.int 1, .int 0, .int 0, .int 1⟩ (.int 100) 0, []⟩

theorem fresh_inMemory : inMemory.Fresh := ⟨rfl, rfl, rfl, rfl⟩

def oneNode : Flow.Graph :=
  ⟨some 1, none, none, none, .null, .message, none,
    ⟨[⟨.string "hello", [], [⟨.null, none⟩], none⟩]⟩, ⟨[], [], .null⟩, 0⟩

/-! ## What a request does to the rows -/

variable {D : Deed → Prop} {e : Engine} {c : Context} {s s' : Session}

def Use.Does : Use → Deed → Prop
  | .bind => fun _ => False
  | .advance _ => fun d => (∃ v, d = .move v) ∨ ∃ t, d = .finish t
  | .suspend wakeup => (· = .park wakeup)
  | .resume => (· = .park none)
  | .complete | .exit => fun d => ∃ t, d = .finish t
  | .record values => (· = .record values)
  | .enter _ _ => fun d => ∃ w, d = .park w

def Request.Does : Request → Deed → Prop
  | .call (.through _ use) => use.Does
  | .deliver .. => Anything
  | _ => Unrecorded

private theorem use_of_handles {α : Type} {act : OnCopy α} (h : Engine.Handles D e c act) :
    Ensures (do let _ ← act; return []) ⟨e, c⟩
      (fun handed g => Passed D e c g ∧ ∀ x ∈ handed, Fits g.state.store x)
      (fun _ g => Passed D e c g) := by
  apply Ensures.bind
  refine Ensures.mono h ?_ (fun _ _ hh => hh.passed)
  intro _ g hh
  refine Ensures.pure ⟨hh.passed, ?_⟩
  intro x hx
  cases hx

private theorem use_of_passed {act : OnCopy Context}
    (h : Ensures act ⟨e, c⟩ (fun x g => Passed D e c g ∧ Store.Current g.state.store x)
      (fun _ g => Passed D e c g)) :
    Ensures (do return [← act]) ⟨e, c⟩
      (fun handed g => Passed D e c g ∧ ∀ x ∈ handed, Fits g.state.store x)
      (fun _ g => Passed D e c g) := by
  apply Ensures.bind
  refine h.mono ?_ (fun _ _ hp => hp)
  rintro x g ⟨hp, hx⟩
  refine Ensures.pure ⟨hp, ?_⟩
  intro y hy
  rw [List.mem_singleton.mp hy]
  exact hx.fits

/-- A use does at most one deed through its copy, and hands out copies that fit their rows. -/
theorem use_ensures (he : e.Ready) (use : Use) : Ensures use.act ⟨e, c⟩
    (fun handed g => Passed use.Does e c g ∧ ∀ x ∈ handed, Fits g.state.store x)
    (fun _ g => Passed use.Does e c g) := by
  cases use with
  | bind => exact use_of_handles (.of_idles he Engine.bind_idles)
  | advance choice => exact use_of_handles (Engine.advance_handles he choice)
  | suspend wakeup => exact use_of_handles (Engine.suspend_handles he wakeup)
  | resume => exact use_of_handles (Engine.resume_handles he)
  | complete => exact use_of_handles (Engine.complete_handles he)
  | record values => exact use_of_handles (Engine.record_handles he values)
  | enter flow wakeup => exact use_of_passed (Engine.enterSubFlow_ensures he flow wakeup)
  | exit => exact use_of_passed (Engine.exitSubFlow_ensures he)

private def HandsOut (D : Deed → Prop) (e : Engine) (act : Run (List Context)) : Prop :=
  Ensures act e (fun handed e' => Moves D e e' ∧ ∀ c ∈ handed, Fits e'.store c)
    (fun _ e' => Moves D e e')

private theorem HandsOut.one {act : Run Context}
    (h : Ensures act e (fun c e' => Moves D e e' ∧ Fits e'.store c) (fun _ e' => Moves D e e')) :
    HandsOut D e (do return [← act]) := by
  apply Ensures.bind
  refine h.mono ?_ (fun _ _ hm => hm)
  rintro c e' ⟨hm, hc⟩
  refine Ensures.pure ⟨hm, ?_⟩
  intro x hx
  rw [List.mem_singleton.mp hx]
  exact hc

private theorem HandsOut.of_read {act : Run (List Context)} (he : e.Ready)
    (h : Ensures act e (fun cs e' => Quiet e e' ∧ ∀ c ∈ cs, Store.Copied e.store c)
      (fun _ e' => Quiet e e')) : HandsOut D e act := by
  refine h.mono ?_ (fun _ _ hq => .of_quiet he hq)
  rintro cs e' ⟨hq, hcs⟩
  refine ⟨.of_quiet he hq, ?_⟩
  intro c hc
  rw [hq.store]
  exact (hcs c hc).current.fits

private theorem ask_hands (he : e.Ready) (op : Operation) {f : Store → Except Failure (List Context)}
    (hf : ∀ cs, f e.store = .ok cs → ∀ c ∈ cs, Store.Copied e.store c) :
    HandsOut D e (Engine.ask op f) := by
  refine .of_read he ((Engine.ask_ensures op f he.alone).mono ?_ (fun _ _ hq => hq))
  rintro cs e' ⟨hq, hcs⟩
  exact ⟨hq, hf cs hcs⟩

private theorem HandsOut.moves {act : Run Context}
    (h : Ensures act e (fun c e' => e'.Ready ∧ Evolves D e.store e'.store ∧ Store.Current e'.store c)
      (fun _ e' => e'.Ready ∧ e'.store = e.store)) : HandsOut D e (do return [← act]) := by
  refine .one (h.mono ?_ ?_)
  · rintro c e' ⟨hr, hv, hc⟩
    exact ⟨⟨hr, hv⟩, hc.fits⟩
  · rintro _ e' ⟨hr, hs⟩
    exact ⟨hr, .of_eq hs⟩

/-! ## Steps of a session -/

/-- A step of a session: beside the copies, with deeds on open rows only, or through one of them. -/
inductive Stepped (D : Deed → Prop) (s s' : Session) : Prop where
  | beside {handed : List Context} (moves : Moves D s.engine s'.engine)
      (copies : s'.copies = s.copies ++ handed)
      (fits : ∀ c ∈ handed, Fits s'.engine.store c)
  | through {copy : Nat} {c c' : Context} {handed : List Context}
      (found : s.copies[copy]? = some c) (passed : Passed D s.engine c ⟨s'.engine, c'⟩)
      (copies : s'.copies = s.copies.set copy c' ++ handed)
      (fits : ∀ c ∈ handed, Fits s'.engine.store c)

private theorem beside_stepped {act : Run (List Context)} (h : HandsOut D s.engine act) :
    Stepped D s (s.beside act).2 := by
  unfold Session.beside
  cases ho : act s.engine with
  | ok handed e =>
    obtain ⟨hm, hc⟩ := h.of_eq_ok ho
    exact .beside hm rfl hc
  | error f e =>
    refine .beside (h.of_eq_error ho) (List.append_nil _).symm ?_
    intro c hc
    cases hc

section Through
variable {copy : Nat} {act : OnCopy (List Context)} {g : Holding Engine Context}

theorem through_of_none (hc : s.copies[copy]? = none) : s.through copy act = (.ok (), s) := by
  rw [Session.through, hc]

theorem through_of_ok {handed : List Context} (hc : s.copies[copy]? = some c)
    (ho : act ⟨s.engine, c⟩ = .ok handed g) :
    s.through copy act = (.ok (), ⟨g.state, s.copies.set copy g.held ++ handed⟩) := by
  simp only [Session.through, hc, ho]

theorem through_of_error {f : Failure} (hc : s.copies[copy]? = some c)
    (ho : act ⟨s.engine, c⟩ = .error f g) :
    s.through copy act = (.error f, ⟨g.state, s.copies.set copy g.held⟩) := by
  simp only [Session.through, hc, ho]

end Through

/-- A use of a copy that is there, whether it succeeds or fails. -/
theorem through_passed (he : s.engine.Ready) {copy : Nat} (hc : s.copies[copy]? = some c)
    (use : Use) : ∃ c' handed,
      Passed use.Does s.engine c ⟨(s.through copy use.act).2.engine, c'⟩ ∧
      (s.through copy use.act).2.copies = s.copies.set copy c' ++ handed ∧
      ∀ x ∈ handed, Fits (s.through copy use.act).2.engine.store x := by
  have h := use_ensures (c := c) he use
  cases ho : use.act ⟨s.engine, c⟩ with
  | ok handed g =>
    obtain ⟨hp, hfits⟩ := h.of_eq_ok ho
    rw [through_of_ok hc ho]
    exact ⟨g.held, handed, hp, rfl, hfits⟩
  | error f g =>
    rw [through_of_error hc ho]
    refine ⟨g.held, [], h.of_eq_error ho, (List.append_nil _).symm, ?_⟩
    intro x hx
    cases hx

private theorem through_stepped (he : s.engine.Ready) (copy : Nat) (use : Use) :
    Stepped use.Does s (s.through copy use.act).2 := by
  cases hf : s.copies[copy]? with
  | none =>
    rw [through_of_none hf]
    refine .beside (.refl he) (List.append_nil _).symm ?_
    intro c hc
    cases hc
  | some c =>
    obtain ⟨c', handed, hp, hcopies, hfits⟩ := through_passed he hf use
    exact .through hf hp hcopies hfits

private theorem call_stepped (he : s.engine.Ready) (call : Call) :
    Stepped (Request.call call).Does s (call.perform s).2 := by
  cases call with
  | start graph contact parent =>
    refine beside_stepped (.moves ((Engine.start_ensures he graph contact parent).mono ?_ ?_))
    · rintro c e' ⟨hr, hv, hc⟩
      exact ⟨hr, hv.mono fun _ hf => hf.elim, hc⟩
    · exact fun _ _ h => h
  | load id =>
    refine beside_stepped (.moves ((Engine.load_ensures he id).mono ?_ ?_))
    · rintro c e' ⟨hr, hs, hc, _⟩
      exact ⟨hr, .of_eq hs, hs.symm ▸ hc⟩
    · exact fun _ _ h => h
  | read id =>
    refine beside_stepped (.one ((Engine.stored_ensures he id).mono ?_ ?_))
    · rintro c e' ⟨hq, hc, _⟩
      exact ⟨.of_quiet he hq, hq.store ▸ hc.current.fits⟩
    · exact fun _ _ hq => .of_quiet he hq
  | due now limit =>
    refine beside_stepped (.of_read he ((Engine.due_ensures he now limit).mono ?_ ?_))
    · rintro cs e' ⟨hq, hcs⟩
      exact ⟨hq, fun c hc => (he.sound.due_copied hcs hc).1⟩
    · exact fun _ _ hq => hq
  | children parent =>
    exact beside_stepped (ask_hands he _ fun _ hcs _ hc => he.sound.children_copied hcs hc)
  | ofContact contact includeCompleted =>
    exact beside_stepped (ask_hands he _ fun _ hcs _ hc => he.sound.ofContact_copied hcs hc)
  | through copy use => exact through_stepped he copy use
  | tick time limit =>
    apply beside_stepped
    apply Ensures.bind
    refine (Engine.tick_ensures he time limit).mono ?_ (fun _ _ hm => hm)
    rintro pass e' ⟨hm, hc⟩
    exact Ensures.pure ⟨hm, hc⟩
  | meanwhile change quiet =>
    refine .beside (.of_quiet he (quiet _)) (List.append_nil _).symm ?_
    intro c hc
    cases hc

/-- Every request is a step, whatever its answer. -/
theorem perform_stepped (he : s.engine.Ready) (q : Request) : Stepped q.Does s (q.perform s).2 := by
  cases q with
  | call c => exact call_stepped he c
  | startFlow flow contact => exact beside_stepped (.one (Engine.startFlow_ensures he flow contact))
  | deliver id choice results =>
    exact beside_stepped (.one (Engine.deliver_ensures he id choice results))
  | cancel id cascade => exact beside_stepped (.one (Engine.cancel_ensures he id cascade))
  | suspendById id wakeup =>
    exact beside_stepped (.one (Engine.suspendById_ensures he id wakeup))
  | enterById id flow wakeup =>
    exact beside_stepped (.one (Engine.enterById_ensures he id flow wakeup))
  | exitById id => exact beside_stepped (.one (Engine.exitById_ensures he id))

/-! ## Sound sessions -/

/-- Every copy that may still be written through fits its row, and no completed row waits. -/
structure Sound (s : Session) : Prop where
  ready : s.engine.Ready
  coherent : ∀ c ∈ s.copies, Coherent s.engine.store c
  rested : s.engine.store.Rested

theorem Sound.coherent_unbound (hs : s.Sound) {copy : Nat} (hc : s.copies[copy]? = some c) :
    Coherent s.engine.store c.unbound :=
  fun ho => (hs.coherent c (List.mem_of_getElem? hc) ho).of_unbound rfl

theorem Sound.stepped (hs : s.Sound) (h : Stepped D s s') : s'.Sound := by
  cases h with
  | beside moves copies fits =>
    refine ⟨moves.ready, ?_, moves.evolves.rested hs.rested⟩
    intro c hc
    rw [copies] at hc
    rcases List.mem_append.mp hc with hold | hnew
    · exact moves.evolves.coherent (hs.coherent c hold)
    · exact (fits c hnew).coherent
  | @through copy c c' handed found passed copies fits =>
    obtain ⟨hr, m, ha, hv⟩ := passed
    have hun := hs.coherent_unbound found
    refine ⟨hr, ?_, hv.rested (ha.rested hun hs.rested)⟩
    intro x hx
    rw [copies] at hx
    rcases List.mem_append.mp hx with hset | hnew
    · rcases List.mem_or_eq_of_mem_set hset with hold | rfl
      · exact hv.coherent fun ho => ha.fits (hs.coherent x hold ho)
      · exact hv.coherent fun ho => (ha.coherent hun ho).of_unbound rfl
    · exact (fits x hnew).coherent

theorem Sound.perform (hs : s.Sound) (q : Request) : (q.perform s).2.Sound :=
  hs.stepped (perform_stepped hs.ready q)

theorem Sound.run (hs : s.Sound) (requests : List Request) : (s.run requests).Sound := by
  induction requests generalizing s with
  | nil => exact hs
  | cons q rest ih => exact ih (hs.perform q)

theorem Sound.kind_perform (hs : s.Sound) (q : Request) :
    (q.perform s).2.engine.store.kind = s.engine.store.kind := by
  cases perform_stepped hs.ready q with
  | beside moves _ _ => exact moves.evolves.kind
  | through _ passed _ _ =>
    obtain ⟨_, m, ha, hv⟩ := passed
    exact hv.kind.trans ha.kind

/-- Requests leave every copy behind its row, but never beside it. -/
theorem Sound.fits_perform (hs : s.Sound) (q : Request) (hc : Fits s.engine.store c) :
    Fits (q.perform s).2.engine.store c := by
  cases perform_stepped hs.ready q with
  | beside moves _ _ => exact moves.evolves.fits hc
  | through _ passed _ _ =>
    obtain ⟨_, m, ha, hv⟩ := passed
    exact hv.fits (ha.fits hc)

theorem Sound.fits_run (hs : s.Sound) (requests : List Request) (hc : Fits s.engine.store c) :
    Fits (s.run requests).engine.store c := by
  induction requests generalizing s with
  | nil => exact hc
  | cons q rest ih => exact ih (hs.perform q) (hs.fits_perform q hc)

theorem Fresh.sound (hs : s.Fresh) : s.Sound := by
  obtain ⟨hv, halone, hunraced, hunheld⟩ := hs
  have hnone (i : String) (r : Context) (hr : s.engine.store.row? i = some r) : False := by
    rw [hv.row?_eq_none i] at hr
    cases hr
  refine ⟨⟨halone, hunraced, hv.sound, fun i r hr => (hnone i r hr).elim⟩, ?_,
    fun i r hr => (hnone i r hr).elim⟩
  intro c hc
  rw [hunheld] at hc
  cases hc

end Session
end DurableFlow
