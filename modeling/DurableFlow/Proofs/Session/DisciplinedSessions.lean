import DurableFlow.Proofs.Engine.DisciplinedOperations
import DurableFlow.Proofs.Session.Requests

/-! Sessions under a discipline. Whatever the clients request of a regular session, it stays regular,
and each request does to the store what the discipline allows it. -/
namespace DurableFlow.Session
open DurableFlow.Action (Ensures)
open Engine (Discipline Taken)
open Engine.Discipline (HeldUpholds Upholds)

variable {P : Discipline} {taken : Taken} {s : Session} {c : Context}

structure Regular (P : Discipline) (s : Session) : Prop where
  holds : P.Holds s.engine
  keeps : ∀ c ∈ s.copies, P.Keeps s.engine.store c

def attempted? (s : Session) : Request → Taken
  | .call (.through copy (.advance choice)) =>
    (s.copies[copy]?.bind Context.id).map fun id => (id, choice)
  | .deliver id choice _ => some (id, choice)
  | _ => none

def taken? (s : Session) (q : Request) : Taken :=
  if (q.perform s).1.isOk then s.attempted? q else none

/-- What a discipline asks of a request: that it starts flows that are known, with parents that are
allowed, and that what happens meanwhile is within the discipline. -/
def Permits (P : Discipline) (s : Session) : Request → Prop
  | .call (.start graph _ parent) => P.Knows graph ∧ P.Parents s.engine.store parent
  | .call (.meanwhile change _) => P.Holds s.engine → P.Holds (change s.engine)
  | _ => True

structure Answered (P : Discipline) (attempted : Taken) (s : Session) (r : Answer × Session) :
    Prop where
  regular : Regular P r.2
  grows : P.Grows (if r.1.isOk then attempted else none) s.engine.store r.2.engine.store
  fails : ∀ f, r.1 = .error f → P.Fails r.2.engine.store f

private theorem beside_answered (hs : Regular P s) {act : Run (List Context)}
    (h : P.Upholds taken act (fun cs e => ∀ c ∈ cs, P.Keeps e.store c) s.engine) :
    Answered P taken s (s.beside act) := by
  unfold Session.beside
  cases ho : act s.engine with
  | ok handed e =>
    obtain ⟨hstep, hhanded⟩ := Ensures.of_eq_ok h ho
    refine ⟨⟨hstep.holds, ?_⟩, hstep.grows, fun _ hf => by cases hf⟩
    intro c hc
    rcases List.mem_append.mp hc with hold | hnew
    · exact P.keeps hstep.grows (hs.keeps c hold)
    · exact hhanded c hnew
  | error f e =>
    obtain ⟨hstep, hfails⟩ := Ensures.of_eq_error h ho
    refine ⟨⟨hstep.holds, fun c hc => P.keeps hstep.grows (hs.keeps c hc)⟩, hstep.grows, ?_⟩
    rintro _ ⟨⟩
    exact hfails

private theorem one_upholds {act : Run Context} {e : Engine}
    (h : P.Upholds taken act (fun c e => P.Keeps e.store c) e) :
    P.Upholds taken (do return [← act]) (fun cs e => ∀ c ∈ cs, P.Keeps e.store c) e := by
  apply Ensures.bind
  refine Ensures.mono h ?_ (fun _ _ h => h)
  rintro c e' ⟨hstep, hc⟩
  refine Ensures.pure ⟨hstep, ?_⟩
  intro d hd
  rw [List.mem_singleton.mp hd]
  exact hc

/-! ## Uses of copies -/

private theorem nothing_handed {α : Type} {act : OnCopy α} {e : Engine}
    {post : α → Holding Engine Context → Prop} (h : P.HeldUpholds taken act post e c) :
    P.HeldUpholds taken (do let _ ← act; return []) (fun cs g => ∀ c ∈ cs, P.Keeps g.state.store c)
      e c := by
  apply Ensures.bind
  refine Ensures.mono h ?_ (fun _ _ h => h)
  rintro _ g ⟨ht, -⟩
  refine Ensures.pure ⟨ht, ?_⟩
  intro d hd
  cases hd

private theorem one_handed {act : OnCopy Context} {e : Engine}
    (h : P.Hands act e c) : P.HeldUpholds none (do return [← act])
      (fun cs g => ∀ c ∈ cs, P.Keeps g.state.store c) e c := by
  apply Ensures.bind
  refine Ensures.mono h ?_ (fun _ _ h => h)
  rintro d g ⟨ht, hd⟩
  refine Ensures.pure ⟨ht, ?_⟩
  intro d' hd'
  rw [List.mem_singleton.mp hd']
  exact hd

def Use.attempted? (c : Context) : Use → Taken
  | .advance choice => c.id.map fun id => (id, choice)
  | _ => none

private theorem use_upholds (he : P.Holds s.engine) (hc : P.Keeps s.engine.store c) (use : Use) :
    P.HeldUpholds (use.attempted? c) use.act (fun cs g => ∀ c ∈ cs, P.Keeps g.state.store c)
      s.engine c := by
  cases use with
  | bind => exact nothing_handed (Discipline.bind_upholds he hc)
  | advance choice =>
    obtain ⟨i, hid⟩ := P.named hc
    have hadvance := Discipline.advance_upholds he hc hid choice
    simp only [Use.attempted?, hid, Option.map_some]
    exact nothing_handed hadvance
  | suspend wakeup => exact nothing_handed (Discipline.suspend_rests wakeup _ _ he hc)
  | resume => exact nothing_handed (Discipline.resume_rests _ _ he hc)
  | complete => exact nothing_handed (Discipline.complete_rests _ _ he hc)
  | record values => exact nothing_handed (Discipline.record_rests values _ _ he hc)
  | enter flow wakeup => exact one_handed (Discipline.enterSubFlow_upholds he hc flow wakeup)
  | exit => exact one_handed (Discipline.exitSubFlow_upholds he hc)

private theorem through_answered (hs : Regular P s) (copy : Nat) (use : Use) :
    Answered P (s.attempted? (.call (.through copy use))) s (s.through copy use.act) := by
  cases hf : s.copies[copy]? with
  | none =>
    have hattempted : s.attempted? (.call (.through copy use)) = none := by
      cases use <;> simp [attempted?, hf]
    rw [through_of_none hf, hattempted]
    exact ⟨hs, by simpa using P.refl _, fun _ h => by cases h⟩
  | some c =>
    have hattempted : s.attempted? (.call (.through copy use)) = use.attempted? c := by
      cases use <;> simp [attempted?, Use.attempted?, hf]
    have hc := hs.keeps c (List.mem_of_getElem? hf)
    have huse := use_upholds hs.holds hc use
    have hset {t : Taken} {g : Holding Engine Context} (ht : P.Through t s.engine c g) (d : Context)
        (hd : d ∈ s.copies.set copy g.held) : P.Keeps g.state.store d := by
      rcases List.mem_or_eq_of_mem_set hd with hold | rfl
      · exact P.keeps ht.step.grows (hs.keeps d hold)
      · exact ht.keeps
    rw [hattempted]
    cases ho : use.act ⟨s.engine, c⟩ with
    | ok handed g =>
      obtain ⟨ht, hhanded⟩ := Ensures.of_eq_ok huse ho
      rw [through_of_ok hf ho]
      refine ⟨⟨ht.step.holds, ?_⟩, ht.step.grows, fun _ hf => by cases hf⟩
      intro d hd
      rcases List.mem_append.mp hd with hold | hnew
      · exact hset ht d hold
      · exact hhanded d hnew
    | error f g =>
      obtain ⟨ht, hfails⟩ := Ensures.of_eq_error huse ho
      rw [through_of_error hf ho]
      refine ⟨⟨ht.step.holds, hset ht⟩, ht.step.grows, ?_⟩
      rintro _ ⟨⟩
      exact hfails

/-! ## Requests -/

private theorem call_answered (hs : Regular P s) (call : Call) (hq : Permits P s (.call call)) :
    Answered P (s.attempted? (.call call)) s (call.perform s) := by
  have he := hs.holds
  cases call with
  | start graph contact parent =>
    exact beside_answered hs (one_upholds (Discipline.start_upholds he hq.1 contact hq.2))
  | load id =>
    exact beside_answered hs (one_upholds ((Discipline.load_upholds he id).mono fun _ _ _ h => h.1))
  | read id =>
    exact beside_answered hs
      (one_upholds ((Discipline.stored_upholds he id).mono fun _ _ _ h => h.1))
  | due now limit => exact beside_answered hs (Discipline.due_upholds he now limit)
  | children parent => exact beside_answered hs (Discipline.children_upholds he parent)
  | ofContact contact includeCompleted =>
    refine beside_answered hs ((Discipline.ask_upholds he _
      (Store.ofContact_plainly contact includeCompleted)).mono ?_)
    rintro cs e - ⟨hstore, hcs⟩ c hc
    rw [hstore]
    exact P.reads he ((P.ready he).sound.ofContact_copied hcs hc)
  | through copy use => exact through_answered hs copy use
  | tick time limit =>
    apply beside_answered hs
    refine (Discipline.tick_upholds he time limit).bind ?_
    intro pass e hstep hpass
    exact .pure hstep.holds hpass
  | meanwhile change quiet =>
    have hstore : (change s.engine).store = s.engine.store := (quiet _).store
    refine ⟨⟨hq he, ?_⟩, ?_, fun _ hf => by cases hf⟩
    · intro c hc
      change P.Keeps (change s.engine).store c
      rw [hstore]
      exact hs.keeps c hc
    · change P.Grows none s.engine.store (change s.engine).store
      rw [hstore]
      exact P.refl _

/-- Every request that a discipline permits keeps it, whatever its answer. -/
theorem perform_answered (hs : Regular P s) (q : Request) (hq : Permits P s q) :
    Answered P (s.attempted? q) s (q.perform s) := by
  have he := hs.holds
  cases q with
  | call c => exact call_answered hs c hq
  | startFlow flow contact =>
    exact beside_answered hs (one_upholds (Discipline.startFlow_upholds he flow contact))
  | deliver id choice results =>
    exact beside_answered hs (one_upholds (Discipline.deliver_upholds he id choice results))
  | cancel id cascade =>
    exact beside_answered hs (one_upholds (Discipline.cancel_upholds he id cascade))
  | suspendById id wakeup =>
    exact beside_answered hs (one_upholds (Discipline.suspendById_upholds he id wakeup))
  | enterById id flow wakeup =>
    exact beside_answered hs (one_upholds (Discipline.enterById_upholds he id flow wakeup))
  | exitById id => exact beside_answered hs (one_upholds (Discipline.exitById_upholds he id))

/-- A run of requests that are permitted in whatever session keeps the discipline. -/
theorem Regular.run (hs : Regular P s) (requests : List Request)
    (hq : ∀ q ∈ requests, ∀ t, Permits P t q) : Regular P (s.run requests) := by
  induction requests generalizing s with
  | nil => exact hs
  | cons q rest ih =>
    have hnext := (perform_answered hs q (hq q List.mem_cons_self s)).regular
    exact ih hnext fun q' hq' => hq q' (List.mem_cons_of_mem _ hq')

end DurableFlow.Session
