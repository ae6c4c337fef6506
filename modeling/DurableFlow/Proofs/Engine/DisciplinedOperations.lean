import DurableFlow.Engine.Cancel
import DurableFlow.Proofs.Engine.Disciplines
import DurableFlow.Proofs.Engine.TickSteps

/-! Every operation of an engine upholds every discipline. The operations read copies of their own,
which are kept, and put the transitions together; only inputs advance a context. -/
namespace DurableFlow.Engine
open DurableFlow.Action (Ensures)
open Store (Copied)

namespace Discipline
variable {α β : Type} {P : Discipline} {taken : Taken} {e e' : Engine} {c : Context}
  {g : Holding Engine Context}

/-! ## Starting and loading -/

/-- A context is started on a flow that is known. -/
theorem start_upholds (he : P.Holds e) {graph : Flow.Graph} (hg : P.Knows graph) (contact : Json)
    {parent : Option String} (hp : P.Parents e.store parent) :
    P.Upholds none (start graph contact parent) (fun c e' => P.Keeps e'.store c) e := by
  unfold start
  split
  · exact .throw he (P.fails_of_plain rfl)
  · rename_i entry hentry
    refine (Upholds.quietly he instant_spares instant_yields.quietly).bind ?_
    intro time e₁ hs₁ hstore
    have hinsert (c : Context) (hid : c.id = none) (hflow : c.flow = graph.id.getD 0)
        (hnode : c.node = entry.uuid) (hparent : c.parent = parent) (ho : c.completed = none)
        (hindex : c.index = some graph.index) : P.Upholds none (Action.holding c insert)
          (fun p e' => P.Keeps e'.store p.2) e₁ := by
      refine Ensures.mono (Ensures.and (insert_ensures (P.ready hs₁.holds) hid)
        (insert_spares c e₁)) ?_ ?_
      · rintro ⟨_, d⟩ e₂ ⟨⟨hr, i, stamp, hnone, hfiled, hd⟩, hsp⟩
        dsimp only at hfiled hd
        have hstarted : Started graph parent e₁ d e₂ := by
          have hid' : d.id = some i := by simp [hd, Context.stamped, Context.named, hid]
          rw [hd] at hfiled hid' ⊢
          exact ⟨hr, hsp.registry, hsp.flows (P.ready hs₁.holds).alone, ⟨i, hid', hnone, hfiled⟩,
            hflow, ⟨entry, hentry, hnode⟩, hparent, ho, hindex⟩
        obtain ⟨hh, hgrows, hk⟩ := P.files hs₁.holds hg (hstore ▸ hp) hstarted
        exact ⟨⟨hh, hgrows⟩, hk⟩
      · rintro f e₂ ⟨⟨hr, hs⟩, hsp, hf⟩
        exact ⟨.of_eq hs₁.holds hr hs hsp.registry, P.fails_of_plain hf⟩
    refine (hinsert _ rfl rfl rfl rfl rfl rfl).bind ?_
    rintro ⟨_, d⟩ e₂ hs₂ hd
    refine (note_upholds hs₂.holds _ _).bind ?_
    intro _ e₃ hs₃ hstore₃
    exact .pure hs₃.holds (hstore₃ ▸ hd)

/-- What is read is kept. -/
theorem stored_upholds (he : P.Holds e) (i : String) :
    P.Upholds none (stored (some i)) (fun c e' => P.Keeps e'.store c ∧ c.id = some i) e := by
  refine (ask_upholds he .getContext (Store.getContext_plainly (some i))).bind ?_
  rintro found e' hs ⟨hstore, hfound⟩
  cases found with
  | none => exact .throw hs.holds (P.fails_of_plain rfl)
  | some c =>
    obtain ⟨hcopied, hid⟩ := (P.ready he).sound.getContext_copied hfound
    refine .pure hs.holds ⟨?_, hid⟩
    rw [hstore]
    exact P.reads he hcopied

theorem load_upholds (he : P.Holds e) (i : String) :
    P.Upholds none (load (some i)) (fun c e' => P.Keeps e'.store c ∧ c.id = some i) e := by
  refine (stored_upholds he i).bind ?_
  rintro c e₁ hs ⟨hc, hid⟩
  have hbind : P.Upholds none (Action.holding c bind)
      (fun p e' => P.Keeps e'.store p.2 ∧ p.2.id = some i) e₁ :=
    .holding ((bind_upholds hs.holds hc).mono fun _ _ ht _ => ⟨ht.keeps, ht.id.trans hid⟩)
  refine hbind.bind ?_
  rintro ⟨_, d⟩ e₂ hs₂ hd
  exact .pure hs₂.holds hd

/-! ## Sub-flows -/

abbrev Hands (P : Discipline) (act : OnCopy Context) (e : Engine) (c : Context) : Prop :=
  P.HeldUpholds none act (fun d g => P.Keeps g.state.store d) e c

private theorem remark_return {d : Context} (he : P.Holds e) (hc : P.Keeps e.store c)
    (hd : P.Keeps e.store d) (level : Level) (text : String) :
    P.Hands (do remark level text; return d) e c := by
  refine (remark_upholds he hc level text).bind ?_
  rintro _ g ht ⟨hstore, -⟩
  exact .pure ht.step.holds ht.keeps (hstore ▸ hd)

theorem enterSubFlow_upholds (he : P.Holds e) (hc : P.Keeps e.store c) (flow : Identifier)
    (wakeup : Option Moment) : P.Hands (enterSubFlow flow wakeup) e c := by
  refine requireOpen_bind he hc fun _ => ?_
  refine (HeldUpholds.beside hc (fetch_upholds he flow)).bind ?_
  rintro found ⟨e₁, _⟩ ⟨⟨he₁, _⟩, hc₁, -⟩ ⟨⟨-, hfound⟩, rfl⟩
  have hrest (e : Engine) (c : Context) (he : P.Holds e) (hc : P.Keeps e.store c) :
      P.Hands (do
        let parent ← Action.held
        let child ← Action.beside (start found.graph parent.contact parent.id)
        remark .debug ("Context " ++ plainText? parent.id ++ " entered sub-flow " ++
          plainInt? found.graph.id ++ ": child=" ++ plainText? child.id)
        return child) e c := by
    apply HeldUpholds.held_bind
    refine (HeldUpholds.beside hc
      (start_upholds he (P.knows hfound) c.contact (P.parent hc))).bind ?_
    rintro child ⟨e₂, _⟩ ⟨⟨he₂, _⟩, hc₂, -⟩ ⟨hchild, rfl⟩
    exact remark_return he₂ hc₂ hchild _ _
  dsimp only
  split
  · exact .throw he₁ hc₁ (P.fails_of_plain rfl)
  · split
    · refine (suspend_rests wakeup e₁ _ he₁ hc₁).bind ?_
      rintro _ g ht -
      exact hrest g.state g.held ht.step.holds ht.keeps
    · exact hrest e₁ _ he₁ hc₁

theorem exitSubFlow_upholds (he : P.Holds e) (hc : P.Keeps e.store c) :
    P.Hands exitSubFlow e c := by
  apply HeldUpholds.held_bind
  split
  · exact .throw he hc (P.fails_of_plain rfl)
  · rename_i parentId _
    have hleave (e : Engine) (c : Context) (he : P.Holds e) (hc : P.Keeps e.store c)
        (text : Context → String) : P.Hands (do
          let parent ← Action.beside (load (some parentId))
          let parent ← if parent.isSuspended then
              Action.beside do return (← Action.holding parent resume).2
            else pure parent
          remark .debug (text parent)
          return parent) e c := by
      refine (HeldUpholds.beside hc (load_upholds he parentId)).bind ?_
      rintro parent ⟨e₁, _⟩ ⟨⟨he₁, _⟩, hc₁, -⟩ ⟨⟨hparent, -⟩, rfl⟩
      dsimp only
      split
      · have hresume : P.Upholds none (do return (← Action.holding parent resume).2)
            (fun p e' => P.Keeps e'.store p) e₁ := by
          have hheld : P.Upholds none (Action.holding parent resume)
              (fun p e' => P.Keeps e'.store p.2) e₁ :=
            .holding ((resume_rests e₁ parent he₁ hparent).mono fun _ _ ht _ => ht.keeps)
          refine hheld.bind ?_
          intro p e₂ hs₂ hp
          exact .pure hs₂.holds hp
        refine (HeldUpholds.beside hc₁ hresume).bind ?_
        rintro p ⟨e₂, _⟩ ⟨⟨he₂, _⟩, hc₂, -⟩ ⟨hp, rfl⟩
        exact remark_return he₂ hc₂ hp _ _
      · exact remark_return he₁ hc₁ hparent _ _
    dsimp only
    split
    · refine (remark_rests _ _ e c he hc).bind ?_
      rintro _ g ht -
      refine (complete_rests g.state g.held ht.step.holds ht.keeps).bind ?_
      rintro _ g₁ ht₁ -
      exact hleave g₁.state g₁.held ht₁.step.holds ht₁.keeps _
    · exact hleave e c he hc _

/-! ## Ticks -/

theorem due_upholds (he : P.Holds e) (now : Option Moment) (limit : Json) :
    P.Upholds none (due now limit) (fun cs e' => ∀ c ∈ cs, P.Keeps e'.store c) e := by
  refine (ask_upholds he .due (Store.due_plainly now limit)).bind ?_
  rintro cs e₁ hs ⟨hstore, hcs⟩
  have hkept : ∀ c ∈ cs, P.Keeps e₁.store c := by
    intro c hc
    rw [hstore]
    exact P.reads he ((P.ready he).sound.due_copied hcs hc).1
  apply Ensures.bind
  apply Ensures.get
  simp only [(P.ready hs.holds).unraced, Bool.false_eq_true, if_false]
  exact Upholds.pure hs.holds hkept

private theorem wake_upholds (he : P.Holds e) (hc : P.Keeps e.store c) (pass : Pass)
    (hpass : ∀ c ∈ pass.resumed, P.Keeps e.store c) :
    P.Upholds none (wake c pass) (fun pass e' => ∀ c ∈ pass.resumed, P.Keeps e'.store c) e := by
  have hnote {pass' : Pass} {e₁ : Engine} (hs : P.Step none e e₁)
      (hp : ∀ c ∈ pass'.resumed, P.Keeps e₁.store c) (level : Level) (text : String) :
      Ensures (do note level text; return pass') e₁
        (fun pass e' => P.Step none e e' ∧ ∀ c ∈ pass.resumed, P.Keeps e'.store c)
        (fun f e' => P.Step none e e' ∧ P.Fails e'.store f) := by
    have hrest : P.Upholds none (do note level text; return pass')
        (fun pass e' => ∀ c ∈ pass.resumed, P.Keeps e'.store c) e₁ := by
      refine (note_upholds hs.holds level text).bind ?_
      intro _ e₂ hs₂ hstore
      exact .pure hs₂.holds (hstore ▸ hp)
    exact hrest.after hs
  unfold wake
  apply Ensures.bind
  apply Ensures.attempt
  apply Ensures.holding
  refine Ensures.mono (resume_rests e c he hc) ?_ ?_
  · rintro _ g ⟨ht, -⟩
    refine hnote ht.step ?_ _ _
    intro d hd
    rcases List.mem_append.mp hd with hold | hnew
    · exact P.keeps ht.step.grows (hpass d hold)
    · rw [List.mem_singleton.mp hnew]
      exact ht.keeps
  · rintro f g ⟨ht, hf⟩
    have hkept : ∀ c ∈ pass.resumed, P.Keeps g.state.store c :=
      fun d hd => P.keeps ht.step.grows (hpass d hd)
    cases hv : verdict f with
    | skip =>
      simp only [hv]
      exact hnote ht.step hkept _ _
    | keep =>
      simp only [hv]
      exact hnote ht.step hkept _ _
    | escape =>
      simp only [hv]
      exact Ensures.throw ⟨ht.step, hf⟩

private theorem wakes_uphold (he : P.Holds e) (cs : List Context)
    (hcs : ∀ c ∈ cs, P.Keeps e.store c) (pass : Pass)
    (hpass : ∀ c ∈ pass.resumed, P.Keeps e.store c) :
    P.Upholds none (cs.foldlM (fun pass c => wake c pass) pass)
      (fun pass e' => ∀ c ∈ pass.resumed, P.Keeps e'.store c) e := by
  induction cs generalizing e pass with
  | nil => exact .pure he hpass
  | cons c rest ih =>
    rw [List.foldlM_cons]
    refine (wake_upholds he (hcs c List.mem_cons_self) pass hpass).bind ?_
    intro pass' e₁ hs hpass'
    exact ih hs.holds (fun d hd => P.keeps hs.grows (hcs d (List.mem_cons_of_mem _ hd))) pass' hpass'

private theorem scanAt_upholds (he : P.Holds e) (t : Moment) (limit : Json) :
    P.Upholds none (scanAt t limit) (fun found e' => ∀ c ∈ found.2, P.Keeps e'.store c) e := by
  refine (due_upholds he _ _).bind ?_
  intro cs e₁ hs hcs
  dsimp only
  split
  · refine (note_upholds hs.holds _ _).bind ?_
    intro _ e₂ hs₂ hstore
    exact .pure hs₂.holds (hstore ▸ hcs)
  · exact .pure hs.holds hcs

theorem tick_upholds (he : P.Holds e) (time : Option Moment) (limit : Json) :
    P.Upholds none (tick time limit)
      (fun pass e' => ∀ c ∈ pass.resumed, P.Keeps e'.store c) e := by
  have hscan : P.Upholds none (scan time limit)
      (fun found e' => ∀ c ∈ found.2, P.Keeps e'.store c) e := by
    cases time with
    | some t => exact scanAt_upholds he t limit
    | none =>
      refine (now_upholds he).bind ?_
      intro t e₁ hs _
      exact scanAt_upholds hs.holds t limit
  rw [tick_eq_steps]
  refine hscan.bind ?_
  intro found e₁ hs hfound
  refine wakes_uphold hs.holds found.2 hfound ⟨[], []⟩ ?_
  intro c hc
  cases hc

/-! ## Inputs -/

private theorem recordGiven_rests (results : Json) : P.Rests (recordGiven results) := by
  intro e c he hc
  unfold recordGiven
  split
  · split
    · exact record_rests _ e c he hc
    · exact .throw he hc (P.fails_of_plain rfl)
  · exact .pure he hc trivial

private theorem checkInput_plainly (c : Context) (choice : Json) :
    Plainly (checkInput c choice) := by
  unfold checkInput
  cases c.isCompleted with
  | true => exact (FailsWithin.error _).mpr rfl
  | false =>
    split
    · exact FailsWithin.pure _
    · refine (Flow.lookup?_commonly _ _).plainly.bind fun found _ => ?_
      cases found with
      | none => exact FailsWithin.pure _
      | some node => exact FailsWithin.map.mpr (Flow.exitAt_plainly node choice)

private theorem take_upholds (he : P.Holds e) (hc : P.Keeps e.store c) {i : String}
    (hid : c.id = some i) (choice results : Json) :
    P.HeldUpholds (some (i, choice)) (take choice results) (fun _ _ => True) e c := by
  have hrest (e : Engine) (c : Context) (he : P.Holds e) (hc : P.Keeps e.store c)
      (hid : c.id = some i) : P.HeldUpholds (some (i, choice))
        (do recordGiven results; advance choice) (fun _ _ => True) e c := by
    refine (recordGiven_rests results e c he hc).bind ?_
    rintro _ g ht -
    exact advance_upholds ht.step.holds ht.keeps (ht.id.trans hid) choice
  apply HeldUpholds.held_bind
  dsimp only
  split
  · refine (resume_rests e c he hc).bind ?_
    rintro _ g ht -
    exact hrest g.state g.held ht.step.holds ht.keeps (ht.id.trans hid)
  · exact hrest e c he hc hid

private def TryUpholds (P : Discipline) (i : String) (choice : Json) (e : Engine) :
    Except Failure Context → Engine → Prop
  | .ok c, e' => P.Step (some (i, choice)) e e' ∧ P.Keeps e'.store c
  | .error f, e' => P.Step none e e' ∧ P.Fails e'.store f

private theorem tryInput_upholds (he : P.Holds e) (i : String) (choice results : Json) :
    Ensures (tryInput (some i) choice results) e (fun r e' => TryUpholds P i choice e r e')
      (fun f e' => P.Step none e e' ∧ P.Fails e'.store f) := by
  unfold tryInput
  apply Ensures.bind
  refine Ensures.mono (load_upholds he i) ?_ (fun _ _ h => h)
  rintro c e₁ ⟨hs, hc, hid⟩
  apply Ensures.bind
  apply Ensures.ofExcept
  · intro _ _
    apply Ensures.bind
    apply Ensures.attempt
    apply Ensures.holding
    refine Ensures.mono (take_upholds hs.holds hc hid choice results) ?_ ?_
    · rintro _ g ⟨ht, -⟩
      exact Ensures.pure ⟨hs.trans ht.step, ht.keeps⟩
    · rintro f g ⟨ht, hf⟩
      have hfails : P.Step none e g.state ∧ P.Fails g.state.store f := ⟨hs.trans ht.step, hf⟩
      cases f <;> first | exact Ensures.throw hfails | exact Ensures.pure hfails
  · intro f hf
    exact ⟨hs, P.fails_of_plain (checkInput_plainly c choice f hf)⟩

private theorem giveUp_upholds (he : P.Holds e) (id : Option String) (attempt : Int) {f : Failure}
    (hf : P.Fails e.store f) {post : Context → Engine → Prop} :
    P.Upholds taken (giveUp id attempt f) post e := by
  unfold giveUp
  apply Ensures.bind
  refine Ensures.mono (note_upholds he _ _) ?_ (fun _ _ h => h)
  rintro _ e' ⟨hs, hstore⟩
  exact Ensures.throw ⟨hs, hstore ▸ hf⟩

private theorem deliverFrom_upholds (he : P.Holds e) (i : String) (choice results : Json)
    (attempt : Int) (more : Nat) :
    P.Upholds (some (i, choice)) (deliverFrom (some i) choice results attempt more)
      (fun c e' => P.Keeps e'.store c) e := by
  induction more generalizing e attempt with
  | zero =>
    unfold deliverFrom
    apply Ensures.bind
    refine (tryInput_upholds he i choice results).mono ?_ (fun _ _ h => h)
    intro r e₁ hr
    cases r with
    | ok c => exact Ensures.pure hr
    | error f => exact (giveUp_upholds hr.1.holds _ _ hr.2).after hr.1
  | succ more ih =>
    unfold deliverFrom
    apply Ensures.bind
    refine (tryInput_upholds he i choice results).mono ?_ (fun _ _ h => h)
    intro r e₁ hr
    cases r with
    | ok c => exact Ensures.pure hr
    | error f =>
      obtain ⟨hs, hf⟩ := hr
      apply Ensures.bind
      apply Ensures.get
      apply Ensures.bind
      apply Ensures.ofExcept
      · intro delay _
        cases delay with
        | none => exact (giveUp_upholds hs.holds _ _ hf).after hs
        | some ms =>
          refine ((note_upholds hs.holds _ _).bind ?_).after hs
          intro _ e₂ hs₂ _
          refine (Upholds.quietly hs₂.holds (pause_spares ms) (pause_yields ms).quietly).bind ?_
          intro _ e₃ hs₃ _
          exact ih hs₃.holds _
      · intro f' hf'
        exact ⟨hs, P.fails_of_plain ((e₁.policy.delayAfter_commonly attempt).plainly f' hf')⟩

theorem deliver_upholds (he : P.Holds e) (i : String) (choice results : Json) :
    P.Upholds (some (i, choice)) (deliver (some i) choice results)
      (fun c e' => P.Keeps e'.store c) e :=
  Ensures.bind (Ensures.get (deliverFrom_upholds he i choice results _ _))

/-! ## Operations on a loaded copy -/

private theorem loaded_upholds (he : P.Holds e) (i : String) {act : OnCopy α}
    (post : α × Context → Engine → Prop) (next : α × Context → Context)
    (h : ∀ e c, P.Holds e → P.Keeps e.store c →
      P.HeldUpholds none act (fun a g => post (a, g.held) g.state) e c)
    (hn : ∀ p e, post p e → P.Keeps e.store (next p)) :
    P.Upholds none (do return next (← Action.holding (← load (some i)) act))
      (fun c e' => P.Keeps e'.store c) e := by
  refine (load_upholds he i).bind ?_
  rintro c e₁ hs ⟨hc, -⟩
  refine (Upholds.holding (h e₁ c hs.holds hc)).bind ?_
  intro p e₂ hs₂ hp
  exact .pure hs₂.holds (hn p e₂ hp)

theorem startFlow_upholds (he : P.Holds e) (flow : Identifier) (contact : Json) :
    P.Upholds none (startFlow flow contact) (fun c e' => P.Keeps e'.store c) e := by
  refine (fetch_upholds he flow).bind ?_
  rintro found e₁ hs ⟨-, hfound⟩
  exact start_upholds hs.holds (P.knows hfound) contact (P.orphan _)

theorem suspendById_upholds (he : P.Holds e) (i : String) (wakeup : Option Moment) :
    P.Upholds none (suspendById (some i) wakeup) (fun c e' => P.Keeps e'.store c) e :=
  loaded_upholds he i (fun p e => P.Keeps e.store p.2) Prod.snd
    (fun e c he hc => (suspend_rests wakeup e c he hc).mono fun _ _ ht _ => ht.keeps)
    (fun _ _ h => h)

theorem enterById_upholds (he : P.Holds e) (i : String) (flow : Identifier)
    (wakeup : Option Moment) :
    P.Upholds none (enterById (some i) flow wakeup) (fun c e' => P.Keeps e'.store c) e :=
  loaded_upholds he i (fun p e => P.Keeps e.store p.1) Prod.fst
    (fun _ _ he hc => enterSubFlow_upholds he hc flow wakeup) (fun _ _ h => h)

theorem exitById_upholds (he : P.Holds e) (i : String) :
    P.Upholds none (exitById (some i)) (fun c e' => P.Keeps e'.store c) e :=
  loaded_upholds he i (fun p e => P.Keeps e.store p.1) Prod.fst
    (fun _ _ he hc => exitSubFlow_upholds he hc) (fun _ _ h => h)

/-! ## Cancellations -/

private theorem complete_upholds (he : P.Holds e) (hc : P.Keeps e.store c) :
    P.Upholds none (Action.holding c complete) (fun p e' => P.Keeps e'.store p.2) e :=
  .holding ((complete_rests e c he hc).mono fun _ _ ht _ => ht.keeps)

theorem children_upholds (he : P.Holds e) (parent : Option String) :
    P.Upholds none (ask .children (Store.children parent))
      (fun cs e' => ∀ c ∈ cs, P.Keeps e'.store c) e := by
  refine (ask_upholds he .children (Store.children_plainly parent)).mono ?_
  rintro cs e₁ - ⟨hstore, hcs⟩ c hc
  rw [hstore]
  exact P.reads he ((P.ready he).sound.children_copied hcs hc)

private theorem cancelEach_upholds {depth : Nat}
    (hrec : ∀ (e : Engine) (p : Option String), P.Holds e →
      P.Upholds none (cancelChildren p depth) (fun _ _ => True) e)
    (he : P.Holds e) (cs : List Context) (hcs : ∀ c ∈ cs, P.Keeps e.store c) :
    P.Upholds none (cancelEach depth cs) (fun _ _ => True) e := by
  induction cs generalizing e with
  | nil =>
    rw [cancelEach]
    exact .pure he trivial
  | cons c rest ih =>
    rw [cancelEach]
    refine (hrec e c.id he).bind ?_
    intro _ e₁ hs₁ _
    have hkept (d : Context) (hd : d ∈ c :: rest) : P.Keeps e₁.store d :=
      P.keeps hs₁.grows (hcs d hd)
    dsimp only
    split
    · have hdone : P.Upholds none (discard <| Action.holding c complete)
          (fun _ _ => True) e₁ := by
        apply Ensures.discard
        exact (complete_upholds hs₁.holds (hkept c List.mem_cons_self)).mono fun _ _ _ _ => trivial
      refine hdone.bind ?_
      intro _ e₂ hs₂ _
      exact ih hs₂.holds fun d hd => P.keeps hs₂.grows (hkept d (List.mem_cons_of_mem _ hd))
    · exact ih hs₁.holds fun d hd => hkept d (List.mem_cons_of_mem _ hd)

private theorem cancelChildren_upholds (depth : Nat) (he : P.Holds e) (parent : Option String) :
    P.Upholds none (cancelChildren parent depth) (fun _ _ => True) e := by
  induction depth generalizing e parent with
  | zero =>
    rw [cancelChildren]
    exact .throw he (P.fails fun _ _ h => Failure.noConfusion h)
  | succ depth ih =>
    rw [cancelChildren]
    refine (children_upholds he parent).bind ?_
    intro cs e₁ hs hcs
    exact cancelEach_upholds (fun _ p he => ih he p) hs.holds cs hcs

theorem cancel_upholds (he : P.Holds e) (i : String) (cascade : Bool) :
    P.Upholds none (cancel (some i) cascade) (fun c e' => P.Keeps e'.store c) e := by
  have hlast (e : Engine) (c : Context) (he : P.Holds e) (hc : P.Keeps e.store c) :
      P.Upholds none (do return (← Action.holding c complete).2)
        (fun c e' => P.Keeps e'.store c) e := by
    refine (complete_upholds he hc).bind ?_
    intro p e' hs hp
    exact .pure hs.holds hp
  refine (stored_upholds he i).bind ?_
  rintro c e₁ hs ⟨hc, -⟩
  split
  · dsimp only
    split
    · exact .throw hs.holds (P.fails_of_plain rfl)
    · apply Ensures.bind
      apply Ensures.get
      refine (cancelChildren_upholds _ hs.holds (some i)).bind ?_
      intro _ e₂ hs₂ _
      exact hlast e₂ c hs₂.holds (P.keeps hs₂.grows hc)
  · dsimp only
    split
    · exact .throw hs.holds (P.fails_of_plain rfl)
    · exact hlast e₁ c hs.holds hc

end Discipline
end DurableFlow.Engine
