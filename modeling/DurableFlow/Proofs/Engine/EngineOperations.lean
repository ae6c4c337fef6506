import DurableFlow.Engine.Wakeup
import DurableFlow.Proofs.Engine.SubFlows

/-! Operations of an engine by the ids of contexts: they read copies of their own and write through
them. A copy that is written through unguarded has been read in the same operation. -/
namespace DurableFlow.Engine
open DurableFlow.Action (Ensures)
open Store (Copied Current Deed Evolves Fits)
variable {α β : Type} {D : Deed → Prop} {e e' e'' : Engine} {c : Context}
  {g : Holding Engine Context}

structure Moves (D : Deed → Prop) (e e' : Engine) : Prop where
  ready : e'.Ready
  evolves : Evolves D e.store e'.store

namespace Moves

theorem refl (he : e.Ready) : Moves D e e := ⟨he, .refl⟩

theorem of_quiet (he : e.Ready) (hq : Quiet e e') : Moves D e e' := ⟨he.quiet hq, .of_eq hq.store⟩

theorem trans (h : Moves D e e') (h' : Moves D e' e'') : Moves D e e'' :=
  ⟨h'.ready, h.evolves.trans h'.evolves⟩

theorem quiet (h : Moves D e e') (hq : Quiet e' e'') : Moves D e e'' :=
  h.trans (of_quiet h.ready hq)

theorem mono {D' : Deed → Prop} (h : Moves D e e') (hD : ∀ d, D d → D' d) : Moves D' e e' :=
  ⟨h.ready, h.evolves.mono hD⟩

end Moves

/-! ## Ticks -/

abbrev EndsWait : Deed → Prop := (· = .park none)

/-- The due contexts of an engine are those of its store. -/
theorem due_ensures (he : e.Ready) (now : Option Moment) (limit : Json) :
    Ensures (due now limit) e (fun cs e' => Quiet e e' ∧ e.store.due now limit = .ok cs)
      (fun _ e' => Quiet e e') := by
  unfold due
  apply Ensures.bind
  refine (ask_ensures .due _ he.alone).mono ?_ (fun _ _ hq => hq)
  rintro cs e' ⟨hq, hcs⟩
  apply Ensures.bind
  apply Ensures.get
  have hr : e'.faults.racing = false := hq.racing.trans he.unraced
  simp only [hr, Bool.false_eq_true, if_false]
  exact Ensures.pure ⟨hq, hcs⟩

private theorem resumed_ensures (he : e.Ready) (hc : Fits e.store c) :
    Ensures (Action.attempt (Action.holding c resume)) e
      (fun r e' => Moves EndsWait e e' ∧ ∀ p, r = .ok p → Fits e'.store p.2)
      (fun _ _ => False) := by
  have hpark (d : Deed) (t : Moment) (hd : EndsWait d) : d ≠ .finish t := by
    rw [hd]
    exact Deed.noConfusion
  have hun : Fits e.store c.unbound := hc.of_unbound rfl
  apply Ensures.attempt
  apply Ensures.holding
  refine Ensures.mono (resume_handles he) ?_ ?_
  · intro _ g hh
    refine ⟨⟨hh.ready, hh.acted.evolves hpark hun.coherent⟩, ?_⟩
    rintro _ ⟨⟩
    exact (hh.acted.held_fits hpark hun).of_unbound rfl
  · intro _ g hh
    refine ⟨⟨hh.ready, hh.acted.evolves hpark hun.coherent⟩, ?_⟩
    rintro _ ⟨⟩

private theorem resumeAll_ensures (he : e.Ready) (cs : List Context) (pass : Pass)
    (hcs : ∀ c ∈ cs, Fits e.store c) (hpass : ∀ c ∈ pass.resumed, Fits e.store c) :
    Ensures (resumeAll cs pass) e
      (fun p e' => Moves EndsWait e e' ∧ ∀ c ∈ p.resumed, Fits e'.store c)
      (fun _ e' => Moves EndsWait e e') := by
  induction cs generalizing e pass with
  | nil => exact Ensures.pure ⟨.refl he, hpass⟩
  | cons c rest ih =>
    unfold resumeAll
    apply Ensures.bind
    refine (resumed_ensures he (hcs c List.mem_cons_self)).mono ?_ (fun _ _ hf => hf.elim)
    rintro r e₁ ⟨hm, hr⟩
    have hrest (c : Context) (hc : c ∈ rest) : Fits e₁.store c :=
      hm.evolves.fits (hcs c (List.mem_cons_of_mem _ hc))
    have hkept (c : Context) (hc : c ∈ pass.resumed) : Fits e₁.store c :=
      hm.evolves.fits (hpass c hc)
    have hnext (level : Level) (text : String) (pass : Pass)
        (hp : ∀ c ∈ pass.resumed, Fits e₁.store c) :
        Ensures (do note level text; resumeAll rest pass) e₁
          (fun p e' => Moves EndsWait e e' ∧ ∀ c ∈ p.resumed, Fits e'.store c)
          (fun _ e' => Moves EndsWait e e') := by
      apply Ensures.bind
      refine (note_ensures level text e₁).mono ?_ (fun _ _ hf => hf.elim)
      intro _ e₂ hq
      have hm₂ := hm.quiet hq
      refine (ih hm₂.ready pass (hq.store.symm ▸ hrest) (hq.store.symm ▸ hp)).mono ?_ ?_
      · rintro p e' ⟨hm', hp'⟩
        exact ⟨hm₂.trans hm', hp'⟩
      · intro _ e' hm'
        exact hm₂.trans hm'
    cases r with
    | ok p =>
      refine hnext _ _ _ ?_
      intro c' hc'
      rcases List.mem_append.mp hc' with hold | hnew
      · exact hkept c' hold
      · rw [List.mem_singleton.mp hnew]
        exact hr p rfl
    | error f =>
      cases hv : verdict f with
      | skip =>
        simp only [hv]
        exact hnext _ _ _ hkept
      | keep =>
        simp only [hv]
        exact hnext _ _ _ hkept
      | escape =>
        simp only [hv]
        exact Ensures.throw hm

/-- A tick only ends the waiting of open rows, and hands out the contexts that it resumed coherent. -/
theorem tick_wakes (he : e.Ready) (time : Option Moment) (limit : Json) :
    Ensures (tick time limit) e
      (fun p e' => Moves EndsWait e e' ∧ ∀ c ∈ p.resumed, Fits e'.store c)
      (fun _ e' => Moves EndsWait e e') := by
  have hrest (t : Moment) (e₁ : Engine) (hq : Quiet e e₁) : Ensures (do
      let found ← due (some t) limit
      if found.isEmpty then return ⟨[], []⟩
      note .debug s!"Processing {found.length} due context(s)"
      resumeAll found ⟨[], []⟩) e₁
      (fun p e' => Moves EndsWait e e' ∧ ∀ c ∈ p.resumed, Fits e'.store c)
      (fun _ e' => Moves EndsWait e e') := by
    have he₁ := he.quiet hq
    apply Ensures.bind
    refine (due_ensures he₁ _ _).mono ?_ (fun _ _ hq' => .of_quiet he (hq.trans hq'))
    rintro found e₂ ⟨hq₂, hfound⟩
    have hm₂ : Moves EndsWait e e₂ := .of_quiet he (hq.trans hq₂)
    split
    · refine Ensures.pure ⟨hm₂, ?_⟩
      intro c hc
      cases hc
    · apply Ensures.bind
      refine (note_ensures _ _ e₂).mono ?_ (fun _ _ hf => hf.elim)
      intro _ e₃ hq₃
      have hm₃ := hm₂.quiet hq₃
      refine (resumeAll_ensures hm₃.ready found ⟨[], []⟩ ?_ ?_).mono ?_ ?_
      · intro c hc
        have hs : e₃.store = e₁.store := hq₃.store.trans hq₂.store
        exact hs ▸ (he₁.sound.due_copied hfound hc).1.current.fits
      · intro c hc
        cases hc
      · rintro p e' ⟨hm', hp⟩
        exact ⟨hm₃.trans hm', hp⟩
      · intro _ e' hm'
        exact hm₃.trans hm'
  unfold tick
  cases time with
  | some t => exact hrest t e .refl
  | none =>
    apply Ensures.bind
    refine (now_yields.quietly e he.alone).mono ?_ (fun _ _ hq => .of_quiet he hq)
    intro t e₁ hq
    exact hrest t e₁ hq

/-- A tick does no deed that records. -/
theorem tick_ensures (he : e.Ready) (time : Option Moment) (limit : Json) :
    Ensures (tick time limit) e
      (fun p e' => Moves Unrecorded e e' ∧ ∀ c ∈ p.resumed, Fits e'.store c)
      (fun _ e' => Moves Unrecorded e e') := by
  have hunrecorded (d : Deed) (hd : EndsWait d) : Unrecorded d := hd ▸ rfl
  exact (tick_wakes he time limit).mono (fun _ _ h => ⟨h.1.mono hunrecorded, h.2⟩)
    (fun _ _ h => h.mono hunrecorded)

/-! ## Inputs -/

abbrev Anything : Deed → Prop := fun _ => True

private theorem follows_handles {act : OnCopy α} (hf : Follows Anything e g)
    (h : Handles D g.state g.held act) :
    Ensures act g (fun _ g' => Follows Anything e g') (fun _ g' => Follows Anything e g') := by
  have hnext (g' : Holding Engine Context) (hh : Handled D g.state g.held g') :
      Follows Anything e g' := by
    have hf' := (hh.mono fun _ _ => trivial).follows (D := Anything) hf.current
    exact ⟨hf'.ready, hf.evolves.trans hf'.evolves, hf'.current⟩
  exact Ensures.mono h (fun _ => hnext) (fun _ => hnext)

private theorem recordGiven_ensures (hf : Follows Anything e g) (results : Json) :
    Ensures (recordGiven results) g (fun _ g' => Follows Anything e g')
      (fun _ g' => Follows Anything e g') := by
  unfold recordGiven
  split
  · split
    · exact follows_handles hf (record_handles hf.ready _)
    · exact Ensures.throw hf
  · exact Ensures.pure hf

private theorem take_ensures (he : e.Ready) (hc : Current e.store c) (choice results : Json) :
    Ensures (take choice results) ⟨e, c⟩ (fun _ g => Follows Anything e g)
      (fun _ g => Follows Anything e g) := by
  have hstart : Follows Anything e ⟨e, c⟩ := ⟨he, .refl, hc⟩
  have hrest (g : Holding Engine Context) (hf : Follows Anything e g) :
      Ensures (do recordGiven results; advance choice) g (fun _ g' => Follows Anything e g')
        (fun _ g' => Follows Anything e g') := by
    apply Ensures.bind
    refine (recordGiven_ensures hf results).mono ?_ (fun _ _ hf' => hf')
    intro _ g' hf'
    exact follows_handles hf' (advance_handles hf'.ready choice)
  unfold take
  apply Ensures.bind
  apply Ensures.held
  dsimp only
  split
  · apply Ensures.bind
    refine (follows_handles hstart (resume_handles he)).mono ?_ (fun _ _ hf => hf)
    exact fun _ => hrest
  · exact hrest _ hstart

private theorem tryInput_ensures (he : e.Ready) (i : String) (choice results : Json) :
    Ensures (tryInput (some i) choice results) e
      (fun r e' => Moves Anything e e' ∧ ∀ c, r = .ok c → Current e'.store c)
      (fun _ e' => Moves Anything e e') := by
  unfold tryInput
  apply Ensures.bind
  refine (load_ensures he i).mono ?_ (fun _ _ hs => ⟨hs.1, .of_eq hs.2⟩)
  rintro c e₁ ⟨he₁, hs₁, hc, _⟩
  have hm₁ : Moves Anything e e₁ := ⟨he₁, .of_eq hs₁⟩
  apply Ensures.bind
  apply Ensures.ofExcept
  · intro _ _
    apply Ensures.bind
    apply Ensures.attempt
    apply Ensures.holding
    have htake := take_ensures he₁ (hs₁ ▸ hc) choice results
    refine htake.mono ?_ ?_
    · intro _ g hf
      refine Ensures.pure ⟨hm₁.trans ⟨hf.ready, hf.evolves⟩, ?_⟩
      rintro _ ⟨⟩
      exact hf.current
    · intro f g hf
      have hm : Moves Anything e g.state := hm₁.trans ⟨hf.ready, hf.evolves⟩
      cases f <;> first | exact Ensures.throw hm | exact Ensures.pure ⟨hm, fun _ h => by cases h⟩
  · intro _ _
    exact hm₁

private theorem giveUp_ensures (he : e.Ready) (id : Option String) (attempt : Int) (f : Failure) :
    Ensures (giveUp id attempt f) e (fun c e' => Moves Anything e e' ∧ Fits e'.store c)
      (fun _ e' => Moves Anything e e') := by
  unfold giveUp
  apply Ensures.bind
  refine (note_ensures _ _ e).mono ?_ (fun _ _ hf => hf.elim)
  intro _ e' hq
  exact Ensures.throw (.of_quiet he hq)

private theorem deliverFrom_ensures (he : e.Ready) (i : String) (choice results : Json)
    (attempt : Int) (more : Nat) : Ensures (deliverFrom (some i) choice results attempt more) e
      (fun c e' => Moves Anything e e' ∧ Fits e'.store c)
      (fun _ e' => Moves Anything e e') := by
  induction more generalizing e attempt with
  | zero =>
    unfold deliverFrom
    apply Ensures.bind
    refine (tryInput_ensures he i choice results).mono ?_ (fun _ _ hm => hm)
    rintro r e₁ ⟨hm, hr⟩
    cases r with
    | ok c => exact Ensures.pure ⟨hm, (hr c rfl).fits⟩
    | error f =>
      exact (giveUp_ensures hm.ready _ _ f).mono (fun _ _ h => ⟨hm.trans h.1, h.2⟩)
        (fun _ _ h => hm.trans h)
  | succ more ih =>
    unfold deliverFrom
    apply Ensures.bind
    refine (tryInput_ensures he i choice results).mono ?_ (fun _ _ hm => hm)
    rintro r e₁ ⟨hm, hr⟩
    cases r with
    | ok c => exact Ensures.pure ⟨hm, (hr c rfl).fits⟩
    | error f =>
      apply Ensures.bind
      apply Ensures.get
      apply Ensures.bind
      apply Ensures.ofExcept
      · intro delay _
        cases delay with
        | none =>
          exact (giveUp_ensures hm.ready _ _ f).mono (fun _ _ h => ⟨hm.trans h.1, h.2⟩)
            (fun _ _ h => hm.trans h)
        | some ms =>
          apply Ensures.bind
          refine (note_ensures _ _ e₁).mono ?_ (fun _ _ hf => hf.elim)
          intro _ e₂ hq₂
          have hm₂ := hm.quiet hq₂
          apply Ensures.bind
          refine ((pause_yields ms).quietly e₂ hm₂.ready.alone).mono ?_ (fun _ _ hq => hm₂.quiet hq)
          intro _ e₃ hq₃
          have hm₃ := hm₂.quiet hq₃
          exact (ih hm₃.ready _).mono (fun _ _ h => ⟨hm₃.trans h.1, h.2⟩)
            (fun _ _ h => hm₃.trans h)
      · intro _ _
        exact hm

/-- An input does deeds on open rows only, however often it is tried. -/
theorem deliver_ensures (he : e.Ready) (i : String) (choice results : Json) :
    Ensures (deliver (some i) choice results) e
      (fun c e' => Moves Anything e e' ∧ Fits e'.store c)
      (fun _ e' => Moves Anything e e') := by
  unfold deliver
  apply Ensures.bind
  apply Ensures.get
  exact deliverFrom_ensures he i choice results _ _

/-! ## Operations on a loaded copy -/

/-- Through a current copy even the deed before the rest is done on an open row. -/
theorem Passed.moves (h : Passed D e c g) (hc : Current e.store c) (hD : ∀ d, D d → Unrecorded d) :
    Moves Unrecorded e g.state := by
  obtain ⟨hr, s, ha, hv⟩ := h
  exact ⟨hr, ((ha.of_current (hc.of_unbound rfl)).1.mono hD).trans hv⟩

private theorem loaded_ensures (he : e.Ready) (i : String) {next : Context → Run α}
    {post : α → Engine → Prop}
    (h : ∀ c e₁, e₁.Ready → Current e₁.store c → Ensures (next c) e₁
      (fun a e' => Moves Unrecorded e₁ e' ∧ post a e') (fun _ e' => Moves Unrecorded e₁ e')) :
    Ensures (load (some i) >>= next) e
      (fun a e' => Moves Unrecorded e e' ∧ post a e') (fun _ e' => Moves Unrecorded e e') := by
  apply Ensures.bind
  refine (load_ensures he i).mono ?_ (fun _ _ hs => ⟨hs.1, .of_eq hs.2⟩)
  rintro c e₁ ⟨he₁, hs, hc, _⟩
  have hm : Moves Unrecorded e e₁ := ⟨he₁, .of_eq hs⟩
  exact (h c e₁ he₁ (hs ▸ hc)).mono (fun _ _ h => ⟨hm.trans h.1, h.2⟩) (fun _ _ h => hm.trans h)

theorem startFlow_ensures (he : e.Ready) (identifier : Identifier) (contact : Json) :
    Ensures (startFlow identifier contact) e
      (fun c e' => Moves Unrecorded e e' ∧ Fits e'.store c)
      (fun _ e' => Moves Unrecorded e e') := by
  unfold startFlow
  apply Ensures.bind
  refine ((fetch_yields identifier).quietly e he.alone).mono ?_ (fun _ _ hq => .of_quiet he hq)
  intro found e₁ hq
  have hm : Moves Unrecorded e e₁ := .of_quiet he hq
  refine (start_ensures hm.ready found.graph contact none).mono ?_ ?_
  · rintro c e₂ ⟨hr, hv, hc⟩
    exact ⟨hm.trans ⟨hr, hv.mono fun _ hf => hf.elim⟩, hc.fits⟩
  · rintro _ e₂ ⟨hr, hs⟩
    exact hm.trans ⟨hr, .of_eq hs⟩

theorem suspendById_ensures (he : e.Ready) (i : String) (wakeup : Option Moment) :
    Ensures (suspendById (some i) wakeup) e
      (fun c e' => Moves Unrecorded e e' ∧ Fits e'.store c)
      (fun _ e' => Moves Unrecorded e e') := by
  have hunrecorded (d : Deed) (hd : d = .park wakeup) : Unrecorded d := hd ▸ rfl
  refine loaded_ensures he i ?_
  intro c e₁ he₁ hc
  apply Ensures.bind
  refine ((suspend_handles he₁ wakeup).holding hc).mono ?_ ?_
  · rintro ⟨_, p⟩ e₂ ⟨hr, hv, hp⟩
    exact Ensures.pure ⟨⟨hr, hv.mono hunrecorded⟩, hp.fits⟩
  · rintro _ e₂ ⟨hr, hv⟩
    exact ⟨hr, hv.mono hunrecorded⟩

theorem enterById_ensures (he : e.Ready) (i : String) (flow : Identifier)
    (wakeup : Option Moment) : Ensures (enterById (some i) flow wakeup) e
      (fun c e' => Moves Unrecorded e e' ∧ Fits e'.store c)
      (fun _ e' => Moves Unrecorded e e') := by
  refine loaded_ensures he i ?_
  intro c e₁ he₁ hc
  apply Ensures.bind
  apply Ensures.holding
  refine (enterSubFlow_ensures he₁ flow wakeup).mono ?_ ?_
  · rintro child g ⟨hp, hcur⟩
    exact Ensures.pure ⟨hp.moves hc unrecorded_of_park, hcur.fits⟩
  · intro _ g hp
    exact hp.moves hc unrecorded_of_park

theorem exitById_ensures (he : e.Ready) (i : String) :
    Ensures (exitById (some i)) e (fun c e' => Moves Unrecorded e e' ∧ Fits e'.store c)
      (fun _ e' => Moves Unrecorded e e') := by
  refine loaded_ensures he i ?_
  intro c e₁ he₁ hc
  apply Ensures.bind
  apply Ensures.holding
  refine (exitSubFlow_ensures he₁).mono ?_ ?_
  · rintro parent g ⟨hp, hcur⟩
    exact Ensures.pure ⟨hp.moves hc unrecorded_of_finish, hcur.fits⟩
  · intro _ g hp
    exact hp.moves hc unrecorded_of_finish

end DurableFlow.Engine
