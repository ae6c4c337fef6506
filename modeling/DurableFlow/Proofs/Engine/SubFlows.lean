import DurableFlow.Proofs.Engine.HeldTransitions
import DurableFlow.Proofs.Store.CopiedReads

/-! Starting and loading contexts, and the way into a sub-flow and out of it. Contexts that are
handed out are current when they are. -/
namespace DurableFlow.Engine
open DurableFlow.Action (Ensures)
open Store (Acted Copied Current Deed Evolves Filed Fits Newborn)
variable {α : Type} {D : Deed → Prop} {e : Engine} {c : Context} {g : Holding Engine Context}

def Unrecorded (d : Deed) : Prop := d.isRecord = false

theorem unrecorded_of_finish (d : Deed) (h : ∃ t, d = .finish t) : Unrecorded d := by
  obtain ⟨t, rfl⟩ := h
  rfl

theorem unrecorded_of_park (d : Deed) (h : ∃ w, d = .park w) : Unrecorded d := by
  obtain ⟨w, rfl⟩ := h
  rfl

/-! ## Current copies -/

structure Follows (D : Deed → Prop) (e : Engine) (g : Holding Engine Context) : Prop where
  ready : g.state.Ready
  evolves : Evolves D e.store g.state.store
  current : Current g.state.store g.held

theorem Handled.follows (h : Handled D e c g) (hc : Current e.store c) : Follows D e g := by
  obtain ⟨hv, hcur⟩ := h.acted.of_current (hc.of_unbound rfl)
  exact ⟨h.ready, hv, hcur.of_unbound rfl⟩

/-- An operation on a current copy of its own hands the copy back current. -/
theorem Handles.holding {act : OnCopy α} (h : Handles D e c act) (hc : Current e.store c) :
    Ensures (Action.holding c act) e
      (fun p e' => e'.Ready ∧ Evolves D e.store e'.store ∧ Current e'.store p.2)
      (fun _ e' => e'.Ready ∧ Evolves D e.store e'.store) := by
  apply Ensures.holding
  refine Ensures.mono h ?_ ?_
  · intro _ g hh
    obtain ⟨hr, hv, hcur⟩ := hh.follows hc
    exact ⟨hr, hv, hcur⟩
  · intro _ g hh
    obtain ⟨hr, hv, _⟩ := hh.follows hc
    exact ⟨hr, hv⟩

/-! ## Starting and loading -/

theorem newborn_filed (k : Store.Kind) (c : Context) (i : String) (time : Moment)
    (hr : c.results = .object []) (hw : c.wakeup = none) (hc : c.completed = none) :
    Newborn (k.filed ((c.named i).stamped time)) := by
  refine ⟨rfl, hr, ?_, ?_⟩
  · change c.wakeup.map k.time = none
    rw [hw]
    rfl
  · change c.completed.map k.time = none
    rw [hc]
    rfl

/-- A start does no deed: it files one open row and hands out a current copy of it. -/
theorem start_ensures (he : e.Ready) (graph : Flow.Graph) (contact : Json)
    (parent : Option String) : Ensures (start graph contact parent) e
      (fun c e' => e'.Ready ∧ Evolves (fun _ => False) e.store e'.store ∧ Current e'.store c)
      (fun _ e' => e'.Ready ∧ e'.store = e.store) := by
  unfold start
  split
  · exact Ensures.throw ⟨he, rfl⟩
  · apply Ensures.bind
    refine (instant_yields.quietly e he.alone).mono ?_ (fun _ _ hq => ⟨he.quiet hq, hq.store⟩)
    intro time e₁ hq
    have he₁ := he.quiet hq
    rw [← hq.store]
    apply Ensures.bind
    refine (insert_ensures he₁ rfl).mono ?_ (fun _ _ h => h)
    rintro ⟨_, c⟩ e₂ ⟨he₂, i, stamp, hnone, hfiled, hc⟩
    dsimp only at hfiled hc
    have hid : c.id = some i := by rw [hc]; rfl
    have hb : Newborn (e₁.store.kind.filed c) := by
      rw [hc]
      exact newborn_filed _ _ _ _ rfl rfl rfl
    apply Ensures.bind
    refine (note_ensures _ _ e₂).mono ?_ (fun _ _ hf => hf.elim)
    intro _ e₃ hq₃
    apply Ensures.pure
    rw [hq₃.store]
    exact ⟨he₂.quiet hq₃, .of_filed hfiled hnone hb, hfiled.current hid⟩

/-- A context that is read by its id is a copy of its row. -/
theorem stored_ensures (he : e.Ready) (i : String) : Ensures (stored (some i)) e
    (fun c e' => Quiet e e' ∧ Copied e.store c ∧ c.id = some i) (fun _ e' => Quiet e e') := by
  unfold stored
  apply Ensures.bind
  refine (ask_ensures .getContext _ he.alone).mono ?_ (fun _ _ hq => hq)
  rintro found e' ⟨hq, hfound⟩
  cases found with
  | none => exact Ensures.throw hq
  | some c => exact Ensures.pure ⟨hq, he.sound.getContext_copied hfound⟩

/-- A context that is loaded is a copy of its row, but for the node index. -/
theorem load_copies (he : e.Ready) (i : String) : Ensures (load (some i)) e
    (fun c e' => e'.Ready ∧ e'.store = e.store ∧ c.id = some i ∧
      ∃ d, Copied e.store d ∧ c.unbound = d.unbound)
    (fun _ e' => e'.Ready ∧ e'.store = e.store) := by
  unfold load
  apply Ensures.bind
  refine (stored_ensures he i).mono ?_ (fun _ _ hq => ⟨he.quiet hq, hq.store⟩)
  rintro d e₁ ⟨hq, hcopied, hid⟩
  apply Ensures.bind
  apply Ensures.holding
  refine (bind_idles e₁ d (he.quiet hq)).mono ?_ ?_
  · intro _ g hu
    refine Ensures.pure ⟨hu.ready, hu.store.trans hq.store, ?_, d, hcopied, hu.held⟩
    exact (congrArg Context.id hu.held : g.held.unbound.id = d.unbound.id).trans hid
  · intro _ g hu
    exact ⟨hu.ready, hu.store.trans hq.store⟩

/-- A context that is loaded is a current copy. -/
theorem load_ensures (he : e.Ready) (i : String) : Ensures (load (some i)) e
    (fun c e' => e'.Ready ∧ e'.store = e.store ∧ Current e.store c ∧ c.id = some i)
    (fun _ e' => e'.Ready ∧ e'.store = e.store) := by
  refine (load_copies he i).mono ?_ (fun _ _ h => h)
  rintro c e' ⟨hr, hs, hid, d, hcopied, hc⟩
  exact ⟨hr, hs, hcopied.current.of_unbound hc, hid⟩

/-! ## Sub-flows -/

/-- At most one deed through the copy, and after it none but deeds on open rows that record
nothing. -/
structure Passed (D : Deed → Prop) (e : Engine) (c : Context) (g : Holding Engine Context) :
    Prop where
  ready : g.state.Ready
  acted : ∃ s, Acted D e.store c.unbound s g.held.unbound ∧ Evolves Unrecorded s g.state.store

theorem Handled.passed (h : Handled D e c g) : Passed D e c g :=
  ⟨h.ready, g.state.store, h.acted, .refl⟩

theorem Undisturbed.passed (h : Undisturbed e c g) : Passed D e c g := h.handled.passed

/-- What happens beside the copy after the deed is not laid to the copy. -/
theorem Handled.beside (h : Handled D e c g) {e' : Engine} (hr : e'.Ready)
    (hv : Evolves Unrecorded g.state.store e'.store) : Passed D e c ⟨e', g.held⟩ :=
  ⟨hr, g.state.store, h.acted, hv⟩

private theorem Passed.undisturbed (h : Passed D e c g) {g' : Holding Engine Context}
    (hu : Undisturbed g.state g.held g') : Passed D e c g' := by
  obtain ⟨_, s, ha, hv⟩ := h
  exact ⟨hu.ready, s, hu.held ▸ ha, hu.store ▸ hv⟩

private theorem enter_ensures (h : Handled D e c g) (graph : Flow.Graph) (text : Context → Context → String) :
    Ensures (do
      let parent ← Action.held
      let child ← Action.beside (start graph parent.contact parent.id)
      remark .debug (text parent child)
      return child) g
      (fun child g' => Passed D e c g' ∧ Current g'.state.store child)
      (fun _ g' => Passed D e c g') := by
  apply Ensures.bind
  apply Ensures.held
  apply Ensures.bind
  apply Ensures.beside
  refine (start_ensures h.ready graph _ _).mono ?_ ?_
  · rintro child e' ⟨hr, hv, hcur⟩
    have hp := h.beside hr (hv.mono fun _ hf => hf.elim)
    apply Ensures.bind
    refine (remark_idles .debug _ e' g.held hr).mono ?_ (fun _ _ hu => hp.undisturbed hu)
    intro _ g' hu
    exact Ensures.pure ⟨hp.undisturbed hu, hu.store ▸ hcur⟩
  · rintro _ e' ⟨hr, hs⟩
    exact h.beside hr (.of_eq hs)

/-- An entry parks the parent or leaves it, then files the child. -/
theorem enterSubFlow_ensures (he : e.Ready) (flow : Identifier) (wakeup : Option Moment) :
    Ensures (enterSubFlow flow wakeup) ⟨e, c⟩
      (fun child g => Passed (fun d => ∃ w, d = .park w) e c g ∧ Current g.state.store child)
      (fun _ g => Passed (fun d => ∃ w, d = .park w) e c g) := by
  unfold enterSubFlow
  apply Ensures.bind
  refine (requireOpen_ensures .enter).mono ?_ ?_
  · rintro _ _ ⟨rfl, _⟩
    apply Ensures.bind
    refine (Idles.beside (fetch_yields flow).quietly e c he).mono ?_ (fun _ _ hu => hu.passed)
    intro found g hu
    dsimp only
    split
    · exact Ensures.throw hu.passed
    · split
      · apply Ensures.bind
        refine Ensures.mono (suspend_handles hu.ready wakeup) ?_ ?_
        · intro _ g' hh
          have hh' : Handled (fun d => ∃ w, d = .park w) e c g' :=
            (hh.after hu).mono fun _ hd => ⟨wakeup, hd⟩
          exact enter_ensures hh' _ _
        · intro _ g' hh
          have hh' : Handled (fun d => ∃ w, d = .park w) e c g' :=
            (hh.after hu).mono fun _ hd => ⟨wakeup, hd⟩
          exact hh'.passed
      · exact enter_ensures hu.handled _ _
  · rintro _ _ rfl
    exact (Undisturbed.refl he).passed

private theorem wake_ensures (he : e.Ready) (hc : Current e.store c) :
    Ensures (do return (← Action.holding c resume).2 : Run Context) e
      (fun p e' => e'.Ready ∧ Evolves Unrecorded e.store e'.store ∧ Current e'.store p)
      (fun _ e' => e'.Ready ∧ Evolves Unrecorded e.store e'.store) := by
  have hunrecorded (d : Deed) (hd : d = .park none) : Unrecorded d := hd ▸ rfl
  apply Ensures.bind
  refine ((resume_handles he).holding hc).mono ?_ ?_
  · rintro ⟨_, p⟩ e' ⟨hr, hv, hcur⟩
    exact Ensures.pure ⟨hr, hv.mono hunrecorded, hcur⟩
  · rintro _ e' ⟨hr, hv⟩
    exact ⟨hr, hv.mono hunrecorded⟩

private theorem leave_ensures (h : Handled D e c g) (parentId : String) (text : Context → String) :
    Ensures (do
      let parent ← Action.beside (load (some parentId))
      let parent ← if parent.isSuspended then
          Action.beside do return (← Action.holding parent resume).2
        else pure parent
      remark .debug (text parent)
      return parent) g
      (fun p g' => Passed D e c g' ∧ Current g'.state.store p) (fun _ g' => Passed D e c g') := by
  apply Ensures.bind
  apply Ensures.beside
  refine (load_ensures h.ready parentId).mono ?_ (fun _ _ hs => h.beside hs.1 (.of_eq hs.2))
  rintro parent e₁ ⟨hr₁, hs₁, hcur, _⟩
  have hv₁ : Evolves Unrecorded g.state.store e₁.store := .of_eq hs₁
  rw [← hs₁] at hcur
  have hrest (p : Context) (e₂ : Engine) (hr : e₂.Ready)
      (hv : Evolves Unrecorded g.state.store e₂.store) (hp : Current e₂.store p) :
      Ensures (do remark .debug (text p); return p : OnCopy Context) ⟨e₂, g.held⟩
        (fun p g' => Passed D e c g' ∧ Current g'.state.store p) (fun _ g' => Passed D e c g') := by
    have hpassed := h.beside hr hv
    apply Ensures.bind
    refine (remark_idles .debug _ e₂ g.held hr).mono ?_ (fun _ _ hu => hpassed.undisturbed hu)
    intro _ g' hu
    exact Ensures.pure ⟨hpassed.undisturbed hu, hu.store ▸ hp⟩
  dsimp only
  split
  · apply Ensures.bind
    apply Ensures.beside
    refine (wake_ensures hr₁ hcur).mono ?_ ?_
    · rintro p e₂ ⟨hr, hv, hp⟩
      exact hrest p e₂ hr (hv₁.trans hv) hp
    · rintro _ e₂ ⟨hr, hv⟩
      exact h.beside hr (hv₁.trans hv)
  · exact hrest parent e₁ hr₁ hv₁ hcur

/-- An exit finishes an open child, then resumes the parent through a copy of its own. -/
theorem exitSubFlow_ensures (he : e.Ready) : Ensures exitSubFlow ⟨e, c⟩
    (fun p g => Passed (fun d => ∃ t, d = .finish t) e c g ∧ Current g.state.store p)
    (fun _ g => Passed (fun d => ∃ t, d = .finish t) e c g) := by
  unfold exitSubFlow
  apply Ensures.bind
  apply Ensures.held
  split
  · exact Ensures.throw (Undisturbed.refl he).passed
  · rename_i parentId _
    dsimp only
    split
    · apply Ensures.bind
      refine (remark_idles .warning _ e c he).mono ?_ (fun _ _ hu => hu.passed)
      intro _ g hu
      apply Ensures.bind
      refine Ensures.mono (complete_handles hu.ready) ?_ (fun _ _ hh => (hh.after hu).passed)
      intro _ g' hh
      exact leave_ensures (hh.after hu) parentId _
    · exact leave_ensures (Undisturbed.refl he).handled parentId _

end DurableFlow.Engine
