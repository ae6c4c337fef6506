import DurableFlow.Proofs.Engine.StoreWrites
import DurableFlow.Proofs.Store.HeldCopies

/-! Transitions of a held copy. Each does at most one deed through the copy, whether it succeeds or
fails, and checks that the copy is open before it does. -/
namespace DurableFlow.Engine
open DurableFlow.Action (Ensures)
open Store (Acted Coherent Current Deed Done Evolves Fits)
variable {α β : Type} {D D' : Deed → Prop} {e : Engine} {c : Context} {g g' : Holding Engine Context}

structure Undisturbed (e : Engine) (c : Context) (g : Holding Engine Context) : Prop where
  ready : g.state.Ready
  store : g.state.store = e.store
  held : g.held.unbound = c.unbound

structure Handled (D : Deed → Prop) (e : Engine) (c : Context) (g : Holding Engine Context) :
    Prop where
  ready : g.state.Ready
  acted : Acted D e.store c.unbound g.state.store g.held.unbound

def Idles (act : OnCopy α) : Prop := ∀ e c, e.Ready →
  Ensures act ⟨e, c⟩ (fun _ g => Undisturbed e c g) (fun _ g => Undisturbed e c g)

def Handles (D : Deed → Prop) (e : Engine) (c : Context) (act : OnCopy α) : Prop :=
  Ensures act ⟨e, c⟩ (fun _ g => Handled D e c g) (fun _ g => Handled D e c g)

namespace Undisturbed

theorem refl (he : e.Ready) : Undisturbed e c ⟨e, c⟩ := ⟨he, rfl, rfl⟩

theorem trans (h : Undisturbed e c g) (h' : Undisturbed g.state g.held g') : Undisturbed e c g' :=
  ⟨h'.ready, h'.store.trans h.store, h'.held.trans h.held⟩

theorem completed (h : Undisturbed e c g) : g.held.completed = c.completed := by
  change g.held.unbound.completed = c.unbound.completed
  rw [h.held]

theorem handled (h : Undisturbed e c g) : Handled D e c g := ⟨h.ready, .inl ⟨h.store, h.held⟩⟩

end Undisturbed

namespace Handled

theorem after (h : Handled D g.state g.held g') (hu : Undisturbed e c g) : Handled D e c g' :=
  ⟨h.ready, hu.store ▸ hu.held ▸ h.acted⟩

theorem undisturbed (h : Handled D e c g) (hu : Undisturbed g.state g.held g') :
    Handled D e c g' := ⟨hu.ready, hu.store ▸ hu.held ▸ h.acted⟩

theorem mono (h : Handled D e c g) (hD : ∀ d, D d → D' d) : Handled D' e c g :=
  ⟨h.ready, h.acted.mono hD⟩

end Handled

namespace Idles
variable {act : OnCopy α}

protected theorem pure (a : α) : Idles (pure a : OnCopy α) :=
  fun _ _ he => Ensures.pure (.refl he)

protected theorem throw (f : Failure) : Idles (throw f : OnCopy α) :=
  fun _ _ he => Ensures.throw (.refl he)

protected theorem ofExcept (r : Except Failure α) : Idles (Action.ofExcept r) :=
  fun _ _ he => Ensures.ofExcept (fun _ _ => .refl he) (fun _ _ => .refl he)

protected theorem held : Idles Action.held := fun _ _ he => Ensures.held (.refl he)

protected theorem beside {act : Run α} (h : Quietly act) : Idles (Action.beside act) :=
  fun e _ he => Ensures.beside ((h e he.alone).mono (fun _ _ hq => ⟨he.quiet hq, hq.store, rfl⟩)
    (fun _ _ hq => ⟨he.quiet hq, hq.store, rfl⟩))

protected theorem bind {next : α → OnCopy β} (h : Idles act) (hn : ∀ a, Idles (next a)) :
    Idles (act >>= next) := by
  intro e c he
  apply Ensures.bind
  refine (h e c he).mono ?_ (fun _ _ hu => hu)
  intro a g hu
  exact (hn a g.state g.held hu.ready).mono (fun _ _ hu' => hu.trans hu') (fun _ _ hu' => hu.trans hu')

end Idles

theorem remark_idles (level : Level) (text : String) : Idles (remark level text) :=
  .beside (note_yields level text).quietly

theorem bind_idles : Idles bind := by
  intro e c he
  apply Ensures.bind
  apply Ensures.held
  split
  · exact Ensures.pure (.refl he)
  · apply Ensures.bind
    refine (Idles.beside (fetch_yields _).quietly e c he).mono ?_ (fun _ _ hu => hu)
    intro found g hu
    apply Ensures.bind
    apply Ensures.alter
    exact Ensures.pure ⟨hu.ready, hu.store, hu.held⟩

/-- Only an open copy passes. -/
theorem requireOpen_ensures (t : Transition) : Ensures (requireOpen t) ⟨e, c⟩
    (fun _ g => g = ⟨e, c⟩ ∧ c.completed = none) (fun _ g => g = ⟨e, c⟩) := by
  apply Ensures.bind
  apply Ensures.held
  split
  · exact Ensures.throw rfl
  · rename_i ho
    exact Ensures.pure ⟨rfl, by simpa [Context.isCompleted] using ho⟩

namespace Handles
variable {act : OnCopy α}

/-- Before the deed nothing is written, so the copy is as open as it was. -/
theorem idle_bind {next : α → OnCopy β} (he : e.Ready) (h : Idles act)
    (hn : ∀ a g, Undisturbed e c g → Handles D g.state g.held (next a)) :
    Handles D e c (act >>= next) := by
  apply Ensures.bind
  refine (h e c he).mono ?_ (fun _ _ hu => hu.handled)
  intro a g hu
  exact (hn a g hu).mono (fun _ _ hh => hh.after hu) (fun _ _ hh => hh.after hu)

theorem held_bind {next : Context → OnCopy β} (h : Handles D e c (next c)) :
    Handles D e c (Action.held >>= next) := by
  apply Ensures.bind
  apply Ensures.held
  exact h

theorem bind_idle {next : α → OnCopy β} (h : Handles D e c act) (hn : ∀ a, Idles (next a)) :
    Handles D e c (act >>= next) := by
  apply Ensures.bind
  refine Ensures.mono h ?_ (fun _ _ hh => hh)
  intro a g hh
  exact (hn a g.state g.held hh.ready).mono (fun _ _ hu => hh.undisturbed hu)
    (fun _ _ hu => hh.undisturbed hu)

theorem of_idles (he : e.Ready) (h : Idles act) : Handles D e c act :=
  (h e c he).mono (fun _ _ hu => hu.handled) (fun _ _ hu => hu.handled)

theorem mono (h : Handles D e c act) (hD : ∀ d, D d → D' d) : Handles D' e c act :=
  Ensures.mono h (fun _ _ hh => hh.mono hD) (fun _ _ hh => hh.mono hD)

theorem requireOpen_bind {t : Transition} {next : Unit → OnCopy β} (he : e.Ready)
    (h : c.completed = none → Handles D e c (next ())) : Handles D e c (requireOpen t >>= next) := by
  apply Ensures.bind
  refine (requireOpen_ensures t).mono ?_ ?_
  · rintro _ _ ⟨rfl, ho⟩
    exact h ho
  · rintro _ _ rfl
    exact (Undisturbed.refl he).handled

end Handles

theorem unbound_applyAll (c : Context) (chs : List Context.Change) :
    (c.applyAll chs).unbound = c.unbound.applyAll chs := by
  induction chs generalizing c with
  | nil => rfl
  | cons ch rest ih =>
    have hone : (c.apply ch).unbound = c.unbound.apply ch := by
      cases ch <;> rfl
    change ((c.apply ch).applyAll rest).unbound = (c.unbound.apply ch).applyAll rest
    rw [ih, hone]

/-- Changes are made on the row and on the copy, or on neither. -/
theorem writeHeld_ensures (he : e.Ready) (chs : List Context.Change) (guarded : Bool) :
    Ensures (writeHeld chs guarded) ⟨e, c⟩
      (fun _ g => g.state.Ready ∧ ∃ i r time updated, c.id = some i ∧
        Store.Changed e.store i chs time r g.state.store ∧ (guarded = true → c.version = r.version) ∧
        g.held = { c.applyAll chs with version := r.version + 1, updated })
      (fun _ g => Undisturbed e c g) := by
  apply Ensures.bind
  apply Ensures.held
  apply Ensures.bind
  apply Ensures.beside
  refine (update_ensures he _ _ _).mono ?_ (fun _ _ hu => ⟨hu.1, hu.2, rfl⟩)
  rintro v e' ⟨hr, hdated, i, r, time, hid, hch, rfl, hx⟩
  apply Ensures.bind
  apply Ensures.beside
  refine (now_ensures hdated).mono ?_ (fun _ _ hf => hf.elim)
  rintro updated _ rfl
  apply Ensures.alter
  refine ⟨hr, i, r, time, updated, hid, hch, ?_, rfl⟩
  rintro rfl
  exact hx c.version rfl

/-- A write is a deed when its changes are those of the deed. -/
theorem writeHeld_handles (he : e.Ready) {d : Deed} (hd : D d) (ho : c.completed = none)
    {chs : List Context.Change} (hchs : chs = d.changes c.results) {guarded : Bool}
    (hg : guarded = true ∨ ∃ t, d = .finish t) : Handles D e c (writeHeld chs guarded) := by
  subst hchs
  refine (writeHeld_ensures he _ _).mono ?_ (fun _ _ hu => hu.handled)
  rintro _ g ⟨hr, i, r, time, updated, hid, hch, hv, hheld⟩
  refine ⟨hr, .inr ⟨d, hd, i, r, time, updated, hid, ho, hch, ?_, ?_⟩⟩
  · exact hg.imp hv id
  · rw [hheld, ← unbound_applyAll]
    rfl

/-! ## The transitions -/

private theorem abandon_handles (he : e.Ready) (ho : c.completed = none) (node : Json) :
    Handles (fun d => ∃ t, d = .finish t) e c (abandon node : OnCopy α) := by
  unfold abandon
  apply Handles.held_bind
  refine Handles.idle_bind he (remark_idles _ _) ?_
  intro _ g hu
  refine Handles.idle_bind hu.ready (.beside now_yields.quietly) ?_
  intro t g' hu'
  have ho' : g'.held.completed = none := hu'.completed.trans (hu.completed.trans ho)
  refine Handles.bind_idle ?_ ?_
  · exact writeHeld_handles (d := .finish t) hu'.ready ⟨t, rfl⟩ ho' rfl (.inr ⟨t, rfl⟩)
  · intro _
    exact Idles.held.bind fun _ => .throw _

/-- An advance moves the context or finishes it. -/
theorem advance_handles (he : e.Ready) (choice : Json) :
    Handles (fun d => (∃ v, d = .move v) ∨ ∃ t, d = .finish t) e c (advance choice) := by
  unfold advance
  apply Handles.requireOpen_bind he
  intro ho
  refine Handles.idle_bind he bind_idles ?_
  intro index g hu
  apply Handles.held_bind
  refine Handles.idle_bind hu.ready (.ofExcept _) ?_
  intro found g₁ hu₁
  have ho₁ : g₁.held.completed = none := hu₁.completed.trans (hu.completed.trans ho)
  split
  · exact (abandon_handles hu₁.ready ho₁ _).mono fun _ => .inr
  · refine Handles.idle_bind hu₁.ready (.ofExcept _) ?_
    intro destination g₂ hu₂
    have ho₂ : g₂.held.completed = none := hu₂.completed.trans ho₁
    split
    · refine Handles.idle_bind hu₂.ready (.beside now_yields.quietly) ?_
      intro t g₃ hu₃
      have ho₃ : g₃.held.completed = none := hu₃.completed.trans ho₂
      refine Handles.bind_idle ?_ fun _ => remark_idles _ _
      exact writeHeld_handles (d := .finish t) hu₃.ready (.inr ⟨t, rfl⟩) ho₃ rfl (.inl rfl)
    · rename_i v
      refine Handles.idle_bind hu₂.ready (.ofExcept _) ?_
      intro there g₃ hu₃
      have ho₃ : g₃.held.completed = none := hu₃.completed.trans ho₂
      split
      · exact (abandon_handles hu₃.ready ho₃ _).mono fun _ => .inr
      · refine Handles.bind_idle ?_ fun _ => remark_idles _ _
        exact writeHeld_handles (d := .move v) hu₃.ready (.inl ⟨v, rfl⟩) ho₃ rfl (.inl rfl)

theorem suspend_handles (he : e.Ready) (wakeup : Option Moment) :
    Handles (· = .park wakeup) e c (suspend wakeup) := by
  unfold suspend
  apply Handles.requireOpen_bind he
  intro ho
  refine Handles.bind_idle ?_ ?_
  · exact writeHeld_handles (D := (· = .park wakeup)) he rfl ho rfl (.inl rfl)
  · intro _
    split
    · exact Idles.held.bind fun _ => remark_idles _ _
    · exact .throw _

theorem resume_handles (he : e.Ready) : Handles (· = .park none) e c resume := by
  unfold resume
  apply Handles.requireOpen_bind he
  intro ho
  refine Handles.bind_idle ?_ fun _ => Idles.held.bind fun _ => remark_idles _ _
  exact writeHeld_handles (D := (· = .park none)) he rfl ho rfl (.inl rfl)

theorem complete_handles (he : e.Ready) : Handles (fun d => ∃ t, d = .finish t) e c complete := by
  unfold complete
  apply Handles.requireOpen_bind he
  intro ho
  refine Handles.idle_bind he (.beside now_yields.quietly) ?_
  intro t g hu
  have ho₁ : g.held.completed = none := hu.completed.trans ho
  refine Handles.bind_idle ?_ fun _ => Idles.held.bind fun _ => remark_idles _ _
  exact writeHeld_handles (d := .finish t) hu.ready ⟨t, rfl⟩ ho₁ rfl (.inr ⟨t, rfl⟩)

/-- Values are recorded exactly when the call succeeds; a call without values writes nothing. -/
theorem record_ensures (he : e.Ready) (values : List (String × Json)) :
    Ensures (record values) ⟨e, c⟩
      (fun _ g => g.state.Ready ∧ (values = [] ∧ Undisturbed e c g ∨
        Done (.record values) e.store c.unbound g.state.store g.held.unbound))
      (fun _ g => Undisturbed e c g) := by
  unfold record
  split
  · exact Ensures.throw (.refl he)
  · apply Ensures.bind
    apply Ensures.bind
    apply Ensures.held
    split
    · exact Ensures.throw (.refl he)
    · rename_i ho
      apply Ensures.pure
      split
      · apply Ensures.bind
        apply Ensures.held
        split
        · rename_i old hold
          refine (writeHeld_ensures he _ true).mono ?_ (fun _ _ hu => hu)
          rintro _ g ⟨hr, i, r, time, updated, hid, hch, hv, hheld⟩
          have hchs : (Deed.record values).changes c.unbound.results =
              [.results (.object (Table.merge old values))] := by
            change (Deed.record values).changes c.results = _
            rw [hold]
            rfl
          refine ⟨hr, .inr ⟨i, r, time, updated, hid, ?_, hchs ▸ hch, .inl (hv rfl), ?_⟩⟩
          · simpa [Context.isCompleted, Context.unbound] using ho
          · rw [hheld, hchs, ← unbound_applyAll]
            rfl
        · exact Ensures.throw (.refl he)
      · rename_i hv
        exact Ensures.pure ⟨he, .inl ⟨by simpa using hv, .refl he⟩⟩

theorem record_handles (he : e.Ready) (values : List (String × Json)) :
    Handles (· = .record values) e c (record values) := by
  refine (record_ensures he values).mono ?_ (fun _ _ hu => hu.handled)
  rintro _ g ⟨hr, ⟨_, hu⟩ | hd⟩
  · exact hu.handled
  · exact ⟨hr, .inr ⟨_, rfl, hd⟩⟩

end DurableFlow.Engine
