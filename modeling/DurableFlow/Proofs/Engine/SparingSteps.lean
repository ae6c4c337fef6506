import DurableFlow.Proofs.Engine.StoreWrites
import DurableFlow.Proofs.PlainFailures
import DurableFlow.Proofs.Store.StoredFlows

/-! Steps of an engine that spare its flows and fail plainly if they fail: reads, writes, remarks and
waiting. Of the steps that load flows only the plain failure is left to tell. -/
namespace DurableFlow.Engine
open DurableFlow.Action (Ensures)
open Store (SameFlows)
variable {α β : Type}

/-- The registry is the same before and after, and so are the stored flows where no other client
writes. -/
structure Spared (e e' : Engine) : Prop where
  registry : e'.registry = e.registry
  alone : e.others = [] → e'.others = []
  flows : e.others = [] → SameFlows e.store e'.store

namespace Spared
variable {e e' e'' : Engine}

theorem refl : Spared e e := ⟨rfl, id, fun _ => .refl⟩

theorem trans (h : Spared e e') (h' : Spared e' e'') : Spared e e'' :=
  ⟨h'.registry.trans h.registry, fun he => h'.alone (h.alone he),
    fun he => (h.flows he).trans (h'.flows (h.alone he))⟩

theorem of_eq (hr : e'.registry = e.registry) (ho : e'.others = e.others)
    (hs : e'.store = e.store) : Spared e e' := ⟨hr, ho.trans, fun _ => .of_eq hs⟩

end Spared

def ErrsWithin (ways : Failure → Bool) (act : Run α) : Prop :=
  ∀ e, Ensures act e (fun _ _ => True) (fun f _ => ways f = true)

abbrev Fair (act : Run α) : Prop := ErrsWithin Failure.isPlain act

def Spares (act : Run α) : Prop :=
  ∀ e, Ensures act e (fun _ e' => Spared e e') (fun f e' => Spared e e' ∧ f.isPlain = true)

namespace ErrsWithin
variable {act : Run α} {ways : Failure → Bool}

protected theorem pure (a : α) : ErrsWithin ways (pure a : Run α) := fun _ => Ensures.pure trivial

protected theorem throw {f : Failure} (h : ways f = true) : ErrsWithin ways (throw f : Run α) :=
  fun _ => Ensures.throw h

protected theorem ofExcept {r : Except Failure α} (h : FailsWithin ways r) :
    ErrsWithin ways (Action.ofExcept r) :=
  fun _ => Ensures.ofExcept (fun _ _ => trivial) h

protected theorem get : ErrsWithin ways (get : Run Engine) := fun _ => Ensures.get trivial

protected theorem set (e : Engine) : ErrsWithin ways (set e : Run PUnit) := fun _ => Ensures.set trivial

protected theorem modify (f : Engine → Engine) : ErrsWithin ways (modify f : Run PUnit) :=
  fun _ => Ensures.modify trivial

protected theorem bind {next : α → Run β} (h : ErrsWithin ways act)
    (hn : ∀ a, ErrsWithin ways (next a)) : ErrsWithin ways (act >>= next) := fun e =>
  Ensures.bind ((h e).mono (fun a e' _ => hn a e') (fun _ _ hf => hf))

end ErrsWithin

namespace Spares
variable {act : Run α}

theorem fair (h : Spares act) : Fair act := fun e =>
  (h e).mono (fun _ _ _ => trivial) (fun _ _ hf => hf.2)

protected theorem pure (a : α) : Spares (pure a : Run α) := fun _ => Ensures.pure .refl

protected theorem throw {f : Failure} (h : f.isPlain = true) : Spares (throw f : Run α) :=
  fun _ => Ensures.throw ⟨.refl, h⟩

protected theorem ofExcept {r : Except Failure α} (h : Plainly r) : Spares (Action.ofExcept r) :=
  fun _ => Ensures.ofExcept (fun _ _ => .refl) (fun f hf => ⟨.refl, h f hf⟩)

protected theorem get : Spares (get : Run Engine) := fun _ => Ensures.get .refl

protected theorem modify {f : Engine → Engine} (h : ∀ e, Spared e (f e)) :
    Spares (modify f : Run PUnit) := fun e => Ensures.modify (h e)

protected theorem bind {next : α → Run β} (h : Spares act) (hn : ∀ a, Spares (next a)) :
    Spares (act >>= next) := by
  intro e
  apply Ensures.bind
  refine (h e).mono ?_ (fun _ _ hf => hf)
  intro a e' hr
  exact (hn a e').mono (fun _ _ hr' => hr.trans hr') (fun _ _ hf => ⟨hr.trans hf.1, hf.2⟩)

/-- Only what has been read right before may be written back. -/
theorem get_bind {next : Engine → Run α} (h : ∀ e, Ensures (next e) e
    (fun _ e' => Spared e e') (fun f e' => Spared e e' ∧ f.isPlain = true)) :
    Spares (get >>= next) := fun e => Ensures.bind (Ensures.get (h e))

end Spares

theorem note_spares (level : Level) (text : String) : Spares (note level text) :=
  .modify fun _ => .of_eq rfl rfl rfl

theorem instant_spares : Spares instant :=
  Spares.get.bind fun _ => .ofExcept (Moment.dated_commonly _).plainly

theorem now_spares : Spares now := instant_spares.bind fun _ => .pure _

theorem elapse_spares (seconds : Binary64) : Spares (elapse seconds) :=
  (Spares.ofExcept (Amount.nearestInteger_commonly _).plainly).bind fun _ =>
    .modify fun _ => .of_eq rfl rfl rfl

theorem pause_spares (ms : Int) : Spares (pause ms) := by
  unfold pause
  split
  · exact .modify fun _ => .of_eq rfl rfl rfl
  · refine (Spares.ofExcept (Amount.doubleOf_commonly _).plainly).bind fun _ => ?_
    refine (elapse_spares _).bind fun _ => ?_
    exact (Spares.ofExcept (Amount.nearestInteger_commonly _).plainly).bind fun _ =>
      .modify fun _ => .of_eq rfl rfl rfl

theorem begin_spares (op : Operation) : Spares (begin op) := by
  apply Spares.get_bind
  intro e
  cases hothers : e.others with
  | nil =>
    dsimp only
    split
    · exact Ensures.set .refl
    · apply Ensures.bind
      apply Ensures.set
      split
      · exact Ensures.throw ⟨.of_eq rfl rfl rfl, rfl⟩
      · exact Ensures.pure (.of_eq rfl rfl rfl)
  | cons step rest =>
    -- whoever is not alone owes nothing for the flows
    have hbegun (faults : Faults) :
        Spared e { e with store := step e.store, others := rest, faults } := by
      refine ⟨rfl, fun he => ?_, fun he => ?_⟩
      · rw [hothers] at he
        cases he
      · rw [hothers] at he
        cases he
    dsimp only
    split
    · exact Ensures.set (hbegun _)
    · apply Ensures.bind
      apply Ensures.set
      split
      · exact Ensures.throw ⟨hbegun _, rfl⟩
      · exact Ensures.pure (hbegun _)

theorem ask_spares (op : Operation) {f : Store → Except Failure α} (h : ∀ s, Plainly (f s)) :
    Spares (ask op f) :=
  (begin_spares op).bind fun _ => Spares.get.bind fun _ => .ofExcept (h _)

theorem race_spares (id : Option String) (expected : Option Int) : Spares (race id expected) := by
  apply Spares.get_bind
  intro e
  split
  · apply Ensures.bind
    apply Ensures.set
    split
    · exact Ensures.throw ⟨.of_eq rfl rfl rfl, rfl⟩
    · exact Ensures.pure (.of_eq rfl rfl rfl)
  · exact Ensures.pure .refl

theorem refuseBroken_spares (id : Option String) : Spares (refuseBroken id) := by
  unfold refuseBroken
  split
  · refine Spares.get.bind fun e => ?_
    split
    · exact .throw rfl
    · exact .pure _
  · exact .pure _

theorem write_spares (id : Option String) (changes : List Context.Change)
    (expected : Option Int) : Spares (write id changes expected) := by
  refine instant_spares.bind fun time => ?_
  apply Spares.get_bind
  intro e
  apply Ensures.bind
  apply Ensures.ofExcept
  · rintro ⟨v, s⟩ hu
    apply Ensures.bind
    apply Ensures.set
    exact Ensures.pure ⟨rfl, fun h => h, fun _ => Store.update_sameFlows hu⟩
  · intro f hf
    exact ⟨.refl, (Store.update_commonly _ _ _ _ _ _).plainly f hf⟩

theorem update_spares (id : Option String) (changes : List Context.Change)
    (expected : Option Int) : Spares (update id changes expected) :=
  (begin_spares _).bind fun _ => (race_spares _ _).bind fun _ =>
    (refuseBroken_spares _).bind fun _ => write_spares _ _ _

/-- An insertion spares the flows, too, and fails plainly if it fails. -/
theorem insert_spares (c : Context) : Spares (Action.holding c insert) := by
  intro e
  apply Ensures.holding
  apply Ensures.bind
  apply Ensures.beside
  refine (begin_spares .insert e).mono ?_ (fun _ _ hf => hf)
  intro _ e₁ h₁
  apply Ensures.bind
  apply Ensures.beside
  refine (instant_spares e₁).mono ?_ (fun _ _ hf => ⟨h₁.trans hf.1, hf.2⟩)
  intro time e₂ h₂
  have h := h₁.trans h₂
  apply Ensures.bind
  apply Ensures.get
  have hi := (Store.insert_plainly (freshId (e₂.drawn + 1)) time e₂.store c).and
    (Store.insert_sameFlows (freshId (e₂.drawn + 1)) time e₂.store c)
  cases ho : Store.insert (freshId (e₂.drawn + 1)) time ⟨e₂.store, c⟩ with
  | ok _ g =>
    obtain ⟨_, hflows⟩ := hi.of_eq_ok ho
    simp only [ho]
    apply Ensures.bind
    apply Ensures.set
    apply Ensures.beside
    apply Ensures.modify
    exact h.trans ⟨rfl, fun h => h, fun _ => hflows⟩
  | error f g =>
    obtain ⟨hplain, hflows⟩ := hi.of_eq_error ho
    simp only [ho]
    apply Ensures.bind
    apply Ensures.set
    apply Ensures.throw
    exact ⟨h.trans ⟨rfl, fun h => h, fun _ => hflows⟩, hplain⟩

/-! ## Steps through a copy -/

def HeldSpares (act : OnCopy α) : Prop :=
  ∀ e c, Ensures act ⟨e, c⟩ (fun _ g => Spared e g.state)
    (fun f g => Spared e g.state ∧ f.isPlain = true)

namespace HeldSpares
variable {act : OnCopy α}

protected theorem pure (a : α) : HeldSpares (pure a : OnCopy α) := fun _ _ => Ensures.pure .refl

protected theorem throw {f : Failure} (h : f.isPlain = true) : HeldSpares (throw f : OnCopy α) :=
  fun _ _ => Ensures.throw ⟨.refl, h⟩

protected theorem held : HeldSpares Action.held := fun _ _ => Ensures.held .refl

protected theorem alter (f : Context → Context) : HeldSpares (Action.alter f) :=
  fun _ _ => Ensures.alter .refl

protected theorem beside {act : Run α} (h : Spares act) : HeldSpares (Action.beside act) :=
  fun e _ => Ensures.beside (h e)

protected theorem bind {next : α → OnCopy β} (h : HeldSpares act)
    (hn : ∀ a, HeldSpares (next a)) : HeldSpares (act >>= next) := by
  intro e c
  apply Ensures.bind
  refine (h e c).mono ?_ (fun _ _ hf => hf)
  intro a g hr
  exact (hn a g.state g.held).mono (fun _ _ hr' => hr.trans hr')
    (fun _ _ hf => ⟨hr.trans hf.1, hf.2⟩)

end HeldSpares

theorem remark_heldSpares (level : Level) (text : String) : HeldSpares (remark level text) :=
  .beside (note_spares level text)

theorem requireOpen_heldSpares (t : Transition) : HeldSpares (requireOpen t) := by
  refine HeldSpares.held.bind fun c => ?_
  split
  · exact .throw rfl
  · exact .pure _

theorem writeHeld_heldSpares (changes : List Context.Change) (guarded : Bool) :
    HeldSpares (writeHeld changes guarded) :=
  HeldSpares.held.bind fun _ => (HeldSpares.beside (update_spares _ _ _)).bind fun _ =>
    (HeldSpares.beside now_spares).bind fun _ => .alter _

theorem complete_heldSpares : HeldSpares complete :=
  (requireOpen_heldSpares _).bind fun _ => (HeldSpares.beside now_spares).bind fun _ =>
    (writeHeld_heldSpares _ _).bind fun _ => HeldSpares.held.bind fun _ => remark_heldSpares _ _

/-! ## Loading -/

theorem compile_spares (d : Flow.Definition) (document : List (String × Json)) :
    Spares (compile d document) := by
  refine (Spares.ofExcept (Flow.compile_plainly _ _)).bind fun _ => ?_
  apply Spares.get_bind
  intro e
  apply Ensures.bind
  apply Ensures.set
  have hs : Spared e { e with compiled := e.compiled + 1 } := .of_eq rfl rfl rfl
  apply Ensures.bind
  refine (note_spares _ _ _).mono ?_ (fun _ _ hf => ⟨hs.trans hf.1, hf.2⟩)
  intro _ e' hs'
  exact Ensures.pure (hs.trans hs')

theorem loadDefinition_spares (flow : Int) : Spares (loadDefinition flow) := by
  refine (ask_spares _ (Store.liveRevision_plainly flow)).bind fun r => ?_
  split
  · exact .throw rfl
  · exact (note_spares _ _).bind fun _ => .ofExcept (Flow.clean_plainly _)

theorem loadOne_spares (identifier : Identifier) : Spares (loadOne identifier) := by
  refine (ask_spares _ (Store.getFlow_plainly identifier)).bind fun d => ?_
  split
  · exact .throw rfl
  · exact (loadDefinition_spares _).bind fun _ => compile_spares _ _

theorem file_fair (f : Registry → Registry) : Fair (file f) := .modify _

theorem fetch_fair (identifier : Identifier) : Fair (fetch identifier) := by
  refine ErrsWithin.get.bind fun e => ?_
  split
  · exact .pure _
  · exact (loadOne_spares _).fair.bind fun c => (file_fair _).bind fun _ => .pure _

theorem evict_fair (identifier : Identifier) : Fair (evict identifier) :=
  ErrsWithin.get.bind fun _ => (file_fair _).bind fun _ => .pure _

theorem compileRow_fair (previous : Registry) (d : Flow.Definition)
    (document : List (String × Json)) : Fair (compileRow previous d document) := by
  unfold compileRow
  dsimp only
  split
  · exact .pure _
  · intro e
    apply Ensures.bind
    apply Ensures.attempt
    refine (compile_spares d document e).mono (fun _ _ _ => Ensures.pure trivial) ?_
    rintro f e' ⟨_, hf⟩
    cases f with
    | malformed flow fault =>
      exact ((note_spares _ _).fair.bind fun _ => (file_fair _).bind fun _ => .pure _) e'
    | _ => exact Ensures.throw hf

theorem loadRows_fair (previous : Registry) (rows : List (Flow.Definition × Json)) (loaded : Nat) :
    Fair (loadRows previous rows loaded) := by
  induction rows generalizing loaded with
  | nil => exact ErrsWithin.get.bind fun _ => (note_spares _ _).fair
  | cons row rest ih =>
    unfold loadRows
    refine (ErrsWithin.ofExcept (Flow.clean_plainly _)).bind fun body => ?_
    refine (compileRow_fair _ _ _).bind fun found => ?_
    cases found with
    | none => exact ih loaded
    | some c => exact (file_fair _).bind fun _ => ih (loaded + 1)

theorem loadAll_fair (only : Option Int) : Fair (loadAll only) :=
  (ask_spares _ (Store.activeFlows_plainly only)).fair.bind fun _ =>
    ErrsWithin.get.bind fun _ => loadRows_fair _ _ _

theorem refresh_fair : Fair refresh :=
  ErrsWithin.get.bind fun _ => (file_fair _).bind fun _ =>
    (ask_spares _ (Store.activeFlows_plainly none)).fair.bind fun _ => loadRows_fair _ _ _

end DurableFlow.Engine
