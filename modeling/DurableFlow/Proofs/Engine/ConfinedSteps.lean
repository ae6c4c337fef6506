import DurableFlow.Proofs.Engine.SweptFamilies

/-! Steps that keep to some contexts. Every other row stays, and all that may become of it is that it
waits no longer, for a tick may come to it at any time. -/
namespace DurableFlow

namespace Store
variable {s s' s'' : Store} {T T' : String → Prop} {i : String}

/-- Outside some contexts every row is still there, and has at most ceased to wait. -/
structure KeptOutside (T : String → Prop) (s s' : Store) : Prop where
  kind : s'.kind = s.kind
  rows : ∀ j r, ¬ T j → s.row? j = some r →
    ∃ r', s'.row? j = some r' ∧ Lives s.kind (· = .park none) r r'

namespace KeptOutside

theorem refl : KeptOutside T s s := ⟨rfl, fun _ r _ hr => ⟨r, hr, .refl⟩⟩

theorem of_eq (h : s' = s) : KeptOutside T s s' := h ▸ refl

theorem trans (h : KeptOutside T s s') (h' : KeptOutside T s' s'') : KeptOutside T s s'' := by
  refine ⟨h'.kind.trans h.kind, ?_⟩
  intro j r hj hr
  obtain ⟨r', hr', hl⟩ := h.rows j r hj hr
  obtain ⟨r'', hr'', hl'⟩ := h'.rows j r' hj hr'
  exact ⟨r'', hr'', hl.trans (h.kind ▸ hl')⟩

theorem mono (h : KeptOutside T s s') (hT : ∀ j, T j → T' j) : KeptOutside T' s s' :=
  ⟨h.kind, fun j r hj => h.rows j r fun ht => hj (hT j ht)⟩

theorem of_others (hk : s'.kind = s.kind) (h : ∀ j, ¬ T j → s'.row? j = s.row? j) :
    KeptOutside T s s' :=
  ⟨hk, fun j r hj hr => ⟨r, (h j hj).trans hr, .refl⟩⟩

/-- Deeds that end a wait, or none at all, keep to any contexts. -/
theorem of_evolves {D : Deed → Prop} (h : Evolves D s s') (hD : ∀ d, D d → d = .park none) :
    KeptOutside T s s' := by
  refine ⟨h.kind, ?_⟩
  intro j r _ hr
  obtain ⟨r', hr', hl⟩ := h.kept j r hr
  exact ⟨r', hr', hl.mono hD⟩

end KeptOutside

/-- A deed through a copy keeps to the context of the copy. -/
theorem Acted.keptOutside {D : Deed → Prop} {c c' : Context} (h : Acted D s c s' c')
    (hc : ∀ i, c.id = some i → T i) : KeptOutside T s s' := by
  obtain ⟨hs, _⟩ | ⟨_, _, i, _, _, _, hid, _, hch, _⟩ := h
  · exact .of_eq hs
  · refine .of_others hch.kind fun j hj => hch.others j ?_
    rintro rfl
    exact hj (hc j hid)

end Store

namespace Engine
open DurableFlow.Action (Ensures)
open Store (Acted KeptOutside)
variable {α β : Type} {T : String → Prop} {e e' e'' : Engine} {c : Context}
  {g g' : Holding Engine Context}

/-! ## Steps beside a copy -/

structure KeepsTo (T : String → Prop) (e e' : Engine) : Prop where
  ready : e'.Ready
  kept : KeptOutside T e.store e'.store

namespace KeepsTo

theorem of_eq (hr : e'.Ready) (hs : e'.store = e.store) : KeepsTo T e e' := ⟨hr, .of_eq hs⟩

theorem trans (h : KeepsTo T e e') (h' : KeepsTo T e' e'') : KeepsTo T e e'' :=
  ⟨h'.ready, h.kept.trans h'.kept⟩

end KeepsTo

def Confined (T : String → Prop) (act : Run α) : Prop :=
  ∀ e, e.Ready → Ensures act e (fun _ e' => KeepsTo T e e') (fun _ e' => KeepsTo T e e')

namespace Confined
variable {act : Run α}

protected theorem pure (a : α) : Confined T (pure a : Run α) := fun _ he => ⟨he, .refl⟩

protected theorem throw (f : Failure) : Confined T (throw f : Run α) := fun _ he => ⟨he, .refl⟩

protected theorem ofExcept (r : Except Failure α) : Confined T (Action.ofExcept r) := fun _ he =>
  Ensures.ofExcept (fun _ _ => ⟨he, .refl⟩) (fun _ _ => ⟨he, .refl⟩)

theorem of_quietly (h : Quietly act) : Confined T act := fun e he =>
  (h e he.alone).mono (fun _ _ hq => .of_eq (he.quiet hq) hq.store)
    (fun _ _ hq => .of_eq (he.quiet hq) hq.store)

protected theorem bind {next : α → Run β} (h : Confined T act) (hn : ∀ a, Confined T (next a)) :
    Confined T (act >>= next) := by
  intro e he
  apply Ensures.bind
  refine (h e he).mono ?_ (fun _ _ hk => hk)
  intro a e₁ hk
  exact (hn a e₁ hk.ready).mono (fun _ _ => hk.trans) (fun _ _ => hk.trans)

end Confined

theorem start_confined (graph : Flow.Graph) (contact : Json) (parent : Option String) :
    Confined T (start graph contact parent) := fun _ he =>
  (start_ensures he graph contact parent).mono
    (fun _ _ h => ⟨h.1, .of_evolves h.2.1 fun _ hf => hf.elim⟩) (fun _ _ h => .of_eq h.1 h.2)

theorem load_confined (i : String) : Confined T (load (some i)) := fun _ he =>
  (load_ensures he i).mono (fun _ _ h => .of_eq h.1 h.2.1) (fun _ _ h => .of_eq h.1 h.2)

/-- A tick comes to rows that wait, but only to end their waiting. -/
theorem tick_confined (time : Option Moment) (limit : Json) : Confined T (tick time limit) :=
  fun _ he => (tick_wakes he time limit).mono
    (fun _ _ h => ⟨h.1.ready, .of_evolves h.1.evolves fun _ hd => hd⟩)
    (fun _ _ h => ⟨h.ready, .of_evolves h.evolves fun _ hd => hd⟩)

/-! ## Steps through a copy -/

def IsAmong (T : String → Prop) (c : Context) : Prop := ∀ i, c.id = some i → T i

/-- A step that keeps to some contexts when it is taken through a copy of one of them. -/
def HeldConfined (T : String → Prop) (act : OnCopy α) : Prop := ∀ e c, e.Ready → IsAmong T c →
  Ensures act ⟨e, c⟩ (fun _ g => KeepsTo T e g.state ∧ IsAmong T g.held)
    (fun _ g => KeepsTo T e g.state ∧ IsAmong T g.held)

namespace HeldConfined
variable {act : OnCopy α}

protected theorem pure (a : α) : HeldConfined T (pure a : OnCopy α) := fun _ _ he hc =>
  ⟨⟨he, .refl⟩, hc⟩

protected theorem throw (f : Failure) : HeldConfined T (throw f : OnCopy α) := fun _ _ he hc =>
  ⟨⟨he, .refl⟩, hc⟩

protected theorem held : HeldConfined T (Action.held : OnCopy Context) := fun _ _ he hc =>
  ⟨⟨he, .refl⟩, hc⟩

protected theorem bind {next : α → OnCopy β} (h : HeldConfined T act)
    (hn : ∀ a, HeldConfined T (next a)) : HeldConfined T (act >>= next) := by
  intro e c he hc
  apply Ensures.bind
  refine (h e c he hc).mono ?_ (fun _ _ hk => hk)
  rintro a g ⟨hk, hg⟩
  exact (hn a g.state g.held hk.ready hg).mono (fun _ _ h => ⟨hk.trans h.1, h.2⟩)
    (fun _ _ h => ⟨hk.trans h.1, h.2⟩)

protected theorem beside {act : Run α} (h : Confined T act) : HeldConfined T (Action.beside act) :=
  fun e _ he hc => Ensures.beside ((h e he).mono (fun _ _ hk => ⟨hk, hc⟩) (fun _ _ hk => ⟨hk, hc⟩))

theorem of_idles (h : Idles act) : HeldConfined T act := by
  have hkeeps (e : Engine) (c : Context) (hc : IsAmong T c) (g : Holding Engine Context)
      (hu : Undisturbed e c g) : KeepsTo T e g.state ∧ IsAmong T g.held := by
    refine ⟨.of_eq hu.ready hu.store, ?_⟩
    change IsAmong T g.held.unbound
    rw [hu.held]
    exact hc
  intro e c he hc
  exact (h e c he).mono (fun _ => hkeeps e c hc) (fun _ => hkeeps e c hc)

/-- A transition writes to the context of its copy alone. -/
theorem of_handles {D : Store.Deed → Prop} (h : ∀ e c, e.Ready → Handles D e c act) :
    HeldConfined T act := by
  have hkeeps (e : Engine) (c : Context) (hc : IsAmong T c) (g : Holding Engine Context)
      (hh : Handled D e c g) : KeepsTo T e g.state ∧ IsAmong T g.held := by
    refine ⟨⟨hh.ready, hh.acted.keptOutside hc⟩, ?_⟩
    change IsAmong T g.held.unbound
    obtain ⟨_, hsame⟩ | ⟨_, _, hdone⟩ := hh.acted
    · rw [hsame]
      exact hc
    · intro i hid
      exact hc i (hdone.sameFrame.id.symm.trans hid)
  intro e c he hc
  exact Ensures.mono (h e c he) (fun _ => hkeeps e c hc) (fun _ => hkeeps e c hc)

/-- An operation on a copy of its own keeps to the context of the copy. -/
theorem holding (h : HeldConfined T act) (hc : IsAmong T c) :
    Confined T (Action.holding c act) := fun e he =>
  Ensures.holding ((h e c he hc).mono (fun _ _ h => h.1) (fun _ _ h => h.1))

end HeldConfined

theorem resume_confined : HeldConfined T resume :=
  .of_handles fun _ _ he => resume_handles he

theorem complete_confined : HeldConfined T complete :=
  .of_handles fun _ _ he => complete_handles he

theorem suspend_confined (wakeup : Option Moment) : HeldConfined T (suspend wakeup) :=
  .of_handles fun _ _ he => suspend_handles he wakeup

theorem advance_confined (choice : Json) : HeldConfined T (advance choice) :=
  .of_handles fun _ _ he => advance_handles he choice

theorem record_confined (values : List (String × Json)) : HeldConfined T (record values) :=
  .of_handles fun _ _ he => record_handles he values

private theorem requireOpen_idles (t : Transition) : Idles (requireOpen t) := by
  intro e c he
  refine (requireOpen_ensures t).mono ?_ ?_
  · rintro _ _ ⟨rfl, _⟩
    exact .refl he
  · rintro _ _ rfl
    exact .refl he

/-- An entry writes to the parent, and files a row that nobody knew. -/
theorem enterSubFlow_confined (flow : Identifier) (wakeup : Option Moment) :
    HeldConfined T (enterSubFlow flow wakeup) := by
  have hfile (found : Compilation) : HeldConfined T (do
      let parent ← Action.held
      let child ← Action.beside (start found.graph parent.contact parent.id)
      remark .debug ("Context " ++ plainText? parent.id ++ " entered sub-flow " ++
        plainInt? found.graph.id ++ ": child=" ++ plainText? child.id)
      return child) := by
    refine .bind .held fun parent => .bind (.beside (start_confined _ _ _)) fun child => ?_
    exact .bind (.of_idles (remark_idles _ _)) fun _ => .pure child
  unfold enterSubFlow
  refine .bind (.of_idles (requireOpen_idles _)) fun _ => ?_
  refine .bind (.beside (.of_quietly (fetch_yields flow).quietly)) fun found => ?_
  dsimp only
  split
  · exact .throw _
  · split
    · exact .bind (suspend_confined wakeup) fun _ => hfile found
    · exact hfile found

private theorem handBack_confined {parent : Context} (hown : IsAmong T parent)
    (text : Context → String) : HeldConfined T (do
      let parent ← if parent.isSuspended then
          Action.beside do return (← Action.holding parent resume).2
        else pure parent
      remark .debug (text parent)
      return parent) := by
  have hlast (parent : Context) : HeldConfined T (do remark .debug (text parent); return parent) :=
    .bind (.of_idles (remark_idles _ _)) fun _ => .pure parent
  dsimp only
  split
  · have hresume : Confined T (do return (← Action.holding parent resume).2 : Run Context) :=
      .bind (resume_confined.holding hown) fun _ => .pure _
    exact .bind (.beside hresume) hlast
  · exact hlast parent

/-- An exit writes to the child and to its parent, and to no other context. -/
theorem exitSubFlow_confined (he : e.Ready) (hc : IsAmong T c) (hp : ∀ p, c.parent = some p → T p) :
    Ensures exitSubFlow ⟨e, c⟩ (fun _ g => KeepsTo T e g.state) (fun _ g => KeepsTo T e g.state) := by
  unfold exitSubFlow
  apply Ensures.bind
  apply Ensures.held
  split
  · exact Ensures.throw ⟨he, .refl⟩
  · rename_i p hparent
    have hleave (e₁ : Engine) (c₁ : Context) (hk : KeepsTo T e e₁) (hc₁ : IsAmong T c₁) :
        Ensures (do
          let parent ← Action.beside (load (some p))
          let parent ← if parent.isSuspended then
              Action.beside do return (← Action.holding parent resume).2
            else pure parent
          remark .debug ("Context " ++ plainText? c.id ++ " returned to parent " ++
            plainText? parent.id)
          return parent) ⟨e₁, c₁⟩ (fun _ g => KeepsTo T e g.state) (fun _ g => KeepsTo T e g.state) := by
      apply Ensures.bind
      apply Ensures.beside
      refine (load_ensures hk.ready p).mono ?_ (fun _ _ h => hk.trans (.of_eq h.1 h.2))
      rintro parent e₂ ⟨hr, hs, _, hid⟩
      have hk₂ := hk.trans (.of_eq hr hs)
      have hown : IsAmong T parent := by
        intro j hj
        rw [hid] at hj
        cases hj
        exact hp p hparent
      exact (handBack_confined hown _ e₂ c₁ hr hc₁).mono (fun _ _ h => hk₂.trans h.1)
        (fun _ _ h => hk₂.trans h.1)
    dsimp only
    split
    · apply Ensures.bind
      refine (HeldConfined.of_idles (remark_idles .warning _) e c he hc).mono ?_ (fun _ _ h => h.1)
      rintro _ g ⟨hk, hg⟩
      apply Ensures.bind
      refine (complete_confined g.state g.held hk.ready hg).mono ?_ (fun _ _ h => hk.trans h.1)
      rintro _ g' ⟨hk', hg'⟩
      exact hleave g'.state g'.held (hk.trans hk') hg'
    · exact hleave e c ⟨he, .refl⟩ hc

/-! ## Operations by the ids of contexts -/

private theorem loaded_confined {i : String} {next : Context → Run α} (hi : T i)
    (h : ∀ c, IsAmong T c → Confined T (next c)) : Confined T (load (some i) >>= next) := by
  intro e he
  apply Ensures.bind
  refine (load_ensures he i).mono ?_ (fun _ _ hs => .of_eq hs.1 hs.2)
  rintro c e₁ ⟨hr, hs, _, hid⟩
  have hk : KeepsTo T e e₁ := .of_eq hr hs
  have hc : IsAmong T c := by
    intro j hj
    rw [hid] at hj
    cases hj
    exact hi
  exact (h c hc e₁ hr).mono (fun _ _ => hk.trans) (fun _ _ => hk.trans)

theorem suspendById_confined {i : String} (hi : T i) (wakeup : Option Moment) :
    Confined T (suspendById (some i) wakeup) :=
  loaded_confined hi fun _ hc => .bind ((suspend_confined wakeup).holding hc) fun _ => .pure _

theorem enterById_confined {i : String} (hi : T i) (flow : Identifier) (wakeup : Option Moment) :
    Confined T (enterById (some i) flow wakeup) :=
  loaded_confined hi fun _ hc => .bind ((enterSubFlow_confined flow wakeup).holding hc) fun _ => .pure _

theorem startFlow_confined (flow : Identifier) (contact : Json) :
    Confined T (startFlow flow contact) :=
  .bind (.of_quietly (fetch_yields flow).quietly) fun _ => start_confined _ _ _

private theorem take_confined (choice results : Json) : HeldConfined T (take choice results) := by
  have hgiven : HeldConfined T (recordGiven results) := by
    unfold recordGiven
    split
    · split
      · exact record_confined _
      · exact .throw _
    · exact .pure _
  have hrest : HeldConfined T (do recordGiven results; advance choice) :=
    .bind hgiven fun _ => advance_confined choice
  unfold take
  refine .bind .held fun c => ?_
  dsimp only
  split
  · exact .bind resume_confined fun _ => hrest
  · exact hrest

private theorem tryInput_confined {i : String} (hi : T i) (choice results : Json) :
    Confined T (tryInput (some i) choice results) := by
  refine loaded_confined hi fun c hc => .bind (.ofExcept _) fun _ => .bind ?_ fun r => ?_
  · intro e he
    exact Ensures.attempt (((take_confined choice results).holding hc) e he)
  · cases r with
    | ok p => exact .pure _
    | error f => cases f <;> first | exact .pure _ | exact .throw _

/-- An input keeps to its context, however often it is tried. -/
theorem deliver_confined {i : String} (hi : T i) (choice results : Json) :
    Confined T (deliver (some i) choice results) := by
  have hgiveUp (attempt : Int) (f : Failure) : Confined T (giveUp (some i) attempt f) :=
    .bind (.of_quietly (note_yields _ _).quietly) fun _ => .throw f
  have hfrom (more : Nat) (attempt : Int) :
      Confined T (deliverFrom (some i) choice results attempt more) := by
    induction more generalizing attempt with
    | zero =>
      refine .bind (tryInput_confined hi choice results) fun r => ?_
      cases r with
      | ok c => exact .pure c
      | error f => exact hgiveUp attempt f
    | succ more ih =>
      refine .bind (tryInput_confined hi choice results) fun r => ?_
      cases r with
      | ok c => exact .pure c
      | error f =>
        refine .bind (.of_quietly Yielding.get.quietly) fun e => .bind (.ofExcept _) fun delay => ?_
        cases delay with
        | none => exact hgiveUp attempt f
        | some ms =>
          refine .bind (.of_quietly (note_yields _ _).quietly) fun _ => ?_
          exact .bind (.of_quietly (pause_yields ms).quietly) fun _ => ih _
  exact .bind (.of_quietly Yielding.get.quietly) fun e => hfrom _ _

/-- An exit writes to the child that it loads, and to the parent that the row of the child names. -/
theorem exitById_confined (he : e.Ready) {i : String} (hi : T i)
    (hp : ∀ p, parentOf e.store i = some p → T p) :
    Ensures (exitById (some i)) e (fun _ e' => KeepsTo T e e') (fun _ e' => KeepsTo T e e') := by
  unfold exitById
  apply Ensures.bind
  refine (load_copies he i).mono ?_ (fun _ _ h => .of_eq h.1 h.2)
  rintro c e₁ ⟨hr, hs, hid, _, ⟨j, r, hj, hrow, rfl⟩, hc⟩
  have hk : KeepsTo T e e₁ := .of_eq hr hs
  have hij : some j = some i := by
    rw [← hid, ← hj]
    exact (congrArg Context.id hc).symm
  cases hij
  have hown : IsAmong T c := by
    intro k hk
    rw [hid] at hk
    cases hk
    exact hi
  have hparent (p : String) (h : c.parent = some p) : T p := by
    refine hp p ?_
    rw [parentOf, hrow]
    exact (congrArg Context.parent hc).symm.trans h
  apply Ensures.bind
  apply Ensures.holding
  refine (exitSubFlow_confined hr hown hparent).mono ?_ (fun _ _ h => hk.trans h)
  intro _ g h
  exact Ensures.pure (hk.trans h)

private theorem keptOutside_of_sweep {s s' : Store} (h : Sweep T s s') : KeptOutside T s s' :=
  .of_others h.kind fun j hj => (h.rows j).resolve_right fun hswept => hj hswept.1

/-- In a rooted store a cancellation keeps to the family of its context. -/
theorem cancel_confined (he : e.Ready) (hroot : Rooted e.store) (i : String) (cascade : Bool) :
    Ensures (cancel (some i) cascade) e
      (fun _ e' => KeepsTo (fun j => ∃ k, Below e.store k i j) e e')
      (fun _ e' => KeepsTo (fun j => ∃ k, Below e.store k i j) e e') := by
  cases cascade with
  | true =>
    refine ((cancel_ensures he i true).and (cancel_sweeps he hroot i)).mono ?_ ?_
    · rintro _ e' ⟨⟨hm, _⟩, hsweep, _⟩
      exact ⟨hm.ready, keptOutside_of_sweep hsweep⟩
    · rintro _ e' ⟨hm, hbroken⟩
      refine ⟨hm.ready, (keptOutside_of_sweep hbroken.sweep).mono ?_⟩
      rintro j ⟨k, _, hb⟩
      exact ⟨k, hb⟩
  | false =>
    unfold cancel
    apply Ensures.bind
    refine (stored_ensures he i).mono ?_ (fun _ _ hq => .of_eq (he.quiet hq) hq.store)
    rintro c e₁ ⟨hq, _, hid⟩
    have hk : KeepsTo (fun j => ∃ k, Below e.store k i j) e e₁ := .of_eq (he.quiet hq) hq.store
    have hown : IsAmong (fun j => ∃ k, Below e.store k i j) c := by
      intro j hj
      rw [hid] at hj
      cases hj
      exact ⟨0, rfl⟩
    have hcomplete : Confined (fun j => ∃ k, Below e.store k i j)
        (do return (← Action.holding c complete).2 : Run Context) :=
      .bind (complete_confined.holding hown) fun _ => .pure _
    dsimp only
    split
    · exact Ensures.throw hk
    · exact (hcomplete e₁ hk.ready).mono (fun _ _ => hk.trans) (fun _ _ => hk.trans)

end Engine
end DurableFlow
