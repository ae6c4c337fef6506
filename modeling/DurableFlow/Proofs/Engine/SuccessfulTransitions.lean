import DurableFlow.Proofs.Engine.HeldTransitions

/-! What the answer of a transition tells. Of the transitions only a forced completion succeeds
through a copy that is behind its row; it succeeds through an open copy, and closes it. An advance
that fails has written nothing, unless it has found that a node is missing. -/
namespace DurableFlow.Engine
open DurableFlow.Action (Ensures)
variable {α β : Type} {e : Engine} {c : Context} {g : Holding Engine Context}

def Abreast (s : Store) (c : Context) : Prop :=
  c.completed = none ∧ ∃ i r, c.id = some i ∧ s.row? i = some r ∧ c.version = r.version

private theorem Abreast.of_undisturbed (h : Abreast g.state.store g.held)
    (hu : Undisturbed e c g) : Abreast e.store c := by
  have hun : Abreast g.state.store g.held.unbound := h
  rw [hu.store, hu.held] at hun
  exact hun

def Requires (e : Engine) (c : Context) (act : OnCopy α) : Prop :=
  Ensures act ⟨e, c⟩ (fun _ _ => Abreast e.store c) (fun _ _ => True)

namespace Requires

private theorem idle_bind {act : OnCopy α} {next : α → OnCopy β} (he : e.Ready) (h : Idles act)
    (hn : ∀ a g, Undisturbed e c g → Requires g.state g.held (next a)) :
    Requires e c (act >>= next) := by
  apply Ensures.bind
  refine (h e c he).mono ?_ (fun _ _ _ => trivial)
  intro a g hu
  exact Ensures.mono (hn a g hu) (fun _ _ hb => hb.of_undisturbed hu) (fun _ _ _ => trivial)

private theorem write_bind {chs : List Context.Change} {next : Unit → OnCopy β} (he : e.Ready)
    (ho : c.completed = none) : Requires e c (writeHeld chs true >>= next) := by
  apply Ensures.bind
  refine (writeHeld_ensures he chs true).mono ?_ (fun _ _ _ => trivial)
  rintro _ g ⟨_, i, r, _, _, hid, hch, hv, _⟩
  exact Ensures.always (fun _ _ => ⟨ho, i, r, hid, hch.found, hv rfl⟩) (fun _ _ => trivial)

private theorem requireOpen_bind {t : Transition} {next : Unit → OnCopy β}
    (h : c.completed = none → Requires e c (next ())) : Requires e c (requireOpen t >>= next) := by
  apply Ensures.bind
  refine (requireOpen_ensures t).mono ?_ (fun _ _ _ => trivial)
  rintro _ _ ⟨rfl, ho⟩
  exact h ho

end Requires

private theorem abandon_requires (node : Json) : Requires e c (abandon node : OnCopy α) := by
  have hany {α β : Type} {act : OnCopy α} {next : α → OnCopy β} {g : Holding Engine Context}
      (h : ∀ a g', Ensures (next a) g' (fun _ _ => Abreast e.store c) (fun _ _ => True)) :
      Ensures (act >>= next) g (fun _ _ => Abreast e.store c) (fun _ _ => True) := by
    apply Ensures.bind
    exact Ensures.always h (fun _ _ => trivial)
  exact hany fun _ _ => hany fun _ _ => hany fun _ _ => hany fun _ _ => hany fun _ _ =>
    Ensures.throw trivial

theorem advance_requires (he : e.Ready) (choice : Json) : Requires e c (advance choice) := by
  unfold advance
  apply Requires.requireOpen_bind
  intro ho
  refine Requires.idle_bind he bind_idles ?_
  intro index g hu
  refine Requires.idle_bind hu.ready .held ?_
  intro held g₁ hu₁
  refine Requires.idle_bind hu₁.ready (.ofExcept _) ?_
  intro found g₂ hu₂
  have ho₂ : g₂.held.completed = none :=
    hu₂.completed.trans (hu₁.completed.trans (hu.completed.trans ho))
  split
  · exact abandon_requires _
  · refine Requires.idle_bind hu₂.ready (.ofExcept _) ?_
    intro destination g₃ hu₃
    have ho₃ : g₃.held.completed = none := hu₃.completed.trans ho₂
    split
    · refine Requires.idle_bind hu₃.ready (.beside now_yields.quietly) ?_
      intro t g₄ hu₄
      exact Requires.write_bind hu₄.ready (hu₄.completed.trans ho₃)
    · refine Requires.idle_bind hu₃.ready (.ofExcept _) ?_
      intro there g₄ hu₄
      split
      · exact abandon_requires _
      · exact Requires.write_bind hu₄.ready (hu₄.completed.trans ho₃)

theorem suspend_requires (he : e.Ready) (wakeup : Option Moment) :
    Requires e c (suspend wakeup) :=
  Requires.requireOpen_bind fun ho => Requires.write_bind he ho

theorem resume_requires (he : e.Ready) : Requires e c resume :=
  Requires.requireOpen_bind fun ho => Requires.write_bind he ho

/-! ## Failures -/

def Dangling (f : Failure) : Prop := ∃ i node, f = .dangling i node

private def Aborts (e : Engine) (c : Context) (act : OnCopy α) : Prop :=
  Ensures act ⟨e, c⟩ (fun _ _ => True) (fun f g => Undisturbed e c g ∨ Dangling f)

namespace Aborts

private theorem idle_bind {act : OnCopy α} {next : α → OnCopy β} (he : e.Ready) (h : Idles act)
    (hn : ∀ a (g : Holding Engine Context), g.state.Ready → Aborts g.state g.held (next a)) :
    Aborts e c (act >>= next) := by
  apply Ensures.bind
  refine (h e c he).mono ?_ (fun _ _ hu => .inl hu)
  intro a g hu
  exact Ensures.mono (hn a g hu.ready) (fun _ _ _ => trivial) (fun _ _ hf => hf.imp_left hu.trans)

private theorem remark (level : Level) (text : String) : Ensures (Engine.remark level text) g
    (fun _ _ => True) (fun _ _ => False) :=
  Ensures.beside ((note_ensures level text g.state).mono (fun _ _ _ => trivial) (fun _ _ hf => hf))

private theorem write_remark {chs : List Context.Change} (he : e.Ready) (level : Level)
    (text : String) : Aborts e c (do writeHeld chs true; Engine.remark level text) := by
  apply Ensures.bind
  refine (writeHeld_ensures he chs true).mono ?_ (fun _ _ hu => .inl hu)
  intro _ g _
  exact (remark level text).mono (fun _ _ h => h) (fun _ _ hf => hf.elim)

private theorem abandon (he : e.Ready) (node : Json) : Aborts e c (Engine.abandon node : OnCopy α) := by
  unfold Engine.abandon
  refine idle_bind he .held ?_
  intro _ g₁ h₁
  refine idle_bind h₁ (remark_idles _ _) ?_
  intro _ g₂ h₂
  refine idle_bind h₂ (.beside now_yields.quietly) ?_
  intro t g₃ h₃
  apply Ensures.bind
  refine (writeHeld_ensures h₃ _ false).mono ?_ (fun _ _ hu => .inl hu)
  intro _ g₄ _
  apply Ensures.bind
  apply Ensures.held
  exact Ensures.throw (.inr ⟨_, _, rfl⟩)

end Aborts

/-- An advance that fails has written nothing, or the node of the copy or the next one is missing. -/
theorem advance_failure (he : e.Ready) (choice : Json) : Ensures (advance choice) ⟨e, c⟩
    (fun _ _ => True) (fun f g => Undisturbed e c g ∨ Dangling f) := by
  unfold advance
  apply Ensures.bind
  refine (requireOpen_ensures .advance).mono ?_ ?_
  · rintro _ _ ⟨rfl, _⟩
    refine Aborts.idle_bind he bind_idles ?_
    intro index g hg
    refine Aborts.idle_bind hg .held ?_
    intro held g₁ h₁
    refine Aborts.idle_bind h₁ (.ofExcept _) ?_
    intro found g₂ h₂
    split
    · exact Aborts.abandon h₂ _
    · refine Aborts.idle_bind h₂ (.ofExcept _) ?_
      intro destination g₃ h₃
      split
      · refine Aborts.idle_bind h₃ (.beside now_yields.quietly) ?_
        intro t g₄ h₄
        exact Aborts.write_remark h₄ _ _
      · refine Aborts.idle_bind h₃ (.ofExcept _) ?_
        intro there g₄ h₄
        split
        · exact Aborts.abandon h₄ _
        · exact Aborts.write_remark h₄ _ _
  · rintro _ _ rfl
    exact .inl (.refl he)

/-- A forced completion closes its copy when it succeeds, and does nothing when it fails. -/
theorem complete_outcome (he : e.Ready) : Ensures complete ⟨e, c⟩
    (fun _ g => c.completed = none ∧ g.held.completed ≠ none) (fun _ g => Undisturbed e c g) := by
  unfold complete
  apply Ensures.bind
  refine (requireOpen_ensures .complete).mono ?_ ?_
  · rintro _ _ ⟨rfl, ho⟩
    apply Ensures.bind
    refine (Idles.beside now_yields.quietly e c he).mono ?_ (fun _ _ hu => hu)
    intro t g hu
    apply Ensures.bind
    refine (writeHeld_ensures hu.ready _ false).mono ?_ (fun _ _ hu' => hu.trans hu')
    rintro _ g' ⟨_, _, _, _, _, _, _, _, hheld⟩
    apply Ensures.bind
    apply Ensures.held
    apply Ensures.beside
    refine (note_ensures _ _ g'.state).mono ?_ (fun _ _ hf => hf.elim)
    intro _ _ _
    refine ⟨ho, ?_⟩
    rw [hheld]
    exact Option.some_ne_none t
  · rintro _ _ rfl
    exact .refl he

end DurableFlow.Engine
