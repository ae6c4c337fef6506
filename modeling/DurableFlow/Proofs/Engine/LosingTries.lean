import DurableFlow.Proofs.Engine.RacingInputs

/-! Tries that are going to lose their next race. An input that ends well has made a guarded write, and such
a write does not get past the race; so none of these tries ends well. -/
namespace DurableFlow.Engine
open DurableFlow.Action (Ensures)
open DurableFlow.Flow (NodeIndex)
variable {α β : Type} {e : Engine} {i : String} {index : NodeIndex} {lost rest : List Bool}
  {r c : Context} {choice given : Json}

private def Fails (act : OnCopy α) (g : Holding Engine Context) : Prop :=
  Ensures act g (fun _ _ => False) (fun _ _ => True)

namespace Fails

private theorem bind {act : OnCopy α} {next : α → OnCopy β} {g : Holding Engine Context}
    (h : Fails act g) : Fails (act >>= next) g :=
  Ensures.bind (Ensures.mono h (fun _ _ h => h.elim) fun _ _ _ => trivial)

private theorem after {act : OnCopy α} {next : α → OnCopy β} {g : Holding Engine Context}
    (h : ∀ a g', Fails (next a) g') : Fails (act >>= next) g :=
  Ensures.bind (Ensures.always h fun _ _ => trivial)

private theorem ofExcept_bind {result : Except Failure α} {next : α → OnCopy β}
    {g : Holding Engine Context} (h : ∀ a, Fails (next a) g) :
    Fails (Action.ofExcept result >>= next) g :=
  Ensures.bind (Ensures.ofExcept (fun a _ => h a) fun _ _ => trivial)

private theorem requireOpen_bind {t : Transition} {next : Unit → OnCopy β}
    (h : Fails (next ()) ⟨e, c⟩) : Fails (requireOpen t >>= next) ⟨e, c⟩ := by
  apply Ensures.bind
  refine (requireOpen_ensures t).mono ?_ fun _ _ _ => trivial
  rintro _ _ ⟨rfl, -⟩
  exact h

private theorem abandon (node : Json) {g : Holding Engine Context} :
    Fails (Engine.abandon node : OnCopy α) g :=
  .after fun _ _ => .after fun _ _ => .after fun _ _ => .after fun _ _ => .after fun _ _ =>
    Ensures.throw trivial

end Fails

section Losing
variable (hu : Contested (true :: rest) e) (ho : e.others = [])
include hu ho

private theorem writeHeld_loses (changes : List Context.Change) :
    Fails (writeHeld changes true) ⟨e, c⟩ := by
  have hupdate (id : Option String) (version : Int) :
      Ensures (update id changes (some version)) e (fun _ _ => False) (fun _ _ => True) := by
    unfold Ensures
    rw [update_contested hu ho]
    trivial
  exact Ensures.bind (Ensures.held (Ensures.bind (Ensures.beside
    ((hupdate c.id c.version).mono (fun _ _ h => h.elim) fun _ _ _ => trivial))))

private theorem resume_loses : Fails resume ⟨e, c⟩ :=
  .requireOpen_bind (writeHeld_loses hu ho _).bind

private theorem record_loses (values : List (String × Json)) :
    Ensures (record values) ⟨e, c⟩ (fun _ g => g = ⟨e, c⟩) (fun _ _ => True) := by
  unfold record
  split
  · exact Ensures.throw trivial
  · apply Ensures.bind
    refine (requireOpen_ensures .record).mono ?_ fun _ _ _ => trivial
    rintro _ _ ⟨rfl, -⟩
    split
    · apply Ensures.bind
      apply Ensures.held
      split
      · exact Ensures.mono (writeHeld_loses hu ho _) (fun _ _ h => h.elim) fun _ _ h => h
      · exact Ensures.throw trivial
    · exact Ensures.pure rfl

private theorem recordGiven_loses :
    Ensures (recordGiven given) ⟨e, c⟩ (fun _ g => g = ⟨e, c⟩) (fun _ _ => True) := by
  unfold recordGiven
  split
  · split
    · exact record_loses hu ho _
    · exact Ensures.throw trivial
  · exact Ensures.pure rfl

private theorem advance_loses (hc : c.index = some index) : Fails (advance choice) ⟨e, c⟩ := by
  unfold advance
  refine .requireOpen_bind ?_
  unfold Engine.bind
  apply Ensures.bind
  apply Ensures.bind
  apply Ensures.held
  rw [hc]
  apply Ensures.pure
  apply Ensures.bind
  apply Ensures.held
  refine Fails.ofExcept_bind fun found => ?_
  split
  · exact Fails.abandon _
  · refine Fails.ofExcept_bind fun destination => ?_
    split
    · apply Ensures.bind
      apply Ensures.beside
      refine (now_ensures hu.dated).mono ?_ fun _ _ _ => trivial
      rintro t _ rfl
      exact (writeHeld_loses hu ho _).bind
    · refine Fails.ofExcept_bind fun there => ?_
      split
      · exact Fails.abandon _
      · exact (writeHeld_loses hu ho _).bind

private theorem take_loses (hc : c.index = some index) : Fails (take choice given) ⟨e, c⟩ := by
  unfold take
  apply Ensures.bind
  apply Ensures.held
  dsimp only
  split
  · exact (resume_loses hu ho).bind
  · apply Ensures.bind
    refine (recordGiven_loses hu ho).mono ?_ fun _ _ _ => trivial
    rintro _ _ rfl
    exact advance_loses hu ho hc

end Losing

/-- A try that wins was not going to lose the next race. -/
theorem tryInput_wins (choice given : Json) (h : Racing i index lost r e) :
    Ensures (tryInput (some i) choice given) e
      (fun result _ => ∀ c, result = .ok c → lost.head? ≠ some true) (fun _ _ => True) := by
  by_cases hnext : lost.head? = some true
  · obtain ⟨rest, rfl⟩ := List.head?_eq_some_iff.mp hnext
    unfold tryInput
    apply Ensures.bind
    refine (load_races h).mono ?_ fun _ _ h => h.elim
    rintro _ e₁ ⟨rfl, h₁, -⟩
    apply Ensures.bind
    refine Ensures.ofExcept (fun _ _ => ?_) fun _ _ => trivial
    apply Ensures.bind
    apply Ensures.attempt
    apply Ensures.holding
    refine Ensures.mono (take_loses h₁.contested h₁.ready.alone rfl) (fun _ _ h => h.elim) fun f g _ => ?_
    cases f with
    | stale context expected actual => exact Ensures.pure fun c hc => by cases hc
    | _ => exact Ensures.throw trivial
  · exact Ensures.always (fun _ _ _ _ => hnext) fun _ _ => trivial

end DurableFlow.Engine
