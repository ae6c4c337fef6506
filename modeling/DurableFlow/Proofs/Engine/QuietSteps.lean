import DurableFlow.Engine.Input
import DurableFlow.Proofs.ActionOutcomes

/-! Steps of an engine that no context can tell: reads, remarks, waiting, and the loading of flows.
They may use up faults, let time pass and fill the registry. Others may take their steps meanwhile; where
nobody does the store stays as it is. -/
namespace DurableFlow
open DurableFlow.Action (Ensures)

namespace Engine

/-- Others have taken some steps, in their order. All else that the life of a context depends on is the
same before and after. -/
structure Yielded (e e' : Engine) : Prop where
  taken : ∃ steps, e.others = steps ++ e'.others ∧
    e'.store = steps.foldl (fun s step => step s) e.store
  racing : e'.faults.racing = e.faults.racing
  drawn : e'.drawn = e.drawn
  policy : e'.policy = e.policy

namespace Yielded
variable {e e' e'' : Engine}

theorem of_eq (hs : e'.store = e.store) (ho : e'.others = e.others)
    (hr : e'.faults.racing = e.faults.racing) (hd : e'.drawn = e.drawn) (hy : e'.policy = e.policy) :
    Yielded e e' := ⟨⟨[], ho.symm, hs⟩, hr, hd, hy⟩

theorem refl : Yielded e e := of_eq rfl rfl rfl rfl rfl

theorem trans (h : Yielded e e') (h' : Yielded e' e'') : Yielded e e'' := by
  obtain ⟨⟨steps, ho, hs⟩, hr, hd, hy⟩ := h
  obtain ⟨⟨steps', ho', hs'⟩, hr', hd', hy'⟩ := h'
  refine ⟨⟨steps ++ steps', ?_, ?_⟩, hr'.trans hr, hd'.trans hd, hy'.trans hy⟩
  · rw [ho, ho', List.append_assoc]
  · rw [hs', hs, List.foldl_append]

end Yielded

def Yielding {α : Type} (act : Run α) : Prop :=
  ∀ e, Ensures act e (fun _ e' => Yielded e e') (fun _ e' => Yielded e e')

namespace Yielding
variable {α β : Type} {act : Run α}

protected theorem pure (a : α) : Yielding (pure a : Run α) := fun _ => Ensures.pure .refl

protected theorem throw (f : Failure) : Yielding (throw f : Run α) := fun _ => Ensures.throw .refl

protected theorem ofExcept (r : Except Failure α) : Yielding (Action.ofExcept r) :=
  fun _ => Ensures.ofExcept (fun _ _ => .refl) (fun _ _ => .refl)

protected theorem get : Yielding (get : Run Engine) := fun _ => Ensures.get .refl

protected theorem modify {f : Engine → Engine} (h : ∀ e, Yielded e (f e)) :
    Yielding (modify f : Run PUnit) := fun e => Ensures.modify (h e)

protected theorem bind {next : α → Run β} (h : Yielding act) (hn : ∀ a, Yielding (next a)) :
    Yielding (act >>= next) := by
  intro e
  apply Ensures.bind
  refine (h e).mono ?_ (fun _ _ hy => hy)
  intro a e' hy
  exact (hn a e').mono (fun _ _ hy' => hy.trans hy') (fun _ _ hy' => hy.trans hy')

/-- Only what has been read right before may be written back. -/
theorem get_bind {next : Engine → Run α} (h : ∀ e,
    Ensures (next e) e (fun _ e' => Yielded e e') (fun _ e' => Yielded e e')) :
    Yielding (get >>= next) := by
  intro e
  apply Ensures.bind
  apply Ensures.get
  exact h e

end Yielding

theorem note_yields (level : Level) (text : String) : Yielding (note level text) :=
  Yielding.modify fun _ => .of_eq rfl rfl rfl rfl rfl

theorem instant_yields : Yielding instant := Yielding.get.bind fun _ => .ofExcept _

theorem now_yields : Yielding now := instant_yields.bind fun _ => .pure _

theorem begin_yields (op : Operation) : Yielding (begin op) := by
  apply Yielding.get_bind
  intro e
  cases ho : e.others with
  | nil =>
    simp only [ho]
    split
    · exact Ensures.set .refl
    · apply Ensures.bind
      apply Ensures.set
      split
      · exact Ensures.throw (.of_eq rfl ho.symm rfl rfl rfl)
      · exact Ensures.pure (.of_eq rfl ho.symm rfl rfl rfl)
  | cons step rest =>
    have hstep : ∃ steps, e.others = steps ++ rest ∧
        step e.store = steps.foldl (fun s step => step s) e.store := ⟨[step], ho, rfl⟩
    dsimp only
    split
    · exact Ensures.set ⟨hstep, rfl, rfl, rfl⟩
    · apply Ensures.bind
      apply Ensures.set
      split
      · exact Ensures.throw ⟨hstep, rfl, rfl, rfl⟩
      · exact Ensures.pure ⟨hstep, rfl, rfl, rfl⟩

/-- A read answers from the store as others have left it. -/
theorem ask_answers {α : Type} (op : Operation) (f : Store → Except Failure α) (e : Engine) :
    Ensures (ask op f) e (fun a e' => Yielded e e' ∧ f e'.store = .ok a) (fun _ e' => Yielded e e') := by
  apply Ensures.bind
  refine (begin_yields op e).mono ?_ (fun _ _ hy => hy)
  intro _ e' hy
  apply Ensures.bind
  apply Ensures.get
  exact Ensures.ofExcept (fun a ha => ⟨hy, ha⟩) (fun _ _ => hy)

theorem ask_yields {α : Type} (op : Operation) (f : Store → Except Failure α) : Yielding (ask op f) :=
  fun e => (ask_answers op f e).mono (fun _ _ h => h.1) (fun _ _ hy => hy)

theorem race_yields (id : Option String) (expected : Option Int) : Yielding (race id expected) := by
  apply Yielding.get_bind
  intro e
  split
  · apply Ensures.bind
    apply Ensures.set
    split
    · exact Ensures.throw (.of_eq rfl rfl rfl rfl rfl)
    · exact Ensures.pure (.of_eq rfl rfl rfl rfl rfl)
  · exact Ensures.pure .refl

theorem refuseBroken_yields (id : Option String) : Yielding (refuseBroken id) := by
  unfold refuseBroken
  split
  · refine Yielding.get.bind fun e => ?_
    split
    · exact .throw _
    · exact .pure _
  · exact .pure _

/-! ## Loading -/

theorem file_yields (f : Registry → Registry) : Yielding (file f) :=
  Yielding.modify fun _ => .of_eq rfl rfl rfl rfl rfl

theorem compile_yields (d : Flow.Definition) (document : List (String × Json)) :
    Yielding (compile d document) := by
  refine (Yielding.ofExcept _).bind fun graph => ?_
  apply Yielding.get_bind
  intro e
  apply Ensures.bind
  apply Ensures.set
  have hy : Yielded e { e with compiled := e.compiled + 1 } := .of_eq rfl rfl rfl rfl rfl
  have hrest : Yielding (do
      note .debug ("Compiled flow " ++ plainInt? d.id ++ " (" ++ plainText? d.shortcode ++
        s!"): {graph.index.size} node(s)")
      return (⟨e.compiled, graph⟩ : Compilation)) := (note_yields _ _).bind fun _ => .pure _
  exact (hrest _).mono (fun _ _ h => hy.trans h) (fun _ _ h => hy.trans h)

theorem loadDefinition_yields (flow : Int) : Yielding (loadDefinition flow) := by
  refine (ask_yields _ _).bind fun r => ?_
  split
  · exact .throw _
  · exact (note_yields _ _).bind fun _ => .ofExcept _

theorem loadOne_yields (identifier : Identifier) : Yielding (loadOne identifier) := by
  refine (ask_yields _ _).bind fun d => ?_
  split
  · exact .throw _
  · exact (loadDefinition_yields _).bind fun _ => compile_yields _ _

theorem fetch_yields (identifier : Identifier) : Yielding (fetch identifier) := by
  refine Yielding.get.bind fun e => ?_
  split
  · exact .pure _
  · exact (loadOne_yields _).bind fun c => (file_yields _).bind fun _ => .pure _

/-! ## Waiting -/

theorem elapse_yields (seconds : Binary64) : Yielding (elapse seconds) :=
  (Yielding.ofExcept _).bind fun _ => Yielding.modify fun _ => .of_eq rfl rfl rfl rfl rfl

theorem pause_yields (ms : Int) : Yielding (pause ms) := by
  unfold pause
  split
  · exact Yielding.modify fun _ => .of_eq rfl rfl rfl rfl rfl
  · refine (Yielding.ofExcept _).bind fun _ => ?_
    refine (elapse_yields _).bind fun _ => ?_
    exact (Yielding.ofExcept _).bind fun _ => Yielding.modify fun _ => .of_eq rfl rfl rfl rfl rfl

/-! ## Where nobody else writes -/

/-- All that the life of a context depends on is the same before and after. -/
structure Quiet (e e' : Engine) : Prop where
  store : e'.store = e.store
  others : e'.others = e.others
  racing : e'.faults.racing = e.faults.racing
  drawn : e'.drawn = e.drawn

namespace Quiet
variable {e e' e'' : Engine}

theorem refl : Quiet e e := ⟨rfl, rfl, rfl, rfl⟩

theorem trans (h : Quiet e e') (h' : Quiet e' e'') : Quiet e e'' :=
  ⟨h'.store.trans h.store, h'.others.trans h.others, h'.racing.trans h.racing,
    h'.drawn.trans h.drawn⟩

end Quiet

theorem Yielded.quiet {e e' : Engine} (h : Yielded e e') (he : e.others = []) : Quiet e e' := by
  obtain ⟨⟨steps, ho, hs⟩, hr, hd, _⟩ := h
  obtain ⟨rfl, ho'⟩ := List.append_eq_nil_iff.mp (ho.symm.trans he)
  exact ⟨hs, ho'.trans he.symm, hr, hd⟩

def Quietly {α : Type} (act : Run α) : Prop :=
  ∀ e, e.others = [] → Ensures act e (fun _ e' => Quiet e e') (fun _ e' => Quiet e e')

theorem Yielding.quietly {α : Type} {act : Run α} (h : Yielding act) : Quietly act := fun e he =>
  (h e).mono (fun _ _ hy => hy.quiet he) (fun _ _ hy => hy.quiet he)

/-- A remark never fails. -/
theorem note_ensures (level : Level) (text : String) (e : Engine) :
    Ensures (note level text) e (fun _ e' => Quiet e e') (fun _ _ => False) :=
  Ensures.modify ⟨rfl, rfl, rfl, rfl⟩

/-- A read answers from the store as it is. -/
theorem ask_ensures {α : Type} (op : Operation) (f : Store → Except Failure α) {e : Engine}
    (he : e.others = []) : Ensures (ask op f) e (fun a e' => Quiet e e' ∧ f e.store = .ok a)
      (fun _ e' => Quiet e e') := by
  refine (ask_answers op f e).mono ?_ (fun _ _ hy => hy.quiet he)
  rintro a e' ⟨hy, ha⟩
  have hq := hy.quiet he
  exact ⟨hq, hq.store ▸ ha⟩

end Engine
end DurableFlow
