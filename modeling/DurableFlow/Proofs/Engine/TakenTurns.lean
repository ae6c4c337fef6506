import DurableFlow.Proofs.Engine.SparingSteps
import DurableFlow.Proofs.Engine.SuccessfulTransitions
import DurableFlow.Proofs.Store.CopiedReads

/-! Turns. Whoever works on a context shares the store with others, whose steps come between its own
writes. What becomes of the store is told by both, in the order in which they took turns. -/
namespace DurableFlow
open DurableFlow.Action (Ensures)

namespace Store
variable {i : String} {steps steps' : List (Store → Store)} {own own' : List (List Context.Change)}
  {s s' s'' : Store}

/-- What becomes of a store when others take steps and someone writes to one context, in any order. -/
inductive Turns (i : String) :
    List (Store → Store) → List (List Context.Change) → Store → Store → Prop
  | done (s : Store) : Turns i [] [] s s
  | other {step : Store → Store} {steps : List (Store → Store)} {own : List (List Context.Change)}
      {s s' : Store} (h : Turns i steps own (step s) s') : Turns i (step :: steps) own s s'
  | own {time : Moment} {fault : Option String} {changes : List Context.Change} {expected : Option Int}
      {v : Int} {steps : List (Store → Store)} {own : List (List Context.Change)} {s t s' : Store}
      (hu : s.update time fault (some i) changes expected = .ok (v, t)) (h : Turns i steps own t s') :
      Turns i steps (changes :: own) s s'

namespace Turns

theorem of_steps (i : String) (steps : List (Store → Store)) (s : Store) :
    Turns i steps [] s (steps.foldl (fun s step => step s) s) := by
  induction steps generalizing s with
  | nil => exact .done s
  | cons step rest ih => exact .other (ih (step s))

theorem trans (h : Turns i steps own s s') (h' : Turns i steps' own' s' s'') :
    Turns i (steps ++ steps') (own ++ own') s s'' := by
  induction h with
  | done => exact h'
  | other _ ih => exact .other (ih h')
  | own hu _ ih => exact .own hu (ih h')

/-- Where nobody but the others has written, the store is what they have made of it. -/
theorem eq_foldl (h : Turns i steps [] s s') : s' = steps.foldl (fun s step => step s) s := by
  generalize hown : ([] : List (List Context.Change)) = own at h
  induction h with
  | done => rfl
  | other _ ih => exact ih hown
  | own => cases hown

theorem sound (h : Turns i steps own s s') (hs : s.Sound)
    (hkeep : ∀ step ∈ steps, ∀ s : Store, s.Sound → (step s).Sound) : s'.Sound := by
  induction h with
  | done => exact hs
  | other _ ih =>
    exact ih (hkeep _ List.mem_cons_self _ hs) fun step h => hkeep step (List.mem_cons_of_mem _ h)
  | own hu _ ih => exact ih (hs.update hu) hkeep

end Turns
end Store

namespace Engine
open Store (Turns)
variable {e e' e'' : Engine} {c c' : Context} {i : String} {choice given : Json}
  {own own' : List (List Context.Change)}

/-! ## Turns of an engine -/

structure Sane (e : Engine) : Prop where
  sound : e.store.Sound
  keep : ∀ step ∈ e.others, ∀ s : Store, s.Sound → (step s).Sound

/-- An engine has written some changes to one context while others have taken steps. -/
structure Took (i : String) (own : List (List Context.Change)) (e e' : Engine) : Prop where
  turns : ∃ steps, e.others = steps ++ e'.others ∧ Turns i steps own e.store e'.store
  policy : e'.policy = e.policy

namespace Took

theorem of_eq (hs : e'.store = e.store) (ho : e'.others = e.others) (hp : e'.policy = e.policy) :
    Took i [] e e' := ⟨⟨[], ho.symm, hs ▸ .done _⟩, hp⟩

theorem refl : Took i [] e e := of_eq rfl rfl rfl

theorem trans (h : Took i own e e') (h' : Took i own' e' e'') : Took i (own ++ own') e e'' := by
  obtain ⟨⟨steps, ho, ht⟩, hp⟩ := h
  obtain ⟨⟨steps', ho', ht'⟩, hp'⟩ := h'
  exact ⟨⟨steps ++ steps', by rw [ho, ho', List.append_assoc], ht.trans ht'⟩, hp'.trans hp⟩

theorem idle (h : Took i own e e') (h' : Took i [] e' e'') : Took i own e e'' := by
  have hall := h.trans h'
  rwa [List.append_nil] at hall

theorem sane (h : Took i own e e') (he : Sane e) : Sane e' := by
  obtain ⟨⟨steps, ho, ht⟩, -⟩ := h
  have hkeep := he.keep
  rw [ho] at hkeep
  exact ⟨ht.sound he.sound fun step h => hkeep step (List.mem_append_left _ h),
    fun step h => hkeep step (List.mem_append_right _ h)⟩

end Took

theorem Yielded.took (h : Yielded e e') : Took i [] e e' := by
  obtain ⟨⟨steps, ho, hs⟩, -, -, hp⟩ := h
  exact ⟨⟨steps, ho, hs ▸ .of_steps i steps e.store⟩, hp⟩

/-! ## Writes -/

private theorem instant_errs : ErrsWithin Failure.isCommon instant :=
  ErrsWithin.get.bind fun _ => .ofExcept (Moment.dated_commonly _)

private theorem update_errs (id : Option String) (changes : List Context.Change)
    (expected : Option Int) : ErrsWithin Failure.isCommon (update id changes expected) := by
  refine ErrsWithin.bind ?_ fun _ => ErrsWithin.bind ?_ fun _ => ErrsWithin.bind ?_ fun _ => ?_
  · refine ErrsWithin.get.bind fun e => ?_
    dsimp only
    split
    · exact .set _
    · refine (ErrsWithin.set _).bind fun _ => ?_
      split
      · exact .throw rfl
      · exact .pure _
  · refine ErrsWithin.get.bind fun e => ?_
    split
    · refine (ErrsWithin.set _).bind fun _ => ?_
      split
      · exact .throw rfl
      · exact .pure _
    · exact .pure _
  · unfold refuseBroken
    split
    · refine ErrsWithin.get.bind fun e => ?_
      split
      · exact .throw rfl
      · exact .pure _
    · exact .pure _
  · refine instant_errs.bind fun time => ErrsWithin.get.bind fun e => ?_
    refine (ErrsWithin.ofExcept (Store.update_commonly _ _ _ _ _ _)).bind fun _ => ?_
    exact (ErrsWithin.set _).bind fun _ => .pure _

private theorem update_takes (i : String) (changes : List Context.Change) (expected : Option Int)
    (e : Engine) : Ensures (update (some i) changes expected) e
      (fun _ e' => Took i [changes] e e' ∧ e'.IsDated)
      (fun f e' => Took i [] e e' ∧ f.isCommon = true) := by
  refine ((update_yields e (some i) changes expected).and (update_errs _ _ _ e)).mono ?_
    fun _ _ h => ⟨h.1.took, h.2⟩
  rintro v e' ⟨⟨e₁, hy, hstate, time, ht, hu⟩, -⟩
  have hwrite : Took i [changes] e₁ e' :=
    ⟨⟨[], by rw [hstate]; rfl, .own hu (.done _)⟩, by rw [hstate]⟩
  exact ⟨hy.took.trans hwrite, time, by rw [hstate]; exact ht⟩

structure Stays (c c' : Context) : Prop where
  id : c'.id = c.id
  index : c'.index = c.index
  node : c'.node = c.node

theorem Stays.trans {c'' : Context} (h : Stays c c') (h' : Stays c' c'') : Stays c c'' :=
  ⟨h'.id.trans h.id, h'.index.trans h.index, h'.node.trans h.node⟩

private theorem writeHeld_takes (hid : c.id = some i) (changes : List Context.Change)
    (guarded : Bool) : Ensures (writeHeld changes guarded) ⟨e, c⟩
      (fun _ g => Took i [changes] e g.state ∧
        ∃ version updated, g.held = { c.applyAll changes with version, updated })
      (fun f g => Took i [] e g.state ∧ f.isCommon = true) := by
  apply Ensures.bind
  apply Ensures.held
  apply Ensures.bind
  apply Ensures.beside
  rw [hid]
  refine (update_takes i changes _ e).mono ?_ fun _ _ h => h
  rintro v e₁ ⟨htook, hdated⟩
  apply Ensures.bind
  apply Ensures.beside
  refine (now_ensures hdated).mono ?_ fun _ _ h => h.elim
  rintro updated _ rfl
  exact Ensures.alter ⟨htook, v, updated, rfl⟩

theorem note_takes (i : String) (level : Level) (text : String) :
    Ensures (note level text) e (fun _ e' => Took i [] e e') (fun _ _ => False) :=
  Ensures.modify (.of_eq rfl rfl rfl)

private theorem remark_takes (i : String) (level : Level) (text : String) {g : Holding Engine Context} :
    Ensures (remark level text) g (fun _ g' => Took i [] g.state g'.state ∧ g'.held = g.held)
      (fun _ _ => False) :=
  Ensures.beside ((note_takes i level text).mono (fun _ _ h => ⟨h, rfl⟩) fun _ _ h => h)

private theorem open_takes {α : Type} {t : Transition} {next : Unit → OnCopy α}
    {post : α → Holding Engine Context → Prop} {fails : Failure → Holding Engine Context → Prop}
    (h : Ensures (next ()) ⟨e, c⟩ post fails) (hf : ∀ f, f.isCommon = true → fails f ⟨e, c⟩) :
    Ensures (requireOpen t >>= next) ⟨e, c⟩ post fails := by
  apply Ensures.bind
  apply Ensures.bind
  apply Ensures.held
  split
  · exact Ensures.throw (hf _ rfl)
  · exact Ensures.pure h

/-! ## The steps of a try -/

theorem resume_takes (hid : c.id = some i) : Ensures resume ⟨e, c⟩
    (fun _ g => Took i [[.wakeup none]] e g.state ∧ Stays c g.held)
    (fun f g => Took i [] e g.state ∧ f.isCommon = true) := by
  refine open_takes ?_ fun f hf => ⟨.refl, hf⟩
  apply Ensures.bind
  refine (writeHeld_takes hid _ _).mono ?_ fun _ _ h => h
  rintro _ g ⟨htook, version, updated, hheld⟩
  apply Ensures.bind
  apply Ensures.held
  refine (remark_takes i _ _).mono ?_ fun _ _ h => h.elim
  rintro _ g' ⟨hidle, hsame⟩
  refine ⟨htook.idle hidle, ?_⟩
  rw [hsame, hheld]
  exact ⟨rfl, rfl, rfl⟩

/-- What is written when results are given: nothing, or those results merged into some earlier ones. -/
def Recording (given : Json) (own : List (List Context.Change)) : Prop :=
  own = [] ∨ ∃ values old, given = .object values ∧
    own = [[.results (.object (Table.merge old values))]]

theorem record_takes (hid : c.id = some i) (values : List (String × Json)) :
    Ensures (record values) ⟨e, c⟩
      (fun _ g => ∃ own, Recording (.object values) own ∧ Took i own e g.state ∧ Stays c g.held)
      (fun f g => Took i [] e g.state ∧ f.isCommon = true) := by
  unfold record
  split
  · exact Ensures.throw ⟨.refl, rfl⟩
  · refine open_takes ?_ fun f hf => ⟨.refl, hf⟩
    split
    · apply Ensures.bind
      apply Ensures.held
      split
      · rename_i old _
        refine (writeHeld_takes hid _ _).mono ?_ fun _ _ h => h
        rintro _ g ⟨htook, version, updated, hheld⟩
        refine ⟨_, .inr ⟨values, old, rfl, rfl⟩, htook, ?_⟩
        rw [hheld]
        exact ⟨rfl, rfl, rfl⟩
      · exact Ensures.throw ⟨.refl, rfl⟩
    · exact Ensures.pure ⟨[], .inl rfl, .refl, rfl, rfl, rfl⟩

theorem recordGiven_takes (hid : c.id = some i) (given : Json) :
    Ensures (recordGiven given) ⟨e, c⟩
      (fun _ g => ∃ own, Recording given own ∧ Took i own e g.state ∧ Stays c g.held)
      (fun f g => Took i [] e g.state ∧ f.isCommon = true) := by
  unfold recordGiven
  split
  · cases given with
    | object values => exact record_takes hid values
    | _ => exact Ensures.throw ⟨.refl, rfl⟩
  · exact Ensures.pure ⟨[], .inl rfl, .refl, rfl, rfl, rfl⟩

def HasExit (c : Context) (choice : Json) : Prop :=
  ∃ index, c.index = some index ∧
    ∀ node, index.lookup? c.node = .ok (some node) → ∃ exit, node.exitAt choice = .ok exit

theorem HasExit.of_stays (h : HasExit c choice) (hs : Stays c c') : HasExit c' choice := by
  obtain ⟨index, hindex, hexit⟩ := h
  exact ⟨index, hs.index.trans hindex, by rw [hs.node]; exact hexit⟩

private theorem now_takes : Ensures now e (fun _ e' => Took i [] e e')
    (fun f e' => Took i [] e e' ∧ f.isCommon = true) := by
  have herrs : ErrsWithin Failure.isCommon now := instant_errs.bind fun _ => .pure _
  exact ((now_yields e).and (herrs e)).mono (fun _ _ h => h.1.took) fun _ _ h => ⟨h.1.took, h.2⟩

private theorem abandon_takes {α : Type} (hid : c.id = some i) (node : Json) :
    Ensures (abandon node : OnCopy α) ⟨e, c⟩ (fun _ _ => False)
      (fun f g => (Took i [] e g.state ∧ f.isCommon = true) ∨
        (Dangling f ∧ ∃ own, Took i own e g.state)) := by
  unfold abandon
  apply Ensures.bind
  apply Ensures.held
  apply Ensures.bind
  refine (remark_takes i _ _).mono ?_ fun _ _ h => h.elim
  rintro _ ⟨e₁, _⟩ ⟨h₁, rfl⟩
  apply Ensures.bind
  apply Ensures.beside
  refine now_takes.mono ?_ fun _ _ h => .inl ⟨h₁.trans h.1, h.2⟩
  intro t e₂ h₂
  apply Ensures.bind
  refine (writeHeld_takes hid _ _).mono ?_ fun _ _ h => .inl ⟨(h₁.trans h₂).trans h.1, h.2⟩
  rintro _ g ⟨htook, -⟩
  apply Ensures.bind
  apply Ensures.held
  exact Ensures.throw (.inr ⟨⟨_, _, rfl⟩, _, (h₁.trans h₂).trans htook⟩)

private theorem bind_takes (i : String) : Ensures bind ⟨e, c⟩
    (fun index g => Took i [] e g.state ∧ g.held = { c with index := some index } ∧
      ∀ known, c.index = some known → known = index)
    (fun _ g => Took i [] e g.state ∧ c.index = none) := by
  apply Ensures.bind
  apply Ensures.held
  split
  · rename_i index hindex
    refine Ensures.pure ⟨.refl, by rw [← hindex], fun known hknown => ?_⟩
    exact Option.some.inj (hknown.symm.trans hindex)
  · rename_i hindex
    apply Ensures.bind
    apply Ensures.beside
    refine (fetch_yields _ e).mono ?_ fun _ _ h => ⟨h.took, hindex⟩
    intro found e₁ hy
    apply Ensures.bind
    apply Ensures.alter
    refine Ensures.pure ⟨hy.took, rfl, fun known hknown => ?_⟩
    cases hindex.symm.trans hknown

/-- A load writes nothing. The copy that it hands out is one of the context, and carries an index. -/
theorem load_takes (he : Sane e) (i : String) : Ensures (load (some i)) e
    (fun c e' => Took i [] e e' ∧ c.id = some i ∧ ∃ index, c.index = some index)
    (fun _ e' => Took i [] e e') := by
  have hstored : Ensures (stored (some i)) e (fun c e' => Took i [] e e' ∧ c.id = some i)
      (fun _ e' => Took i [] e e') := by
    apply Ensures.bind
    refine (ask_answers _ _ e).mono ?_ fun _ _ h => h.took
    rintro found e₁ ⟨hy, hfound⟩
    have htook : Took i [] e e₁ := hy.took
    cases found with
    | none => exact Ensures.throw htook
    | some c => exact Ensures.pure ⟨htook, ((htook.sane he).sound.getContext_copied hfound).2⟩
  unfold load
  apply Ensures.bind
  refine hstored.mono ?_ fun _ _ h => h
  rintro c e₁ ⟨h₁, hid⟩
  apply Ensures.bind
  apply Ensures.holding
  refine (bind_takes i).mono ?_ fun _ _ h => h₁.trans h.1
  rintro index g ⟨h₂, hheld, -⟩
  refine Ensures.pure ⟨h₁.trans h₂, ?_, index, ?_⟩
  · rw [hheld]
    exact hid
  · rw [hheld]

/-- How an advance fails: with nothing written, and in a common way unless its exit is missing; or because
a node is missing. -/
def Balks (i : String) (choice : Json) (e : Engine) (c : Context) (f : Failure)
    (g : Holding Engine Context) : Prop :=
  (Took i [] e g.state ∧ (HasExit c choice → f.isCommon = true)) ∨
    (Dangling f ∧ ∃ own, Took i own e g.state)

theorem advance_takes (hid : c.id = some i) (choice : Json) : Ensures (advance choice) ⟨e, c⟩
    (fun _ g => ∃ own, Took i own e g.state) (Balks i choice e c) := by
  unfold advance
  refine open_takes ?_ fun f hf => .inl ⟨.refl, fun _ => hf⟩
  apply Ensures.bind
  refine (bind_takes i).mono ?_ ?_
  rotate_left
  · rintro f g ⟨htook, hnone⟩
    refine .inl ⟨htook, ?_⟩
    rintro ⟨index, hindex, -⟩
    cases hnone.symm.trans hindex
  rintro index ⟨e₁, d⟩ ⟨h₁, hbound, hknown⟩
  obtain rfl : d = { c with index := some index } := hbound
  have hid₁ : ({ c with index := some index } : Context).id = some i := hid
  have habandon (node : Json) : Ensures (abandon node : OnCopy Unit) ⟨e₁, { c with index := some index }⟩
      (fun _ g => ∃ own, Took i own e g.state) (Balks i choice e c) := by
    refine (abandon_takes hid₁ node).mono (fun _ _ h => h.elim) ?_
    rintro f g (⟨htook, hcommon⟩ | ⟨hdangling, own, htook⟩)
    · exact .inl ⟨h₁.trans htook, fun _ => hcommon⟩
    · exact .inr ⟨hdangling, own, h₁.trans htook⟩
  have hwrite {e₂ : Engine} (h₂ : Took i [] e e₂) (changes : List Context.Change) (level : Level)
      (text : String) : Ensures (do writeHeld changes true; remark level text)
        ⟨e₂, { c with index := some index }⟩ (fun _ g => ∃ own, Took i own e g.state)
        (Balks i choice e c) := by
    apply Ensures.bind
    refine (writeHeld_takes hid₁ _ _).mono ?_ fun _ _ h => .inl ⟨h₂.trans h.1, fun _ => h.2⟩
    rintro _ g ⟨htook, -⟩
    exact (remark_takes i level text).mono (fun _ _ h => ⟨_, (h₂.trans htook).trans h.1⟩)
      fun _ _ h => h.elim
  apply Ensures.bind
  apply Ensures.held
  apply Ensures.bind
  refine Ensures.ofExcept (fun found hfound => ?_)
    fun f hf => .inl ⟨h₁, fun _ => Flow.lookup?_commonly _ _ f hf⟩
  cases found with
  | none => exact habandon _
  | some node =>
    apply Ensures.bind
    refine Ensures.ofExcept (fun destination _ => ?_) fun f hf => .inl ⟨h₁, ?_⟩
    · cases destination with
      | none =>
        apply Ensures.bind
        apply Ensures.beside
        refine now_takes.mono ?_ fun _ _ h => .inl ⟨h₁.trans h.1, fun _ => h.2⟩
        exact fun t e₂ h₂ => hwrite (h₁.trans h₂) _ _ _
      | some v =>
        apply Ensures.bind
        refine Ensures.ofExcept (fun there _ => ?_)
          fun f hf => .inl ⟨h₁, fun _ => Flow.lookup?_commonly _ _ f hf⟩
        cases there with
        | none => exact habandon _
        | some next => exact hwrite h₁ _ _ _
    · rintro ⟨known, hindex, hexit⟩
      cases hknown known hindex
      obtain ⟨exit, hexit⟩ := hexit node hfound
      have hok : node.destination choice = .ok exit.destination := by
        rw [Flow.Node.destination, hexit]
        rfl
      cases hok.symm.trans hf

/-! ## Others -/

inductive Operates : OnCopy Unit → Prop
  | advance (choice : Json) : Operates (advance choice)
  | suspend (wakeup : Option Moment) : Operates (suspend wakeup)
  | resume : Operates resume
  | complete : Operates complete
  | record (values : List (String × Json)) : Operates (record values)

private theorem Operates.takes {op : OnCopy Unit} (hop : Operates op) (hid : c.id = some i) :
    Ensures op ⟨e, c⟩ (fun _ g => ∃ own, Took i own e g.state)
      (fun _ g => ∃ own, Took i own e g.state) := by
  cases hop with
  | advance choice =>
    refine (advance_takes hid choice).mono (fun _ _ h => h) ?_
    rintro f g (⟨htook, -⟩ | ⟨-, htook⟩)
    · exact ⟨[], htook⟩
    · exact htook
  | suspend wakeup =>
    refine open_takes ?_ fun _ _ => ⟨[], .refl⟩
    apply Ensures.bind
    refine (writeHeld_takes hid _ _).mono ?_ fun _ _ h => ⟨[], h.1⟩
    rintro _ g ⟨htook, -⟩
    cases wakeup with
    | none => exact Ensures.throw ⟨_, htook⟩
    | some t =>
      apply Ensures.bind
      apply Ensures.held
      exact (remark_takes i _ _).mono (fun _ _ h => ⟨_, htook.idle h.1⟩) fun _ _ h => h.elim
  | resume => exact (resume_takes hid).mono (fun _ _ h => ⟨_, h.1⟩) fun _ _ h => ⟨[], h.1⟩
  | complete =>
    refine open_takes ?_ fun _ _ => ⟨[], .refl⟩
    apply Ensures.bind
    apply Ensures.beside
    refine now_takes.mono ?_ fun _ _ h => ⟨[], h.1⟩
    intro t e₁ h₁
    apply Ensures.bind
    refine (writeHeld_takes hid _ _).mono ?_ fun _ _ h => ⟨[], h₁.trans h.1⟩
    rintro _ g ⟨htook, -⟩
    apply Ensures.bind
    apply Ensures.held
    refine (remark_takes i _ _).mono (fun _ _ h => ?_) fun _ _ h => h.elim
    exact ⟨_, (h₁.trans htook).idle h.1⟩
  | record values =>
    refine (record_takes hid values).mono ?_ fun _ _ h => ⟨[], h.1⟩
    rintro _ g ⟨own, -, htook, -⟩
    exact ⟨own, htook⟩

/-- An operation on a context from beginning to end, through a copy that is held or one that is loaded. -/
inductive Visits (i : String) : Run (Unit × Context) → Prop
  | held {op : OnCopy Unit} {c : Context} (hop : Operates op) (hid : c.id = some i) :
      Visits i (Action.holding c op)
  | fresh {op : OnCopy Unit} (hop : Operates op) :
      Visits i (load (some i) >>= fun c => Action.holding c op)

def stepOf {α : Type} (e : Engine) (act : Run α) (s : Store) : Store :=
  match act { e with store := s, others := [] } with
  | .ok _ e' | .error _ e' => e'.store

/-- Complete operations on a context keep a store sound. -/
theorem Visits.keeps {act : Run (Unit × Context)} (h : Visits i act) (e : Engine) {s : Store}
    (hs : s.Sound) : (stepOf e act s).Sound := by
  have hsane : Sane { e with store := s, others := [] } := ⟨hs, fun _ h => by cases h⟩
  have htakes : Ensures act { e with store := s, others := [] } (fun _ e' => e'.store.Sound)
      (fun _ e' => e'.store.Sound) := by
    cases h with
    | held hop hid =>
      apply Ensures.holding
      exact (hop.takes hid).mono (fun _ _ h => (h.choose_spec.sane hsane).sound)
        fun _ _ h => (h.choose_spec.sane hsane).sound
    | fresh hop =>
      apply Ensures.bind
      refine (load_takes hsane i).mono ?_ fun _ _ h => (h.sane hsane).sound
      rintro c e₁ ⟨h₁, hid, -⟩
      have hsane₁ := h₁.sane hsane
      apply Ensures.holding
      exact (hop.takes hid).mono (fun _ _ h => (h.choose_spec.sane hsane₁).sound)
        fun _ _ h => (h.choose_spec.sane hsane₁).sound
  unfold stepOf
  cases hact : act { e with store := s, others := [] } with
  | ok _ _ => exact htakes.of_eq_ok hact
  | error _ _ => exact htakes.of_eq_error hact

end Engine
end DurableFlow
