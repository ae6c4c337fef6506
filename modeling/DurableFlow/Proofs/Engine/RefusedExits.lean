import DurableFlow.Proofs.Engine.RetriedInputs
import DurableFlow.Proofs.Engine.TakenTurns

/-! Refused exits. The try that refuses an input for a missing exit writes nothing. An earlier try that
lost a race may have ended the wait of the context and recorded the results by then, and both stay. -/
namespace DurableFlow
open DurableFlow.Action (Ensures)

def LacksExit (f : Failure) : Prop := ∃ node choice n, f = .noSuchExit node choice n

theorem not_lacksExit_of_common {f : Failure} (h : f.isCommon = true) : ¬ LacksExit f := by
  rintro ⟨_, _, _, rfl⟩
  cases h

namespace Engine
variable {e e' : Engine} {c : Context} {i : String} {choice given : Json}

/-! ## Tries -/

/-- What a try has written when it loses its race: it may have ended the wait, and recorded the results. -/
def Begun (given : Json) (own : List (List Context.Change)) : Prop :=
  ∃ woken recorded, own = woken ++ recorded ∧ (woken = [] ∨ woken = [[.wakeup none]]) ∧
    Recording given recorded

private theorem take_takes (hid : c.id = some i) (hexit : HasExit c choice) :
    Ensures (take choice given) ⟨e, c⟩ (fun _ _ => True) (fun f g => ¬ LacksExit f ∧
      (f.isStale = true → ∃ own, Begun given own ∧ Took i own e g.state)) := by
  have hrest {woken : List (List Context.Change)} (hwoken : woken = [] ∨ woken = [[.wakeup none]])
      {g : Holding Engine Context} (htook : Took i woken e g.state) (hstays : Stays c g.held) :
      Ensures (do recordGiven given; advance choice) g (fun _ _ => True) (fun f g => ¬ LacksExit f ∧
        (f.isStale = true → ∃ own, Begun given own ∧ Took i own e g.state)) := by
    apply Ensures.bind
    refine (recordGiven_takes (hstays.id.trans hid) given).mono ?_ ?_
    · rintro _ g₁ ⟨recorded, hrecords, htook₁, hstays₁⟩
      have hall := hstays.trans hstays₁
      refine (advance_takes (hall.id.trans hid) choice).mono (fun _ _ _ => trivial) ?_
      rintro f g₂ (⟨hidle, hcommon⟩ | ⟨⟨_, _, rfl⟩, -⟩)
      · refine ⟨not_lacksExit_of_common (hcommon (hexit.of_stays hall)), fun _ => ?_⟩
        exact ⟨_, ⟨woken, recorded, rfl, hwoken, hrecords⟩, (htook.trans htook₁).idle hidle⟩
      · refine ⟨?_, fun h => by cases h⟩
        rintro ⟨_, _, _, h⟩
        cases h
    · rintro f g₁ ⟨hidle, hcommon⟩
      refine ⟨not_lacksExit_of_common hcommon, fun _ => ⟨woken, ?_, htook.idle hidle⟩⟩
      exact ⟨woken, [], (List.append_nil _).symm, hwoken, .inl rfl⟩
  unfold take
  apply Ensures.bind
  apply Ensures.held
  dsimp only
  split
  · apply Ensures.bind
    refine (resume_takes hid).mono ?_ ?_
    · exact fun _ g h => hrest (.inr rfl) h.1 h.2
    · rintro f g ⟨hidle, hcommon⟩
      exact ⟨not_lacksExit_of_common hcommon, fun _ => ⟨[], ⟨[], [], rfl, .inl rfl, .inl rfl⟩, hidle⟩⟩
  · exact hrest (.inl rfl) .refl ⟨rfl, rfl, rfl⟩

private theorem hasExit_of_checkInput {index : Flow.NodeIndex} (hc : c.index = some index)
    (h : checkInput c choice = .ok ()) : HasExit c choice := by
  obtain ⟨found, hfound, hexits⟩ := exitAt_of_checkInput hc h
  exact ⟨index, hc, fun node hnode => hexits node (Except.ok.inj (hfound.symm.trans hnode))⟩

private theorem tryInput_takes (he : Sane e) (i : String) (choice given : Json) :
    Ensures (tryInput (some i) choice given) e
      (fun result e' => ∀ f, result = .error f →
        f.isStale = true ∧ ∃ own, Begun given own ∧ Took i own e e')
      (fun f e' => LacksExit f → Took i [] e e') := by
  unfold tryInput
  apply Ensures.bind
  refine (load_takes he i).mono ?_ fun _ _ h _ => h
  rintro c e₁ ⟨h₁, hid, index, hindex⟩
  apply Ensures.bind
  refine Ensures.ofExcept (fun _ hok => ?_) fun _ _ _ => h₁
  apply Ensures.bind
  apply Ensures.attempt
  apply Ensures.holding
  refine (take_takes hid (hasExit_of_checkInput hindex hok)).mono ?_ ?_
  · intro _ g _
    exact Ensures.pure fun f hf => by cases hf
  · rintro f g ⟨hexit, hlost⟩
    cases f with
    | stale context expected actual =>
      refine Ensures.pure ?_
      rintro _ ⟨⟩
      obtain ⟨own, hbegun, htook⟩ := hlost rfl
      exact ⟨rfl, own, hbegun, h₁.trans htook⟩
    | _ => exact Ensures.throw fun h => absurd h hexit

private theorem pause_errs (ms : Int) : ErrsWithin Failure.isCommon (pause ms) := by
  unfold pause
  split
  · exact .modify _
  · refine (ErrsWithin.ofExcept (Amount.doubleOf_commonly _)).bind fun _ => ?_
    refine ErrsWithin.bind ?_ fun _ => ?_
    · exact (ErrsWithin.ofExcept (Amount.nearestInteger_commonly _)).bind fun _ => .modify _
    · exact (ErrsWithin.ofExcept (Amount.nearestInteger_commonly _)).bind fun _ => .modify _

private theorem giveUp_takes (id : Option String) (attempt : Int) {f : Failure}
    (hf : f.isStale = true) {post : Context → Engine → Prop} {left : Engine → Prop} :
    Ensures (giveUp id attempt f) e post (fun f e' => LacksExit f → left e') := by
  apply Ensures.bind
  apply Ensures.modify
  refine Ensures.throw ?_
  rintro ⟨_, _, _, rfl⟩
  cases hf

/-- What an input has left behind in the tries that lost their races, when another one refuses its exit.
Each of them was followed by a delay that the policy gave. -/
def LeftByTries (i : String) (given : Json) (attempt : Int) (e e' : Engine) : Prop :=
  ∃ tries : List (List (List Context.Change)), (∀ own ∈ tries, Begun given own) ∧
    (∀ k : Nat, k < tries.length → ∃ ms, e.policy.delayAfter (attempt + k) = .ok (some ms)) ∧
    Took i tries.flatten e e'

private theorem Took.leftByTries {attempt : Int} (h : Took i [] e e') :
    LeftByTries i given attempt e e' := ⟨[], by simp, by simp, h⟩

private theorem deliverFrom_takes (he : Sane e) (i : String) (choice given : Json) (attempt : Int)
    (bound : Nat) : Ensures (deliverFrom (some i) choice given attempt bound) e (fun _ _ => True)
      (fun f e' => LacksExit f → LeftByTries i given attempt e e') := by
  induction bound generalizing e attempt with
  | zero =>
    apply Ensures.bind
    refine (tryInput_takes he i choice given).mono ?_ fun f _ h hf => (h hf).leftByTries
    intro result e₁ hlost
    cases result with
    | ok c => exact Ensures.pure trivial
    | error f => exact giveUp_takes _ _ (hlost f rfl).1
  | succ more ih =>
    apply Ensures.bind
    refine (tryInput_takes he i choice given).mono ?_ fun f _ h hf => (h hf).leftByTries
    intro result e₁ hlost
    cases result with
    | ok c => exact Ensures.pure trivial
    | error f =>
      obtain ⟨hstale, own, hbegun, h₁⟩ := hlost f rfl
      apply Ensures.bind
      apply Ensures.get
      apply Ensures.bind
      refine Ensures.ofExcept (fun delay hdelay => ?_) fun f' hf' hlacks =>
        absurd hlacks (not_lacksExit_of_common (e₁.policy.delayAfter_commonly attempt f' hf'))
      cases delay with
      | none => exact giveUp_takes _ _ hstale
      | some ms =>
        apply Ensures.bind
        refine (note_takes i _ _).mono ?_ fun _ _ h => h.elim
        intro _ e₂ h₂
        apply Ensures.bind
        refine ((pause_yields ms _).and (pause_errs ms _)).mono ?_ fun f' _ h hlacks =>
          absurd hlacks (not_lacksExit_of_common h.2)
        rintro _ e₃ ⟨hy, -⟩
        have h₃ : Took i own e e₃ := h₁.idle (h₂.trans hy.took)
        refine (ih (h₃.sane he) (attempt + 1)).mono (fun _ _ h => h) fun f' e' h hlacks => ?_
        obtain ⟨tries, hbegan, hdelays, htook⟩ := h hlacks
        refine ⟨own :: tries, List.forall_mem_cons.mpr ⟨hbegun, hbegan⟩, ?_, h₃.trans htook⟩
        rintro (_ | k) hk
        · refine ⟨ms, ?_⟩
          rw [← h₁.policy]
          simpa using hdelay
        · obtain ⟨ms', hms'⟩ := hdelays k (Nat.lt_of_succ_lt_succ hk)
          have hnext : attempt + ((k + 1 : Nat) : Int) = attempt + 1 + k := by omega
          exact ⟨ms', by rw [hnext, ← h₃.policy, hms']⟩

/-- An input that is refused for a missing exit leaves behind what its earlier tries have written before
they lost their races, and nothing else. Without such tries it leaves the store as others have made it. -/
theorem refused_exit_leaves {f : Failure} (he : Sane e) (hf : LacksExit f)
    (h : deliver (some i) choice given e = .error f e') :
    LeftByTries i given 1 e e' ∧
      ((∀ ms, e.policy.delayAfter 1 ≠ .ok (some ms)) →
        ∃ steps, e.others = steps ++ e'.others ∧
          e'.store = steps.foldl (fun s step => step s) e.store) := by
  have hdeliver : Ensures (deliver (some i) choice given) e (fun _ _ => True)
      (fun f e' => LacksExit f → LeftByTries i given 1 e e') := by
    unfold deliver
    apply Ensures.bind
    apply Ensures.get
    exact deliverFrom_takes he i choice given 1 _
  have hleft := hdeliver.of_eq_error h hf
  refine ⟨hleft, fun honce => ?_⟩
  obtain ⟨tries, -, hdelays, ⟨steps, ho, hturns⟩, -⟩ := hleft
  cases tries with
  | nil => exact ⟨steps, ho, hturns.eq_foldl⟩
  | cons own rest =>
    obtain ⟨ms, hms⟩ := hdelays 0 (Nat.succ_pos _)
    exact absurd hms (honce ms)

/-! ## An input that is overtaken -/

private def narrowing : Flow.Graph :=
  let exitTo (name : String) (destination : Option Json) : Flow.Exit := ⟨.string name, destination⟩
  ⟨some 1, none, none, none, .null, .message, none,
    ⟨[⟨.string "n1", [], [exitTo "e1" (some (.string "n2")), exitTo "e2" (some (.string "n2"))], none⟩,
      ⟨.string "n2", [], [exitTo "e3" none], none⟩]⟩, ⟨[], [], .null⟩, 0⟩

private def onFirst : Context :=
  ⟨some "c", .int 7, 1, none, .string "n1", none, none, none, .object [], 1, Moment.utc 0,
    Moment.utc 0, none⟩

private def unraced : Engine :=
  { Engine.ofStore (.memory { Store.Memory.empty with contexts := [("c", onFirst)] })
      ⟨.int 3, .int 5, .int 200, .int 2⟩ (.int 10) 0 with
    registry := Registry.empty.insert ⟨0, narrowing⟩ }

private def overtaken : Engine :=
  let overtaking : Run (Unit × Context) :=
    load (some "c") >>= fun c => Action.holding c (advance (.int 0))
  { unraced with others := [id, id, stepOf unraced overtaking] }

private theorem sane_overtaken : Sane overtaken := by
  refine ⟨Store.Memory.Sound.of_entries (by decide) ?_, ?_⟩
  · exact List.forall_mem_singleton.mpr ⟨rfl, rfl⟩
  · have hvisit : Visits "c" (load (some "c") >>= fun c => Action.holding c (advance (.int 0))) :=
      .fresh (.advance _)
    refine List.forall_mem_cons.mpr ⟨fun _ hs => hs, List.forall_mem_cons.mpr ⟨fun _ hs => hs, ?_⟩⟩
    exact List.forall_mem_singleton.mpr fun s hs => hvisit.keeps unraced hs

private def lateInput : Outcome := deliver (some "c") (.int 1) (.object [("a", .int 1)]) overtaken

private theorem Outcome.exists_of_answer {o : Outcome} {f : Failure} (h : o.answer = .error f) :
    ∃ e', o = .error f e' := by
  cases o with
  | ok c e' => cases h
  | error f' e' =>
    cases h
    exact ⟨e', rfl⟩

/-- A try that was overtaken leaves something behind. An input that gets one try alone leaves nothing. -/
theorem refused_exit_leaves_overtaken :
    let refused : Failure := .noSuchExit (.string "n2") (.int 1) 1
    let once : Engine := { unraced with policy := ⟨.int 1, .int 5, .int 200, .int 2⟩ }
    Sane overtaken ∧ LacksExit refused ∧
      (∃ e', lateInput = .error refused e' ∧
        LeftByTries "c" (.object [("a", .int 1)]) 1 overtaken e') ∧
      ∃ f e', Sane once ∧ LacksExit f ∧ deliver (some "c") (.int 2) .null once = .error f e' ∧
        e'.store = once.store := by
  intro refused once
  have hlacks : LacksExit refused := ⟨_, _, _, rfl⟩
  have hlate : Outcome.answer lateInput = .error refused := by decide +kernel
  have honce : Outcome.answer (deliver (some "c") (.int 2) .null once) =
      .error (.noSuchExit (.string "n1") (.int 2) 2) := by decide +kernel
  have hsane : Sane once := ⟨sane_overtaken.sound, fun _ h => by cases h⟩
  refine ⟨sane_overtaken, hlacks, ?_, ?_⟩
  · obtain ⟨e', he'⟩ := Outcome.exists_of_answer hlate
    exact ⟨e', he', (refused_exit_leaves sane_overtaken hlacks he').1⟩
  · obtain ⟨e', he'⟩ := Outcome.exists_of_answer honce
    have hexit : LacksExit (.noSuchExit (.string "n1") (.int 2) 2) := ⟨_, _, _, rfl⟩
    have hnever : once.policy.delayAfter 1 = .ok none := by decide +kernel
    have halone := (refused_exit_leaves hsane hexit he').2 fun ms h => by cases hnever.symm.trans h
    obtain ⟨steps, ho, hstore⟩ := halone
    obtain ⟨rfl, -⟩ := List.append_eq_nil_iff.mp ho.symm
    exact ⟨_, e', hsane, hexit, he', hstore⟩

/-- The input had recorded its result when it was overtaken. It loses its race, finds no second exit on
its next try and is refused, and what it recorded stays. -/
theorem refused_exit_keeps_results :
    let results (s : Store) := (s.row? "c").map Context.results
    Sane overtaken ∧ Outcome.answer lateInput = .error (.noSuchExit (.string "n2") (.int 1) 1) ∧
      results (overtaken.others.foldl (fun s step => step s) overtaken.store) = some (.object []) ∧
      results (Outcome.engine lateInput).store = some (.object [("a", .int 1)]) := by
  refine ⟨sane_overtaken, ?_⟩
  decide +kernel

end Engine
end DurableFlow
