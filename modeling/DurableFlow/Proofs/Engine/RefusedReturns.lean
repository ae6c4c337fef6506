import DurableFlow.Proofs.Engine.LostRaces
import DurableFlow.Proofs.Engine.AnsweredSteps
import DurableFlow.Proofs.Engine.SingleWrites

/-! Refused returns. An exit from a sub-flow closes an open child before it looks for the parent. A
parent that cannot be had is told too late: the child stays completed, and the parent waits on. -/
namespace DurableFlow.Engine
open DurableFlow.Action (Ensures)

variable {e : Engine} {c : Context} {f : Failure} {g : Holding Engine Context}

def ClosesFirst (s : Store) (c : Context) : Prop :=
  c.parent ≠ none ∧ c.completed = none ∧ ∃ i r, c.id = some i ∧ s.row? i = some r

/-- A parent is there to return to: its row is stored, and the graph of its flow can be had. -/
def Awaits (e : Engine) (c : Context) : Prop :=
  ∃ p r graph, c.parent = some p ∧ e.store.row? p = some r ∧ Provides e r.flow graph

/-! ## The child -/

private theorem complete_closes (ho : e.others = []) (hu : CanWrite e) (hs : e.store.Sound)
    {i : String} {r : Context} (hid : c.id = some i) (hr : e.store.row? i = some r)
    (hopen : c.completed = none) :
    Ensures complete ⟨e, c⟩
      (fun _ g => g.state.store.Sound ∧ g.state.faults = .none ∧ Spared e g.state ∧
        ∃ t, DoneAlike (.finish t) e.store c g.state.store g.held)
      (fun _ _ => False) := by
  have hcloses : Ensures complete ⟨e, c⟩
      (fun _ g => g.state.store.Sound ∧ g.state.faults = .none) (fun _ _ => False) := by
    unfold complete
    apply Ensures.bind
    refine (requireOpen_answers .complete hopen).mono ?_ fun _ _ h => h
    rintro _ _ rfl
    apply Ensures.bind
    apply Ensures.beside
    refine (now_ensures hu.dated).mono ?_ fun _ _ h => h
    rintro t e₁ rfl
    have hwell : Store.WellTyped [.completed (some t), .wakeup none] := fun v hv => by simp at hv
    apply Ensures.bind
    refine ((writeHeld_spends hu.contested ho hs hid hr rfl fun h => by cases h).and
      (writeHeld_applies ho _ false)).mono ?_ ?_
    · rintro _ g ⟨⟨-, rest, hspent, hstate⟩, -, -, -, hsound, -⟩
      apply Ensures.bind
      apply Ensures.held
      refine (remark_answers _ _).mono ?_ fun _ _ h => h
      rintro _ _ ⟨journal, rfl⟩
      refine ⟨hsound hs, ?_⟩
      obtain ⟨-, rfl⟩ := hspent.eq_zero
      change g.state.faults = .none
      rw [hstate]
      simp only [losing, hu.unfailing, Faults.none]
    · rintro f _ ⟨⟨_, -, ⟨h, -⟩ | ⟨hrefused, -⟩⟩, -⟩
      · cases h
      · rw [e₁.store.kind.accept_of_wellTyped hwell] at hrefused
        cases hrefused
  refine ((hcloses.and (complete_single ho)).and (complete_heldSpares e c)).mono ?_ fun _ _ h => h.1.1
  exact fun _ g h => ⟨h.1.1.1, h.1.1.2, h.2, h.1.2⟩

/-! ## The parent -/

private theorem rest_looks (ho : e.others = []) (hf : e.faults = .none) (hs : e.store.Sound)
    {p : String} (hp : c.parent = some p) (text : Context → String) :
    Ensures (do
      let parent ← Action.beside (load (some p))
      let parent ← if parent.isSuspended then
          Action.beside do return (← Action.holding parent resume).2
        else pure parent
      remark .debug (text parent)
      return parent) ⟨e, c⟩
      (fun _ _ => Awaits e c) (fun _ g => g.state.store = e.store ∧ g.held = c) := by
  apply Ensures.bind
  apply Ensures.beside
  refine (load_loadsAs ho hs hf p).mono ?_ fun _ _ h => ⟨h.2.store, rfl⟩
  rintro parent e₁ ⟨hload, hcalm, -⟩
  obtain ⟨r, graph, hr, hgraph, -⟩ := hload.row hs
  have hawaits : Awaits e c := ⟨p, r, graph, hp, hr, hgraph⟩
  have hlast (parent : Context) (g : Holding Engine Context) :
      Ensures (do remark .debug (text parent); return parent : OnCopy Context) g
        (fun _ _ => Awaits e c) (fun _ g' => g'.state.store = e.store ∧ g'.held = c) :=
    Ensures.bind ((remark_answers _ _).mono (fun _ _ _ => Ensures.pure hawaits) fun _ _ h => h.elim)
  dsimp only
  split
  · apply Ensures.bind
    apply Ensures.beside
    apply Ensures.bind
    apply Ensures.holding
    refine (resume_single (hcalm.others.trans ho)).mono ?_ fun _ _ h => ⟨h.1.trans hcalm.store, rfl⟩
    exact fun _ _ _ => Ensures.pure (hlast _ _)
  · exact hlast _ _

private theorem Awaits.before_closing {t : Moment} (h : Awaits g.state g.held) (ho : e.others = [])
    (hspared : Spared e g.state) (hdone : DoneAlike (.finish t) e.store c g.state.store g.held) :
    Awaits e c := by
  obtain ⟨p, r', graph, hparent, hr', hgraph⟩ := h
  have hframe := hdone.done.sameFrame
  obtain ⟨i, r, time, _, _, _, hch, _⟩ := hdone.done
  have hp : c.parent = some p := hframe.parent.symm.trans hparent
  have hprovides : Provides e r'.flow graph :=
    (Provides.congr hspared.registry (hspared.flows ho)).mp hgraph
  by_cases hpi : p = i
  · subst hpi
    cases hch.row.symm.trans hr'
    exact ⟨p, r, graph, hp, hch.found, hprovides⟩
  · exact ⟨p, r', graph, hp, (hch.others p hpi).symm.trans hr', hprovides⟩

/-! ## The exit -/

/-- Where nothing hinders the engine, an exit returns only to a parent that can be had. One that is
refused has closed the child if it had to, alike in the row and in the copy and nothing besides;
otherwise it has written nothing. -/
theorem refused_returns (ho : e.others = []) (hu : CanWrite e) (hs : e.store.Sound) (c : Context) :
    Ensures exitSubFlow ⟨e, c⟩ (fun _ _ => Awaits e c)
      (fun _ g => (¬ ClosesFirst e.store c → Untouched e c g) ∧
        (ClosesFirst e.store c → ∃ t, DoneAlike (.finish t) e.store c g.state.store g.held)) := by
  unfold exitSubFlow
  apply Ensures.bind
  apply Ensures.held
  cases hparent : c.parent with
  | none => exact Ensures.throw ⟨fun _ => .refl, fun h => absurd hparent h.1⟩
  | some p =>
    dsimp only
    split
    · rename_i hcompleted
      have hopen : c.completed = none := by simpa [Context.isCompleted] using hcompleted
      apply Ensures.bind
      refine (remark_answers _ _).mono ?_ fun _ _ h => h.elim
      rintro _ _ ⟨journal, rfl⟩
      have hnoted : CanWrite { e with journal } := ⟨hu.unfailing, hu.connected, hu.dated⟩
      have hspared : Spared e { e with journal } := .of_eq rfl rfl rfl
      apply Ensures.bind
      by_cases hstored : ∃ i r, c.id = some i ∧ e.store.row? i = some r
      · have hcloses : ClosesFirst e.store c := ⟨by simp [hparent], hopen, hstored⟩
        obtain ⟨i, r, hid, hr⟩ := hstored
        have hcomplete := complete_closes (e := { e with journal }) ho hnoted hs hid hr hopen
        refine hcomplete.mono ?_ fun _ _ h => h.elim
        rintro _ g ⟨hsound, hfaults, hspared', t, hdone⟩
        have hall := hspared.trans hspared'
        have hp : g.held.parent = some p := hdone.done.sameFrame.parent.trans hparent
        refine (rest_looks (hall.alone ho) hfaults hsound hp _).mono ?_ ?_
        · exact fun _ _ h => h.before_closing ho hall hdone
        · rintro _ g' ⟨hstore, hheld⟩
          rw [hstore, hheld]
          exact ⟨fun h => absurd hcloses h, fun _ => ⟨t, hdone⟩⟩
      · have hsame : Untouched e c ⟨{ e with journal }, c⟩ := ⟨rfl, rfl⟩
        refine (complete_single (e := { e with journal }) ho).mono ?_ ?_
        · rintro _ g ⟨t, hdone⟩
          obtain ⟨i, r, _, _, hid, _, hch, _⟩ := hdone.done
          exact absurd ⟨i, r, hid, hch.found⟩ hstored
        · exact fun _ _ h => ⟨fun _ => hsame.trans h, fun hc => absurd hc.2.2 hstored⟩
    · rename_i hcompleted
      have hdone : c.completed ≠ none := fun h => hcompleted (by simp [Context.isCompleted, h])
      refine (rest_looks ho hu.unfailing hs hparent _).mono (fun _ _ h => h) fun _ g h => ⟨?_, ?_⟩
      · exact fun _ => ⟨h.1, by rw [h.2]⟩
      · exact fun hc => absurd hc.2.1 hdone

private def awaiting : Context :=
  ⟨some "p", .int 7, 1, none, .string "n1", none, some (Moment.utc 9000000), none, .object [], 2,
    Moment.utc 0, Moment.utc 0, none⟩

private def pushed : Context :=
  ⟨some "c", .int 7, 2, none, .string "m1", some "p", none, none, .object [], 1, Moment.utc 0,
    Moment.utc 0, none⟩

private def stranded : Engine :=
  .ofStore (.memory { Store.Memory.empty with contexts := [("c", pushed), ("p", awaiting)] })
    ⟨.int 3, .int 5, .int 200, .int 2⟩ (.int 10) 0

private theorem stranded_sound : stranded.store.Sound :=
  Store.Memory.Sound.of_entries (by decide)
    (List.forall_mem_cons.mpr ⟨⟨rfl, rfl⟩, List.forall_mem_singleton.mpr ⟨rfl, rfl⟩⟩)

/-- The child is closed on the way to the parent. An exit through what is no child is refused with nothing
written. -/
theorem refused_returns_stranded :
    let e := stranded
    e.others = [] ∧ CanWrite e ∧ e.store.Sound ∧
      (∃ g, exitSubFlow ⟨e, pushed⟩ = .error (.flowNotFound (1 : Int)) g ∧
        ∃ t, DoneAlike (.finish t) e.store pushed g.state.store g.held) ∧
      ∃ g, exitSubFlow ⟨e, awaiting⟩ = .error (.notASubFlow (some "p")) g ∧ Untouched e awaiting g := by
  intro e
  have hu : CanWrite e := ⟨rfl, rfl, ⟨_, rfl⟩⟩
  have hreturns := refused_returns (e := e) rfl hu stranded_sound
  refine ⟨rfl, hu, stranded_sound, ?_, ?_⟩
  · obtain ⟨g, hg⟩ : ∃ g, exitSubFlow ⟨e, pushed⟩ = .error (.flowNotFound (1 : Int)) g := ⟨_, rfl⟩
    have hcloses : ClosesFirst e.store pushed := ⟨Option.some_ne_none _, rfl, "c", pushed, rfl, rfl⟩
    exact ⟨g, hg, ((hreturns pushed).of_eq_error hg).2 hcloses⟩
  · obtain ⟨g, hg⟩ : ∃ g, exitSubFlow ⟨e, awaiting⟩ = .error (.notASubFlow (some "p")) g := ⟨_, rfl⟩
    exact ⟨g, hg, ((hreturns awaiting).of_eq_error hg).1 fun h => h.1 rfl⟩

/-- The exit is refused, for the flow of the parent is not found, and yet the row of the child is not what
it was: it has been completed. The parent waits as it did. -/
theorem refused_return_closes_child :
    let e := stranded
    let outcome := exitSubFlow ⟨e, pushed⟩
    ∃ g, outcome = .error (.flowNotFound (1 : Int)) g ∧
      e.store.row? "c" = some pushed ∧ pushed.completed = none ∧
      (∃ r t, g.state.store.row? "c" = some r ∧ r.completed = some t) ∧
      g.state.store.row? "p" = some awaiting := by
  exact ⟨_, rfl, rfl, rfl, ⟨_, _, rfl, rfl⟩, rfl⟩

end DurableFlow.Engine
