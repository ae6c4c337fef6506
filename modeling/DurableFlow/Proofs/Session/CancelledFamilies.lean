import DurableFlow.Proofs.Engine.SweptFamilies
import DurableFlow.Proofs.Session.DisciplinedSessions

/-! Families of contexts in a session. Sub-flows are only ever started below contexts that are there,
so a cancellation always comes to an end. It closes the whole family of a context, or it is stopped
on the way with nothing left half-closed. -/
namespace DurableFlow.Session
open DurableFlow.Action (Ensures)
open Engine (Below Closed Closing Discipline Ready Rooted SameParents Sweep parentOf sameParents_of_changed)
open Store (Copied Done)

variable {s : Session} {t t' : Store} {e e' : Engine} {c c' : Context} {i : String}

/-! ## Rooted sessions -/

def RowsStay (t t' : Store) : Prop := ∀ i, (t.row? i).isSome → (t'.row? i).isSome

def IsStored (t : Store) (id : Option String) : Prop := ∀ i, id = some i → (t.row? i).isSome

def HasRow (t : Store) (c : Context) : Prop := (∃ i, c.id = some i) ∧ IsStored t c.id

private theorem done_rooted {d : Store.Deed} (h : Done d t c.unbound t' c'.unbound)
    (hr : Rooted t) : Rooted t' ∧ RowsStay t t' ∧ HasRow t' c' := by
  have hframe := h.sameFrame
  obtain ⟨i, r, time, updated, hid, _, hch, _, _⟩ := h
  have hstay : RowsStay t t' := by
    intro j hj
    by_cases hji : j = i
    · rw [hji, hch.row]
      rfl
    · rwa [hch.others j hji]
  have hid' : c'.id = some i := hframe.id.trans hid
  refine ⟨hr.congr (sameParents_of_changed hch) hstay, hstay, ⟨i, hid'⟩, ?_⟩
  intro j hj
  rw [hid'] at hj
  cases hj
  rw [hch.row]
  rfl

/-- The discipline of rooted stores: copies are of contexts that are stored, and so are parents. -/
def rootedness : Discipline where
  Holds e := e.Ready ∧ Rooted e.store
  Keeps := HasRow
  Grows _ := RowsStay
  Finds _ _ := True
  Knows _ := True
  Parents := IsStored
  Fails _ _ := True
  ready h := h.1
  same h hr hs _ := ⟨hr, hs ▸ h.2⟩
  refl _ _ h := h
  trans h h' i hi := h' i (h i hi)
  keeps h hc := ⟨hc.1, fun i hi => h i (hc.2 i hi)⟩
  named h := h.1
  orphan _ _ h := by cases h
  parent h := h.2
  fails _ := trivial
  finds flow h := ((Engine.fetch_yields flow).quietly _ h.1.alone).mono
    (fun _ _ hq => ⟨⟨h.1.quiet hq, hq.store ▸ h.2⟩, trivial⟩)
    (fun _ _ hq => ⟨h.1.quiet hq, hq.store ▸ h.2⟩)
  knows _ := trivial
  reads {_ c} _ hc := by
    obtain ⟨i, r, hid, hr, _⟩ := hc
    refine ⟨⟨i, hid⟩, ?_⟩
    intro j hj
    rw [hid] at hj
    cases hj
    rw [hr]
    rfl
  binds h _ := h
  settles h _ _ hw := by
    obtain ⟨hr, hstay, hc⟩ := done_rooted hw.done h.2
    exact ⟨⟨hw.ready, hr⟩, hstay, hc⟩
  advances h _ _ _ _ _ hw := by
    obtain ⟨hr, hstay, hc⟩ := done_rooted hw.done h.2
    exact ⟨⟨hw.ready, hr⟩, hstay, hc⟩
  dangles _ _ _ := trivial
  files {_ _ e e' c} h _ hp hst := by
    obtain ⟨i, hid, hn, hf⟩ := hst.filed
    refine ⟨⟨hst.ready, h.2.filed hn hf fun p hparent => hp p (hst.parent.symm.trans hparent)⟩, ?_,
      ⟨i, hid⟩, ?_⟩
    · intro j hj
      have hne : j ≠ i := by
        rintro rfl
        rw [hn] at hj
        cases hj
      rwa [hf.others j hne]
    · intro j hj
      rw [hid] at hj
      cases hj
      rw [hf.row]
      rfl

theorem Fresh.rooted (hs : s.Fresh) : Regular rootedness s := by
  have hnone (i : String) : s.engine.store.row? i = none := hs.vacant.row?_eq_none i
  have hparent (i p : String) : parentOf s.engine.store i ≠ some p := by
    simp [parentOf, hnone]
  refine ⟨⟨hs.sound.ready, fun i p hp => absurd hp (hparent i p), ?_⟩, ?_⟩
  · rintro k i hk hb
    obtain ⟨k, rfl⟩ : ∃ n, k = n + 1 := ⟨k - 1, by omega⟩
    obtain ⟨j, hj, _⟩ := hb
    exact hparent j i hj
  · intro c hc
    rw [hs.unheld] at hc
    cases hc

/-- Requests that name no parent of their own. Sub-flows get the context that they are entered
from. -/
def Unparented (requests : List Request) : Prop :=
  ∀ graph contact p, Request.call (.start graph contact (some p)) ∉ requests

/-- Requests that name no parent keep a session rooted. -/
theorem Regular.run_rooted (hs : Regular rootedness s) (requests : List Request)
    (hq : Unparented requests) : Regular rootedness (s.run requests) := by
  apply hs.run
  intro q hmem t
  cases q with
  | call call =>
    cases call with
    | start graph contact parent =>
      refine ⟨trivial, ?_⟩
      rintro p rfl
      exact absurd hmem (hq graph contact p)
    | meanwhile change quiet =>
      rintro ⟨hr, hroot⟩
      exact ⟨hr.quiet (quiet _), (quiet t.engine).store ▸ hroot⟩
    | _ => trivial
  | _ => trivial

/-! ## Cancellations -/

/-- A family has been closed: its open contexts are completed, and nothing else has changed. -/
structure FamilyClosed (i : String) (t t' : Store) : Prop where
  parents : SameParents t t'
  closed : ∀ j r, (∃ k, Below t k i j) → t.row? j = some r → r.completed = none → Closing t j t'
  kept : ∀ j, (∀ r, (∃ k, Below t k i j) → t.row? j = some r → r.completed ≠ none) →
    t'.row? j = t.row? j

/-- A family has been closed in part: only contexts with nothing open below them are completed, and
the root is not among them. -/
structure FamilyHalfClosed (i : String) (t t' : Store) : Prop where
  parents : SameParents t t'
  root : t'.row? i = t.row? i
  closed : ∀ j, t'.row? j ≠ t.row? j →
    (∃ k, 0 < k ∧ Below t k i j) ∧ Closing t j t' ∧ Closed t' j

private theorem familyClosed_of_sweep (h : Sweep (fun j => ∃ k, Below t k i j) t t')
    (hc : Closed t' i) : FamilyClosed i t t' := by
  refine ⟨h.parents, ?_, ?_⟩
  · rintro j r ⟨k, hb⟩ hr ho
    rcases h.rows j with hsame | ⟨_, hclosing, _⟩
    · exact absurd ho (hc k j r ((Below.congr h.parents).mpr hb) (hsame.trans hr))
    · exact hclosing
  · intro j hj
    rcases h.rows j with hsame | ⟨hregion, ⟨r, _, _, hr, ho, _⟩, _⟩
    · exact hsame
    · exact absurd ho (hj r hregion hr)

private theorem familyHalfClosed_of_sweep (hroot : Rooted t)
    (h : Sweep (fun j => ∃ k, 0 < k ∧ Below t k i j) t t') : FamilyHalfClosed i t t' := by
  refine ⟨h.parents, ?_, ?_⟩
  · rcases h.rows i with hsame | ⟨⟨k, hk, hcycle⟩, _⟩
    · exact hsame
    · exact absurd hcycle (hroot.acyclic k i hk)
  · intro j hj
    rcases h.rows j with hsame | hclosed
    · exact absurd hsame hj
    · exact hclosed

/-- After every run of requests that name no parent of their own, all parents are stored and no
context is below itself. A cancellation then comes to an end, whatever the faults of the store
meanwhile. If it succeeds it has completed the open contexts of the family, and nothing else has
changed. If it fails the root is as it was, and below what it has completed nothing is open. -/
theorem family_closed_or_root_kept (hs : s.Fresh) (requests : List Request)
    (hq : Unparented requests) :
    let e := (s.run requests).engine
    Rooted e.store ∧ ∀ (faults : Faults) (i : String), faults.racing = false →
      Ensures (Engine.cancel (some i) true) { e with faults }
        (fun _ e' => FamilyClosed i e.store e'.store)
        (fun f e' => f ≠ .tooDeep ∧ FamilyHalfClosed i e.store e'.store) := by
  intro e
  obtain ⟨hready, hroot⟩ := (hs.rooted.run_rooted requests hq).holds
  refine ⟨hroot, ?_⟩
  intro faults i hraced
  have hfaulty : Ready { e with faults } := ⟨hready.alone, hraced, hready.sound, hready.drawn⟩
  refine (Engine.cancel_sweeps hfaulty hroot i).mono ?_ ?_
  · rintro _ e' ⟨hsweep, hclosed⟩
    exact familyClosed_of_sweep hsweep hclosed
  · intro f e' hbroken
    refine ⟨?_, familyHalfClosed_of_sweep hroot hbroken.sweep⟩
    rintro rfl
    exact absurd hbroken.plain (by decide)

def knowing (e : Engine) : Engine := { e with registry := Registry.empty.insert ⟨0, oneNode⟩ }

def nested : List Request :=
  [.call (.meanwhile knowing fun _ => ⟨rfl, rfl, rfl, rfl⟩), .call (.start oneNode (.int 7) none),
    .enterById (Engine.freshId 1) (1 : Int) none, .enterById (Engine.freshId 2) (1 : Int) none,
    .call (.through 1 .complete)]

private def cancelLevels : Nat → Option String → Run Unit
  | 0, _ => throw .tooDeep
  | depth + 1, parent => do
    let cs ← Engine.ask .children (Store.children parent)
    cs.forM fun c => do
      cancelLevels depth c.id
      if !c.isCompleted then discard <| Action.holding c Engine.complete

private theorem cancelChildren_eq (depth : Nat) (parent : Option String) :
    Engine.cancelChildren parent depth = cancelLevels depth parent := by
  induction depth generalizing parent with
  | zero =>
    rw [Engine.cancelChildren]
    rfl
  | succ depth ih =>
    have heach (cs : List Context) : Engine.cancelEach depth cs = (cs.forM fun c => do
        cancelLevels depth c.id
        if !c.isCompleted then discard <| Action.holding c Engine.complete) := by
      induction cs with
      | nil =>
        rw [Engine.cancelEach]
        rfl
      | cons c rest ihr =>
        rw [Engine.cancelEach, ihr, ih]
        change _ = (do
          cancelLevels depth c.id
          if !c.isCompleted then discard <| Action.holding c Engine.complete) >>= fun _ => _
        rw [bind_assoc]
        congr 1
        funext _
        split <;> rfl
    rw [Engine.cancelChildren, cancelLevels]
    simp only [heach]

/-- Among three generations of which the middle one is completed, a cancellation of the first closes
the others; one that the store fails at its second write leaves the first open. -/
theorem family_closed_or_root_kept_nested :
    let e := (inMemory.run nested).engine
    let failing := Faults.none.failNext .update [false, true]
    let i := Engine.freshId 1
    [1, 2, 3].map (fun n => (e.store.row? (Engine.freshId n)).map Context.isCompleted) =
      [some false, some true, some false] ∧
    (∃ c e', Engine.cancel (some i) true { e with faults := .none } = .ok c e' ∧
      FamilyClosed i e.store e'.store) ∧
    (∃ f e', Engine.cancel (some i) true { e with faults := failing } = .error f e' ∧
      FamilyHalfClosed i e.store e'.store) := by
  intro e failing i
  have hunparented : Unparented nested := by
    intro graph contact p h
    simp [nested] at h
  obtain ⟨_, hcancel⟩ : Rooted e.store ∧ ∀ (faults : Faults) (i : String), faults.racing = false →
      Ensures (Engine.cancel (some i) true) { e with faults }
        (fun _ e' => FamilyClosed i e.store e'.store)
        (fun f e' => f ≠ .tooDeep ∧ FamilyHalfClosed i e.store e'.store) :=
    family_closed_or_root_kept fresh_inMemory nested hunparented
  have hrows : [1, 2, 3].map (fun n => (e.store.row? (Engine.freshId n)).map Context.isCompleted) =
      [some false, some true, some false] := by decide +kernel
  have hlevels : Engine.cancel (some i) true = do
      let c ← Engine.stored (some i)
      if c.isCompleted then throw (.completed .cancel (some i))
      cancelLevels ((← get).store.contextCount + 1) (some i)
      return (← Action.holding c Engine.complete).2 := by
    unfold Engine.cancel
    simp only [cancelChildren_eq, if_true]
  have hok : (match Engine.cancel (some i) true { e with faults := .none } with
      | .ok _ _ => true
      | .error _ _ => false) = true := by
    rw [hlevels]
    decide +kernel
  have herror : (match Engine.cancel (some i) true { e with faults := failing } with
      | .ok _ _ => false
      | .error _ _ => true) = true := by
    rw [hlevels]
    decide +kernel
  clear_value e
  refine ⟨hrows, ?_, ?_⟩
  · cases ho : Engine.cancel (some i) true { e with faults := .none } with
    | ok c e' => exact ⟨c, e', rfl, (hcancel .none i rfl).of_eq_ok ho⟩
    | error f e' =>
      rw [ho] at hok
      cases hok
  · cases ho : Engine.cancel (some i) true { e with faults := failing } with
    | ok c e' =>
      rw [ho] at herror
      cases herror
    | error f e' => exact ⟨f, e', rfl, ((hcancel failing i rfl).of_eq_error ho).2⟩

end DurableFlow.Session
