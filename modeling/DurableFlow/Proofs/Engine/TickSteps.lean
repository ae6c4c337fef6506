import DurableFlow.Proofs.Engine.SuccessfulTransitions
import DurableFlow.Proofs.Engine.EngineOperations
import DurableFlow.Proofs.Store.DueTimes

/-! The steps of a tick: a scan for the due contexts, then one step for each context that it found.
Others may write between any two of them. -/
namespace DurableFlow.Engine
open DurableFlow.Action (Ensures)
open Store (Awaited Come Copied Deed Done Fits Mirrors)
variable {e : Engine} {c : Context}

def scanAt (t : Moment) (limit : Json) : Run (Moment × List Context) := do
  let found ← due (some t) limit
  if !found.isEmpty then note .debug s!"Processing {found.length} due context(s)"
  return (t, found)

def scan (time : Option Moment) (limit : Json) : Run (Moment × List Context) := do
  let t ← match time with
    | some t => pure t
    | none => now
  scanAt t limit

def wake (c : Context) (pass : Pass) : Run Pass := do
  match ← Action.attempt (Action.holding c resume) with
  | .ok (_, c) =>
    note .info ("Woke context " ++ plainText? c.id ++ " at node " ++ c.node.plain)
    return { pass with resumed := pass.resumed ++ [c] }
  | .error f =>
    match verdict f with
    | .skip =>
      note .warning ("Skipping wakeup of context " ++ plainText? c.id ++ ": " ++ f.message)
      return pass
    | .keep =>
      note .error ("Failed to wake context " ++ plainText? c.id ++ ": " ++ f.message)
      return { pass with failed := pass.failed ++ [c.id] }
    | .escape => throw f

/-- A tick that nobody disturbs takes its steps one after the other. -/
theorem resumeAll_cons (c : Context) (rest : List Context) (pass : Pass) :
    resumeAll (c :: rest) pass = wake c pass >>= resumeAll rest := by
  rw [resumeAll, wake, bind_assoc]
  congr 1
  funext r
  cases r with
  | ok p => simp only [bind_assoc, pure_bind]
  | error f =>
    cases hv : verdict f with
    | skip => simp only [hv, bind_assoc, pure_bind]
    | keep => simp only [hv, bind_assoc, pure_bind]
    | escape =>
      simp only [hv]
      rfl

theorem resumeAll_eq_foldlM (cs : List Context) (pass : Pass) :
    resumeAll cs pass = cs.foldlM (fun pass c => wake c pass) pass := by
  induction cs generalizing pass with
  | nil => rfl
  | cons c rest ih =>
    rw [resumeAll_cons, List.foldlM_cons]
    congr 1
    funext pass
    exact ih pass

private theorem tickAt_eq_steps (t : Moment) (limit : Json) :
    (do
      let found ← due (some t) limit
      if found.isEmpty then return ⟨[], []⟩
      note .debug s!"Processing {found.length} due context(s)"
      resumeAll found ⟨[], []⟩ : Run Pass) =
    scanAt t limit >>= fun found => found.2.foldlM (fun pass c => wake c pass) ⟨[], []⟩ := by
  rw [scanAt, bind_assoc]
  congr 1
  funext found
  cases found with
  | nil => rfl
  | cons c rest => simp [resumeAll_eq_foldlM]

/-- A tick is a scan, and then one step for each context that it found. -/
theorem tick_eq_steps (time : Option Moment) (limit : Json) :
    tick time limit = scan time limit >>= fun found =>
      found.2.foldlM (fun pass c => wake c pass) ⟨[], []⟩ := by
  cases time with
  | some t => exact tickAt_eq_steps t limit
  | none =>
    simp only [tick, scan, bind_assoc]
    congr 1
    funext t
    exact tickAt_eq_steps t limit

/-! ## What the steps do -/

private theorem now_shown : Ensures now e (fun t e' => Quiet e e' ∧ t.IsShown)
    (fun _ e' => Quiet e e') := by
  apply Ensures.bind
  apply Ensures.bind
  apply Ensures.get
  apply Ensures.ofExcept
  · intro t ht
    obtain ⟨hd, rfl⟩ := Moment.dated_eq_ok.mp ht
    exact Ensures.pure ⟨.refl, Moment.isShown_utc (Moment.isDated_cutToMillis hd)⟩
  · intro _ _
    exact .refl

private theorem scanAt_ensures (he : e.Ready) {t : Moment} (ht : t.IsShown) (limit : Json) :
    Ensures (scanAt t limit) e
      (fun found e' => Quiet e e' ∧ found.1 = t ∧
        ∀ c ∈ found.2, Copied e.store c ∧ c.isSuspended = true ∧ Come t c)
      (fun _ e' => Quiet e e') := by
  unfold scanAt
  apply Ensures.bind
  refine (due_ensures he _ _).mono ?_ (fun _ _ hq => hq)
  rintro cs e₁ ⟨hq, hcs⟩
  have hall (c : Context) (hc : c ∈ cs) : Copied e.store c ∧ c.isSuspended = true ∧ Come t c := by
    obtain ⟨hcopied, hsuspended⟩ := he.sound.due_copied hcs hc
    exact ⟨hcopied, hsuspended, he.sound.due_come ht hcs hc⟩
  dsimp only
  split
  · apply Ensures.bind
    refine (note_ensures _ _ e₁).mono ?_ (fun _ _ hf => hf.elim)
    intro _ e₂ hq₂
    exact Ensures.pure ⟨hq.trans hq₂, rfl, hall⟩
  · exact Ensures.pure ⟨hq, rfl, hall⟩

/-- A scan writes nothing. It finds copies of rows that wait, of which the time has come. -/
theorem scan_ensures (he : e.Ready) {time : Option Moment}
    (ht : ∀ t, time = some t → t.IsShown) (limit : Json) :
    Ensures (scan time limit) e
      (fun found e' => Quiet e e' ∧
        ∀ c ∈ found.2, Copied e.store c ∧ c.isSuspended = true ∧ Come found.1 c)
      (fun _ e' => Quiet e e') := by
  cases time with
  | some t =>
    refine (scanAt_ensures he (ht t rfl) limit).mono ?_ (fun _ _ hq => hq)
    rintro found e' ⟨hq, rfl, hall⟩
    exact ⟨hq, hall⟩
  | none =>
    apply Ensures.bind
    refine now_shown.mono ?_ (fun _ _ hq => hq)
    rintro t e₁ ⟨hq, hd⟩
    refine (scanAt_ensures (he.quiet hq) hd limit).mono ?_ (fun _ _ hq' => hq.trans hq')
    rintro found e' ⟨hq', rfl, hall⟩
    exact ⟨hq.trans hq', hq.store ▸ hall⟩

/-- A resumption is done when it succeeds, and does nothing when it fails. -/
theorem resume_ensures (he : e.Ready) : Ensures resume ⟨e, c⟩
    (fun _ g => g.state.Ready ∧
      Done (.park none) e.store c.unbound g.state.store g.held.unbound)
    (fun _ g => Undisturbed e c g) := by
  unfold resume
  apply Ensures.bind
  refine (requireOpen_ensures .resume).mono ?_ ?_
  · rintro _ _ ⟨rfl, ho⟩
    apply Ensures.bind
    refine (writeHeld_ensures he _ true).mono ?_ (fun _ _ hu => hu)
    rintro _ g ⟨hr, i, r, time, updated, hid, hch, hv, hheld⟩
    apply Ensures.bind
    apply Ensures.held
    apply Ensures.beside
    refine (note_ensures _ _ g.state).mono ?_ (fun _ _ hf => hf.elim)
    intro _ e' hq
    refine ⟨hr.quiet hq, i, r, time, updated, hid, ho, hq.store ▸ hch, .inl (hv rfl), ?_⟩
    change g.held.unbound = _
    rw [hheld, ← unbound_applyAll]
    rfl
  · rintro _ _ rfl
    exact .refl he

inductive Woken (c : Context) (pass : Pass) (s : Store) (pass' : Pass) (s' : Store) : Prop where
  | resumed (c' : Context) (listed : pass'.resumed = pass.resumed ++ [c'])
      (done : Done (.park none) s c.unbound s' c'.unbound)
  | passed (listed : pass'.resumed = pass.resumed) (store : s' = s)

theorem wake_resumes (he : e.Ready) (c : Context) (pass : Pass) : Ensures (wake c pass) e
    (fun pass' e' => e'.Ready ∧ Woken c pass e.store pass' e'.store)
    (fun _ e' => e'.Ready ∧ e'.store = e.store) := by
  have hnote {level : Level} {text : String} {pass' : Pass} {e₁ : Engine} (he₁ : e₁.Ready)
      (h : Woken c pass e.store pass' e₁.store) :
      Ensures (do note level text; return pass') e₁
        (fun pass' e' => e'.Ready ∧ Woken c pass e.store pass' e'.store)
        (fun _ e' => e'.Ready ∧ e'.store = e.store) := by
    apply Ensures.bind
    refine (note_ensures _ _ e₁).mono ?_ (fun _ _ hf => hf.elim)
    intro _ e₂ hq
    exact Ensures.pure ⟨he₁.quiet hq, hq.store.symm ▸ h⟩
  unfold wake
  apply Ensures.bind
  apply Ensures.attempt
  apply Ensures.holding
  refine (resume_ensures he).mono ?_ ?_
  · rintro _ g ⟨hr, hd⟩
    exact hnote hr (.resumed g.held rfl hd)
  · intro f g hu
    cases hv : verdict f with
    | skip =>
      simp only [hv]
      exact hnote hu.ready (.passed rfl hu.store)
    | keep =>
      simp only [hv]
      exact hnote hu.ready (.passed rfl hu.store)
    | escape =>
      simp only [hv]
      exact Ensures.throw ⟨hu.ready, hu.store⟩

/-- A row waits for a time that has come if what it says was copied from does. -/
theorem come_of_mirrors {k : Store.Kind} {r : Context} {t : Moment} (hm : Mirrors k r c)
    (ht : Awaited k t c) : Come t r := by
  obtain ⟨w, hw, hcome⟩ := ht
  exact ⟨_, hm.wakeup.trans (congrArg _ hw), hcome⟩

/-- A copy that fits its row, and waits for a time that has come, is resumed only while its row
does the same. -/
theorem resumes_of_done {s s' : Store} {c' : Context} {t : Moment}
    (h : Done (.park none) s c.unbound s' c'.unbound) (hf : Fits s c) (ht : Awaited s.kind t c) :
    ∃ i r r', c'.id = some i ∧ s.row? i = some r ∧ s'.row? i = some r' ∧
      (r.completed = none ∧ Come t r) ∧ c'.version = r.version + 1 ∧
      (r'.version = c'.version ∧ r'.wakeup = none) ∧ Fits s' c' := by
  obtain ⟨i, r, time, updated, hid, ho, hch, hv | ⟨_, hfinish⟩, hc'⟩ := h
  · have hun : Fits s c.unbound := hf.of_unbound rfl
    obtain ⟨_, hm⟩ := hun.row hid hch.found
    have hm : Mirrors s.kind r c.unbound := hm hv
    have hcome : Awaited s.kind t c.unbound := ht
    have hversion : c'.version = r.version + 1 := congrArg Context.version hc'
    have hcur : Store.Current s' c'.unbound := hc' ▸ hch.current hid hm updated
    exact ⟨i, r, _, (congrArg Context.id hc').trans hid, hch.found, hch.row,
      ⟨hm.completed_eq_none.mpr ho, come_of_mirrors hm hcome⟩, hversion,
      ⟨hversion.symm, rfl⟩, hcur.fits.of_unbound rfl⟩
  · cases hfinish

end DurableFlow.Engine
