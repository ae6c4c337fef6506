import DurableFlow.Proofs.Store.OpenStores

/-! What a store outside of memory tells of a context: what was filed and changed, with every time
cut down to the millisecond, if a calendar shows these times in UTC. Rows that are read and stored again
stay as they are. -/
namespace DurableFlow

/-! ## Cutting down -/

def Moment.floored (t : Moment) : Moment := utc (t.micros / 1000 * 1000)

namespace Moment

theorem ofMillis_millis_eq (t : Moment) : ofMillis t.millis = t.floored := by
  rw [millis, Int.fdiv_eq_ediv_of_nonneg _ (by decide)]
  rfl

theorem floored_floored (t : Moment) : t.floored.floored = t.floored := by
  simp only [floored, utc, Int.mul_ediv_cancel _ (by decide : (1000 : Int) ≠ 0)]

theorem floored_mono {t u : Moment} (h : t.micros ≤ u.micros) : t.floored.micros ≤ u.floored.micros := by
  simp only [floored, utc]
  omega

theorem floored_micros_le (t : Moment) : t.floored.micros ≤ t.micros := by
  simp only [floored, utc]
  omega

theorem isDated_floored (t : Moment) : t.floored.isDated = t.isDated := by
  rw [Bool.eq_iff_iff, isDated_iff, isDated_iff]
  simp only [floored, utc]
  omega

/-- The cut of a time that a clock shows lies within a day of the years 1 to 9999. -/
theorem dated_floored {t : Moment} (h : t.IsShown) :
    t.floored.dated = if t.isDated then .ok t.floored else .error (.tooLarge .date) := by
  have hclock := isDated_iff.mp h.dated
  have hnear := h.near
  have hdays : (Int.fdiv t.floored.micros 86400000000).natAbs ≤ 999999999 := by
    rw [Int.fdiv_eq_ediv_of_nonneg _ (by decide)]
    simp only [clock, floored, utc] at hclock ⊢
    omega
  simp only [dated, t.isDated_floored, hdays, if_true]

theorem map_floored_floored (t : Option Moment) : (t.map floored).map floored = t.map floored := by
  cases t with
  | none => rfl
  | some t => exact congrArg some t.floored_floored

end Moment

namespace Context
variable {c : Context} {i : String}

def floored (c : Context) : Context :=
  { c with
    wakeup := c.wakeup.map Moment.floored
    completed := c.completed.map Moment.floored
    inserted := c.inserted.floored
    updated := c.updated.floored
    index := none }

theorem floored_floored (c : Context) : c.floored.floored = c.floored := by
  simp only [floored, Moment.map_floored_floored, Moment.floored_floored]

def fields (c : Context) : List Change :=
  [.wakeup c.wakeup, .completed c.completed, .node c.node, .results c.results]

/-- What a read tells of a context: the cut of it, if a calendar shows its times in UTC. -/
def told (c : Context) : Except Failure (Option Context) :=
  if c.isLegible then .ok (some c.floored) else .error (.tooLarge .date)

private theorem checkTime_floored {t : Option Moment} (h : ∀ u, t = some u → u.IsShown) :
    checkTime (t.map Moment.floored) =
      if t.all Moment.isDated then .ok () else .error (.tooLarge .date) := by
  cases t with
  | none => rfl
  | some t =>
    simp only [Option.map_some, checkTime, Moment.dated_floored (h t rfl), Option.all_some]
    split <;> rfl

theorem Storable.dated_floored (h : c.Storable i) : c.floored.dated.map some = c.told := by
  have hdated : c.floored.dated = do
      checkTime (c.wakeup.map Moment.floored)
      checkTime (c.completed.map Moment.floored)
      return c.floored := rfl
  rw [hdated, checkTime_floored h.wakeup, checkTime_floored h.completed, told, isLegible]
  cases c.wakeup.all Moment.isDated <;> cases c.completed.all Moment.isDated <;> rfl

theorem Storable.stamped (h : c.Storable i) (now : Moment) : (c.stamped now).Storable i :=
  ⟨h.id, h.contact, h.flow, h.flowUuid, h.node, h.parent, h.wakeup, h.completed⟩

private theorem all_floored (t : Option Moment) :
    (t.map Moment.floored).all Moment.isDated = t.all Moment.isDated := by
  cases t with
  | none => rfl
  | some t => exact t.isDated_floored

theorem isLegible_floored (c : Context) : c.floored.isLegible = c.isLegible := by
  simp only [isLegible, floored, all_floored]

private theorem isShown_floored {t : Option Moment} (hl : t.all Moment.isDated = true) :
    ∀ u, t.map Moment.floored = some u → u.IsShown := by
  rintro _ hu
  obtain ⟨u, rfl, rfl⟩ := Option.map_eq_some_iff.mp hu
  exact Moment.isShown_utc (u.isDated_floored.trans hl)

theorem Storable.floored (h : c.Storable i) (hl : c.isLegible = true) : c.floored.Storable i := by
  obtain ⟨hw, hd⟩ := (Bool.and_eq_true _ _).mp hl
  exact ⟨h.id, h.contact, h.flow, h.flowUuid, h.node, h.parent, isShown_floored hw, isShown_floored hd⟩

end Context

namespace Store
variable {s : Store} {k : Kind} {i : String} {c d r : Context} {changes : List Context.Change}
  {now : Moment} {call : Call}

theorem Kind.time_floored (hk : k ≠ .memory) : k.time = Moment.floored := by
  funext t
  cases k with
  | memory => exact absurd rfl hk
  | rows | keys => exact t.ofMillis_millis_eq

/-- What is filed of a storable context is the context cut down. -/
theorem Kind.filed_storable (hk : k ≠ .memory) (hc : c.Storable i) : k.filed c = c.floored := by
  obtain ⟨n, hn, hsize⟩ := hc.contact
  obtain ⟨uuid, huuid⟩ := hc.flowUuid
  obtain ⟨name, hname⟩ := hc.node
  have hparent : c.parent.filter (· ≠ "") = c.parent := filter_parent hc.parent
  have hcontact : k.contact (.int n) = .int n := by
    cases k with
    | rows => simp [Kind.contact, Rows.cell, Rows.checkSize_eq_ok hsize, Except.map, Except.toOption,
        Rows.integerCell]
    | memory | keys => rfl
  simp only [Kind.filed, Context.floored, hn, hcontact, huuid, hname, hparent, k.node_string,
    Kind.time_floored hk, Option.getD_some, ite_self]

private theorem applyAll_floored (hk : k ≠ .memory) (hw : WellTyped changes) (c : Context) :
    c.floored.applyAll (changes.map k.change) = (c.applyAll changes).floored := by
  induction changes generalizing c with
  | nil => rfl
  | cons ch rest ih =>
    have hone : c.floored.apply (k.change ch) = (c.apply ch).floored := by
      cases ch with
      | node v =>
        obtain ⟨name, rfl⟩ := hw v List.mem_cons_self
        simp only [Kind.change, k.node_string]
        rfl
      | wakeup t | completed t =>
        simp only [Kind.change, Kind.time_floored hk]
        rfl
      | results v | other name => rfl
    change (c.floored.apply (k.change ch)).applyAll (rest.map k.change) = _
    rw [hone]
    exact ih (fun v hv => hw v (List.mem_cons_of_mem _ hv)) _

/-- A row that is the cut of a context stays the cut of it when both are changed. -/
theorem Kind.changed_floored (hk : k ≠ .memory) (hw : WellTyped changes) (now : Moment) (c : Context) :
    k.changed changes now c.floored = (Ledger.revised now changes c).floored := by
  simp only [Kind.changed, applyAll_floored hk hw, Kind.time_floored hk]
  rfl

/-! ## The course of a context -/

/-- A call whose changes name nodes by texts, and give times of completion that a clock shows. -/
def Call.IsStorable : Call → Prop
  | .insert .. => True
  | .update _ _ _ changes _ =>
    WellTyped changes ∧ ∀ t, Context.Change.completed (some t) ∈ changes → t.IsShown

/-- A context after an answered call: an update of its id that succeeded has changed it. -/
def Call.revise (i : String) (c : Context) : Call × Except Failure Int → Context
  | (.update now _ id changes _, .ok _) => if id = some i then Ledger.revised now changes c else c
  | _ => c

def History.story (i : String) (c : Context) (log : List (Call × Except Failure Int)) : Context :=
  log.foldl (Call.revise i) c

theorem Storable.revised (h : c.Storable i) (hn : WellTyped changes)
    (hw : ∀ t, Context.Change.wakeup (some t) ∈ changes → t.IsShown)
    (hd : ∀ t, Context.Change.completed (some t) ∈ changes → t.IsShown) (now : Moment) :
    (Ledger.revised now changes c).Storable i := by
  have hall : (c.applyAll changes).Storable i := by
    induction changes generalizing c with
    | nil => exact h
    | cons ch rest ih =>
      have hone : (c.apply ch).Storable i := by
        cases ch with
        | node v => exact { h with node := hn v List.mem_cons_self }
        | wakeup t => exact { h with wakeup := fun u hu => hw u (hu ▸ List.mem_cons_self) }
        | completed t => exact { h with completed := fun u hu => hd u (hu ▸ List.mem_cons_self) }
        | results v => exact { h with }
        | other name => exact h
      exact ih hone (fun v hv => hn v (List.mem_cons_of_mem _ hv))
        (fun t ht => hw t (List.mem_cons_of_mem _ ht)) fun t ht => hd t (List.mem_cons_of_mem _ ht)
  exact { hall with }

/-- An open store keeps a context that was filed and changed, cut down. -/
structure KeepsFloored (i : String) (c : Context) (h : History) : Prop where
  opened : h.store.Open
  storable : (History.story i c h.log).Storable i
  row : h.store.row? i = some (History.story i c h.log).floored

private theorem row?_insert (hk : s.kind ≠ .memory) (fresh : String) (now : Moment) (c : Context)
    (hr : s.row? i = some r) : ((Call.insert fresh now c).perform s).2.row? i = some r := by
  have hi := insert_ensures fresh now s c
  cases he : Store.insert fresh now ⟨s, c⟩ with
  | error f g =>
    have hsame : g.state = s := hi.of_eq_error he
    simpa only [Call.perform, he, hsame] using hr
  | ok _ g =>
    obtain ⟨-, hfiled, -, hfree⟩ := hi.of_eq_ok he
    have hne : i ≠ c.id.getD fresh := by
      rintro rfl
      cases hr.symm.trans (hfree (.inl hk))
    simpa only [Call.perform, he, hfiled.others i hne] using hr

/-- A typed call keeps what is kept, and an update that succeeds is kept as well. -/
theorem KeepsFloored.step {h : History} (hh : KeepsFloored i c h) (ht : call.IsTyped) (hn : call.IsStorable) :
    KeepsFloored i c (h.step call) := by
  have hopened := hh.opened.step ht
  have hstory : History.story i c (h.step call).log =
      Call.revise i (History.story i c h.log) (call, (call.perform h.store).1) := by
    simp only [History.story, History.step, List.foldl_append, List.foldl_cons, List.foldl_nil]
  have hunrevised (hsame : Call.revise i (History.story i c h.log) (call, (call.perform h.store).1) =
      History.story i c h.log) (hrow : (h.step call).store.row? i = h.store.row? i) :
      KeepsFloored i c (h.step call) := by
    rw [hsame] at hstory
    exact ⟨hopened, hstory ▸ hh.storable, hrow.trans (hstory ▸ hh.row)⟩
  cases call with
  | insert fresh now c' =>
    exact hunrevised rfl ((row?_insert hh.opened.durable fresh now c' hh.row).trans hh.row.symm)
  | update now fault id changes expected =>
    obtain ⟨f, hp⟩ | ⟨j, r, s, rfl, hch, -, -, hp⟩ :=
      History.perform_update h now fault id changes expected
    · refine hunrevised ?_ ?_
      · rw [hp]
        rfl
      · simp only [History.step, hp]
    · have hstore : (h.step (.update now fault (some j) changes expected)).store = s := by
        simp only [History.step, hp]
      rw [hp] at hstory hunrevised
      by_cases hij : j = i
      · subst hij
        have hrevised : History.story j c (h.step (.update now fault (some j) changes expected)).log =
            Ledger.revised now changes (History.story j c h.log) := hstory.trans (if_pos rfl)
        refine ⟨hopened, hrevised ▸ Storable.revised hh.storable hn.1 ht hn.2 now, ?_⟩
        cases hch.found.symm.trans hh.row
        rw [hstore, hch.row, hrevised, Kind.changed_floored hh.opened.durable hn.1]
      · refine hunrevised (if_neg fun hid => hij (Option.some.inj hid)) ?_
        rw [hstore, hch.others i (Ne.symm hij)]

theorem KeepsFloored.run {h : History} (hh : KeepsFloored i c h) {calls : List Call}
    (hc : ∀ call ∈ calls, call.IsTyped ∧ call.IsStorable) : KeepsFloored i c (h.run calls) := by
  induction calls generalizing h with
  | nil => exact hh
  | cons call rest ih =>
    obtain ⟨hcall, hrest⟩ := List.forall_mem_cons.mp hc
    exact ih (hh.step hcall.1 hcall.2) hrest

/-- A storable context whose id is free is filed, and kept. -/
theorem Open.files (ho : s.Open) (hc : c.Storable i) (hfree : s.row? i = none) (fresh : String)
    (now : Moment) : ∃ s', (Call.insert fresh now c).perform s = (.ok 1, s') ∧
      KeepsFloored i (c.stamped now) ⟨s', []⟩ := by
  obtain ⟨s', hp, hrow⟩ := ho.insert hc hfree fresh now
  have htyped : (Call.insert fresh now c).IsTyped :=
    ⟨hc.contact.imp fun _ => And.left, hc.wakeup⟩
  have hopened := Open.step (h := ⟨s, []⟩) ho htyped
  have hstore : (History.step ⟨s, []⟩ (Call.insert fresh now c)).store = s' := by
    simp only [History.step, hp]
  refine ⟨s', hp, hstore ▸ hopened, hc.stamped now, ?_⟩
  rw [hrow, Kind.filed_storable ho.durable (hc.stamped now)]
  rfl

/-- A version counts the calls at most. -/
theorem History.version_story (i : String) (c : Context) (log : List (Call × Except Failure Int)) :
    c.version ≤ (story i c log).version ∧ (story i c log).version ≤ c.version + log.length := by
  induction log generalizing c with
  | nil => exact ⟨Int.le_refl _, by simp [story]⟩
  | cons x rest ih =>
    have hone : c.version ≤ (Call.revise i c x).version ∧
        (Call.revise i c x).version ≤ c.version + 1 := by
      unfold Call.revise
      split
      · split
        · exact ⟨by simp only [Ledger.revised]; omega, Int.le_refl _⟩
        · omega
      · omega
    obtain ⟨hlow, hhigh⟩ := ih (Call.revise i c x)
    change c.version ≤ (story i (Call.revise i c x) rest).version ∧
      (story i (Call.revise i c x) rest).version ≤ c.version + (rest.length + 1 : Nat)
    omega

section Kept
variable {h : History} (hh : KeepsFloored i c h)
include hh

theorem KeepsFloored.getContext : h.store.getContext (some i) = (History.story i c h.log).told :=
  (hh.opened.getContext hh.row).trans hh.storable.dated_floored

/-- An update of the declared types that expects the right version, if any, is made. -/
theorem KeepsFloored.update {time : Moment} {expected : Option Int}
    (ht : (Call.update time none (some i) changes expected).IsTyped)
    (hn : (Call.update time none (some i) changes expected).IsStorable)
    (hf : Context.unknownFields changes = [])
    (he : ∀ n, expected = some n → n = (History.story i c h.log).version)
    (hb : h.store.kind = .rows → Rows.checkExpected expected = .ok ()) :
    ∃ s', (Call.update time none (some i) changes expected).perform h.store =
        (.ok ((History.story i c h.log).version + 1), s') ∧
      s'.getContext (some i) = (Ledger.revised time changes (History.story i c h.log)).told := by
  obtain ⟨v, s', hu⟩ := hh.opened.sound.update_succeeds hh.opened.connected hh.row hn.1 hf he hb time
  obtain ⟨j, r, hj, hch, rfl, -⟩ := update_changed hu
  cases hj
  cases hch.found.symm.trans hh.row
  have hp : (Call.update time none (some i) changes expected).perform h.store =
      (.ok ((History.story i c h.log).version + 1), s') := by
    simp only [Call.perform, hu]
    rfl
  refine ⟨s', hp, ?_⟩
  have hread := (hh.step ht hn).getContext
  simpa [History.step, hp, History.story, Call.revise] using hread

/-- Writing back what is read changes version and time of the change only. -/
theorem KeepsFloored.write_back (hl : (History.story i c h.log).isLegible = true) (time : Moment) :
    let d := History.story i c h.log
    ∃ s', (Call.update time none (some i) d.floored.fields none).perform h.store =
        (.ok (d.version + 1), s') ∧
      s'.getContext (some i) =
        .ok (some { d.floored with version := d.version + 1, updated := time.floored }) := by
  intro d
  have hread := hh.storable.floored hl
  have ht : (Call.update time none (some i) d.floored.fields none).IsTyped := by
    intro t hm
    refine hread.wakeup t ?_
    simpa [Context.fields, eq_comm] using hm
  have hn : (Call.update time none (some i) d.floored.fields none).IsStorable := by
    refine ⟨fun v hv => ?_, fun t hm => ?_⟩
    · have hnode : v = d.floored.node := by simpa [Context.fields] using hv
      exact hnode ▸ hread.node
    · refine hread.completed t ?_
      simpa [Context.fields, eq_comm] using hm
  have hrevised : (Ledger.revised time d.floored.fields d).floored =
      { d.floored with version := d.version + 1, updated := time.floored } := by
    simp only [Ledger.revised, Context.fields, Context.applyAll, List.foldl_cons, List.foldl_nil,
      Context.apply, Context.floored, Moment.map_floored_floored]
  obtain ⟨s', hp, hread'⟩ := hh.update ht hn rfl (fun _ hn => by cases hn) fun _ => rfl
  refine ⟨s', hp, hread'.trans ?_⟩
  have hlegible : (Ledger.revised time d.floored.fields d).isLegible = true :=
    (Context.isLegible_floored d).trans hl
  rw [Context.told, if_pos hlegible, hrevised]

/-- A context whose time has come is found, unless it is completed. -/
theorem KeepsFloored.due {time w : Moment} (ht : time.IsShown) (hl : h.store.LegibleBy time)
    (hopen : (History.story i c h.log).completed = none)
    (hw : (History.story i c h.log).wakeup = some w) (hle : w.micros ≤ time.micros) :
    ∃ cs, h.store.due (some time) .null = .ok cs ∧ (History.story i c h.log).floored ∈ cs := by
  obtain ⟨cs, hcs, hfinds⟩ := hh.opened.due ht hl
  refine ⟨cs, hcs, hfinds i _ hh.row ?_ ⟨w.floored, ?_, ?_⟩⟩
  · simp only [Context.floored, hopen, Option.map_none]
  · simp only [Context.floored, hw, Option.map_some]
  · have hstep : time.InStep w.floored := time.inStep_utc _
    rw [hstep, decide_eq_false_iff_not]
    have := w.floored_micros_le
    omega

end Kept

private theorem blank_of_empty (url ns : String) : (Store.keys ⟨url, ns, true, []⟩).Blank := by
  refine ⟨⟨fun _ => rfl, rfl, fun _ => rfl⟩, fun k hk contact => ?_⟩
  have hserver : ⟨url, ns, true, []⟩ = k := Store.keys.inj hk
  subst hserver
  rfl

end Store
end DurableFlow
