import DurableFlow.Proofs.Store.OptimisticUpdates

/-! Where the wakeup times of a store come from. Insertions and updates leave no time in a row but
such as one of them gave, as the store keeps it. -/
namespace DurableFlow

namespace Context
variable {c : Context} {changes : List Change} {w : Moment}

def Change.wakeups (changes : List Change) : List Moment :=
  changes.filterMap fun
    | .wakeup t => t
    | _ => none

theorem Change.mem_wakeups : w ∈ Change.wakeups changes ↔ Change.wakeup (some w) ∈ changes := by
  simp only [wakeups, List.mem_filterMap]
  constructor
  · rintro ⟨ch, hch, hw⟩
    cases ch with
    | wakeup t =>
      cases hw
      exact hch
    | node v | completed t | results v | other name => cases hw
  · exact fun h => ⟨_, h, rfl⟩

/-- A wakeup time after changes is one that they give, or the one from before. -/
theorem wakeup_applyAll (h : (c.applyAll changes).wakeup = some w) :
    w ∈ Change.wakeups changes ∨ c.wakeup = some w := by
  induction changes generalizing c with
  | nil => exact .inr h
  | cons ch rest ih =>
    simp only [Change.mem_wakeups, List.mem_cons] at ih ⊢
    obtain hrest | hfirst := ih (c := c.apply ch) h
    · exact .inl (.inr hrest)
    · cases ch with
      | wakeup t =>
        cases hfirst
        exact .inl (.inl rfl)
      | node v | completed t | results v | other name => exact .inr hfirst

end Context

namespace Store
variable {s : Store} {ts : List Moment}

theorem Kind.wakeups_change (k : Kind) (changes : List Context.Change) :
    Context.Change.wakeups (changes.map k.change) = (Context.Change.wakeups changes).map k.time := by
  rw [Context.Change.wakeups, Context.Change.wakeups, List.filterMap_map, List.map_filterMap]
  congr 1
  funext ch
  cases ch <;> rfl

def Call.wakeups : Call → List Moment
  | .insert _ _ c => c.wakeup.toList
  | .update _ _ _ changes _ => Context.Change.wakeups changes

def WakesAt (ts : List Moment) (s : Store) : Prop :=
  ∀ i r w, s.row? i = some r → r.wakeup = some w → ∃ t ∈ ts, w = s.kind.time t

theorem Vacant.wakesAt (hv : s.Vacant) (ts : List Moment) : s.WakesAt ts := by
  intro i r w hr
  rw [hv.row?_eq_none i] at hr
  cases hr

private theorem WakesAt.step {h : History} (hw : h.store.WakesAt ts) {call : Call}
    (hc : ∀ t ∈ call.wakeups, t ∈ ts) : (h.step call).store.WakesAt ts := by
  cases call with
  | insert fresh now c =>
    have hi := insert_ensures fresh now h.store c
    cases he : Store.insert fresh now ⟨h.store, c⟩ with
    | error f g =>
      have hsame : g.state = h.store := hi.of_eq_error he
      simpa only [History.step, Call.perform, he, hsame] using hw
    | ok _ g =>
      obtain ⟨hheld, hfiled, -, -⟩ := hi.of_eq_ok he
      simp only [History.step, Call.perform, he]
      intro j r w hr hwake
      rw [hfiled.kind]
      by_cases hij : j = c.id.getD fresh
      · rw [hij, hfiled.row] at hr
        cases hr
        obtain ⟨u, hu, rfl⟩ := Option.map_eq_some_iff.mp hwake
        rw [hheld] at hu
        exact ⟨u, hc u (Option.mem_toList.mpr hu), rfl⟩
      · exact hw j r w (hfiled.others j hij ▸ hr) hwake
  | update now fault id changes expected =>
    obtain ⟨f, hp⟩ | ⟨i, r, s, rfl, hch, -, -, hp⟩ :=
      History.perform_update h now fault id changes expected
    · simpa only [History.step, hp] using hw
    · simp only [History.step, hp]
      intro j r' w hr' hwake
      rw [hch.kind]
      by_cases hij : j = i
      · subst hij
        cases hch.row.symm.trans hr'
        obtain hgiven | hbefore := Context.wakeup_applyAll hwake
        · rw [Kind.wakeups_change] at hgiven
          obtain ⟨t, ht, rfl⟩ := List.mem_map.mp hgiven
          exact ⟨t, hc t ht, rfl⟩
        · exact hw j r w hch.found hbefore
      · exact hw j r' w (hch.others j hij ▸ hr') hwake

private theorem WakesAt.run {h : History} (hw : h.store.WakesAt ts) {calls : List Call}
    (hc : ∀ call ∈ calls, ∀ t ∈ call.wakeups, t ∈ ts) : (h.run calls).store.WakesAt ts := by
  induction calls generalizing h with
  | nil => exact hw
  | cons call rest ih =>
    obtain ⟨hcall, hrest⟩ := List.forall_mem_cons.mp hc
    exact ih (hw.step hcall) hrest

/-- After every run over a store that held no context, each wakeup time is one that a call gave. -/
theorem Vacant.wakesAt_run (hv : s.Vacant) (calls : List Call) :
    (History.run ⟨s, []⟩ calls).store.WakesAt (calls.flatMap Call.wakeups) := by
  refine WakesAt.run (hv.wakesAt _) fun call hcall t ht => ?_
  exact List.mem_flatMap.mpr ⟨call, hcall, ht⟩

end Store
end DurableFlow
