import DurableFlow.Proofs.Store.DueQueues

/-! Whatever callers of the declared types do to a store that held no context, it is timely. -/
namespace DurableFlow.Store
variable {s : Store}

/-- A call leaves the kind of a store, its connection and its soundness alone. -/
theorem perform_spares (call : Call) (s : Store) :
    (call.perform s).2.kind = s.kind ∧ (call.perform s).2.isConnected = s.isConnected ∧
      (s.Sound → (call.perform s).2.Sound) := by
  cases call with
  | insert fresh now c =>
    have hi := insert_ensures fresh now s c
    cases he : Store.insert fresh now ⟨s, c⟩ with
    | error f g =>
      have hsame : g.state = s := hi.of_eq_error he
      have hp : (Call.insert fresh now c).perform s = (.error f, s) := by
        simp only [Call.perform, he, hsame]
      rw [hp]
      exact ⟨rfl, rfl, fun h => h⟩
    | ok _ g =>
      obtain ⟨-, hfiled, hsound, -⟩ := hi.of_eq_ok he
      simp only [Call.perform, he]
      exact ⟨hfiled.kind, hfiled.connected, hsound⟩
  | update now fault id changes expected =>
    obtain ⟨f, hp⟩ | ⟨i, r, s', -, hch, hsound, -, hp⟩ :=
      History.perform_update ⟨s, []⟩ now fault id changes expected
    · rw [hp]
      exact ⟨rfl, rfl, fun h => h⟩
    · rw [hp]
      exact ⟨hch.kind, hch.connected, hsound⟩

private theorem kind_run {h : History} {calls : List Call} :
    (h.run calls).store.kind = h.store.kind := by
  induction calls generalizing h with
  | nil => rfl
  | cons call rest ih => exact (ih (h := h.step call)).trans (perform_spares call h.store).1

private theorem given_of_waitsUntil {ts : List Moment} (h : s.WakesAt ts) {i : String} {t : Moment}
    (hw : s.WaitsUntil i t) : ∃ u ∈ ts, t = s.kind.time u := by
  obtain ⟨r, hr, -, hwake⟩ := hw
  exact h i r t hr hwake

private theorem zoned_time (k : Kind) {t : Moment} (h : t.zoned = true) : (k.time t).zoned = true := by
  cases k with
  | memory => exact h
  | rows | keys => rfl

private theorem ordered_waits {ts : List Moment} (h : s.WakesAt ts)
    (ho : s.kind = .memory → Moment.InOneOrder (· ∈ ts)) :
    Moment.InOneOrder fun t => ∃ i, s.WaitsUntil i t := by
  by_cases hk : s.kind = .memory
  · have hmem {t : Moment} : (∃ i, s.WaitsUntil i t) → t ∈ ts := by
      rintro ⟨i, hw⟩
      obtain ⟨u, hu, rfl⟩ := given_of_waitsUntil h hw
      rwa [hk]
    exact fun t u v ht hu hv => ho hk t u v (hmem ht) (hmem hu) (hmem hv)
  · refine Moment.ordered_of_inStep ?_
    rintro t u ⟨i, hw⟩ -
    obtain ⟨v, -, rfl⟩ := given_of_waitsUntil h hw
    cases hkind : s.kind with
    | memory => exact absurd hkind hk
    | rows | keys => exact Moment.utc_inStep _ _

/-- After every run of insertions and updates over a store that held no context the store is timely,
if the wakeup times are aware and, in memory, stand in one order. The versions of columns bound the run, as
they do for every update. -/
theorem timely_run (hv : s.Vacant) (hs : s.isConnected = true) {calls : List Call}
    (hf : History.DrawsFresh ⟨s, []⟩ calls) (hc : ∀ call ∈ calls, call.IsTyped)
    (haware : ∀ w ∈ calls.flatMap Call.wakeups, w.zoned = true)
    (ho : s.kind = .memory → Moment.InOneOrder (· ∈ calls.flatMap Call.wakeups))
    (hb : s.kind = .rows → calls.length < Rows.largest) :
    (History.run ⟨s, []⟩ calls).store.Timely := by
  have hcounted := (counted_of_vacant hv hs).run hf
  have hgiven := hv.wakesAt_run calls
  have hkind : (History.run ⟨s, []⟩ calls).store.kind = s.kind := kind_run
  refine ⟨hcounted.connected, hcounted.sound, ?_, ordered_waits hgiven (hkind ▸ ho), ?_, ?_⟩
  · intro i r w hr hw
    obtain ⟨u, hu, rfl⟩ := hgiven i r w hr hw
    exact zoned_time _ (haware u hu)
  · intro i r hr _ hk
    apply checkExpected_of_le
    intro n hn
    cases hn
    have hversion := hcounted.version i r hr
    have hle := History.updates_le (History.run ⟨s, []⟩ calls) i
    rw [History.length_log_run, List.length_nil] at hle
    have := hb (hkind.symm.trans hk)
    omega
  · intro k hk
    cases s with
    | keys k₀ =>
      obtain ⟨k', hk', htimed⟩ := (timed_of_vacant hv hs).run (h := ⟨.keys k₀, []⟩) rfl hc
      cases hk.symm.trans hk'
      exact htimed
    | memory m => cases hkind.symm.trans (congrArg kind hk)
    | rows r => cases hkind.symm.trans (congrArg kind hk)

end DurableFlow.Store
