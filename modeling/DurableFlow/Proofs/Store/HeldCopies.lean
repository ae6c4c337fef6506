import DurableFlow.Proofs.Store.RowLives

/-! Writes through a copy. The holder of a copy decides by the copy alone, and writes either at the
version of the copy or, to finish, at any version. -/
namespace DurableFlow.Store

/-- A deed decided and written through a copy `c` that became `c'`. The copy was open; only a deed
that finishes may have found a row of another version. -/
def Done (d : Deed) (s : Store) (c : Context) (s' : Store) (c' : Context) : Prop :=
  ∃ i r time updated, c.id = some i ∧ c.completed = none ∧
    Changed s i (d.changes c.results) time r s' ∧ (c.version = r.version ∨ ∃ t, d = .finish t) ∧
    c' = { c.applyAll (d.changes c.results) with version := r.version + 1, updated }

def Acted (D : Deed → Prop) (s : Store) (c : Context) (s' : Store) (c' : Context) : Prop :=
  s' = s ∧ c' = c ∨ ∃ d, D d ∧ Done d s c s' c'

def Closes (i : String) (c c' : Context) : Prop :=
  c.id = some i ∧ c.completed = none ∧ c'.completed ≠ none

def isBehind (s : Store) (c : Context) : Bool :=
  (c.id.bind fun i => s.row? i).any fun r => decide (c.version < r.version)

def ClosesBlindly (s : Store) (c c' : Context) : Prop :=
  c.completed = none ∧ c'.completed ≠ none ∧ s.isBehind c = true

def completedAgain (k : Kind) (time now : Moment) (r : Context) : Context :=
  k.changed [.completed (some time), .wakeup none] now r

def Refinished (s : Store) (c : Context) (s' : Store) (c' : Context) : Prop :=
  ∃ i r time now, Closes i c c' ∧ r.completed ≠ none ∧ c.version < r.version ∧
    Changed s i [.completed (some time), .wakeup none] now r s'

private theorem Refinished.rested {s s' : Store} {c c' : Context} (h : Refinished s c s' c')
    (hs : s.Rested) : s'.Rested := by
  obtain ⟨i, r, time, now, _, _, _, hch⟩ := h
  intro j r' hr' hc
  by_cases hj : j = i
  · rw [hj, hch.row] at hr'
    cases hr'
    rfl
  · exact hs j r' (hch.others j hj ▸ hr') hc

namespace Done
variable {d : Deed} {s s' : Store} {c c' : Context}

theorem kind (h : Done d s c s' c') : s'.kind = s.kind := by
  obtain ⟨_, _, _, _, _, _, hch, _⟩ := h
  exact hch.kind

theorem fits (h : Done d s c s' c') {x : Context} (hx : Fits s x) : Fits s' x := by
  obtain ⟨i, r, time, updated, _, _, hch, _⟩ := h
  exact hch.fits hx

/-- A deed leaves a trace on the row, for the version is another one. -/
theorem row_ne (h : Done d s c s' c') {i : String} {r : Context} (hid : c.id = some i)
    (hr : s.row? i = some r) : s'.row? i ≠ some r := by
  obtain ⟨j, r', time, updated, hid', _, hch, _⟩ := h
  rw [hid] at hid'
  cases hid'
  intro hr'
  have hfound := hch.found
  rw [hr] at hfound
  cases hfound
  rw [hch.row] at hr'
  have hversion : r.version + 1 = r.version := congrArg Context.version (Option.some.inj hr')
  omega

/-- A copy stays a copy of the same context. -/
theorem sameFrame (h : Done d s c s' c') : c.SameFrame c' := by
  obtain ⟨_, _, _, _, _, _, _, _, rfl⟩ := h
  obtain ⟨hid, hc, hf, hu, hp, ht, hi⟩ := Context.SameFrame.applyAll c (d.changes c.results)
  exact ⟨hid, hc, hf, hu, hp, ht, hi⟩

/-- Through a current copy a deed is done on an open row, and the copy stays current. -/
theorem of_current (h : Done d s c s' c') (hc : Current s c) :
    Evolves (· = d) s s' ∧ Current s' c' := by
  obtain ⟨i, r, time, updated, hid, ho, hch, _, rfl⟩ := h
  obtain ⟨_, hm⟩ := hc.row hid hch.found
  exact ⟨.of_changed (hm.results ▸ hch) (hm.completed_eq_none.mpr ho) rfl,
    hch.current hid hm updated⟩

private theorem completed_finish (c : Context) (t : Moment) (version : Int) (updated : Moment) :
    ({ c.applyAll ((Deed.finish t).changes c.results) with version, updated } : Context).completed ≠
      none := by
  intro h
  cases h

/-- A copy that fits its row still does after a deed through it, but for a blind completion. -/
theorem held_fits_or (h : Done d s c s' c') (hc : Fits s c) :
    Fits s' c' ∨ (∃ t, d = .finish t) ∧ ClosesBlindly s c c' := by
  have hdone := h
  obtain ⟨i, r, time, updated, hid, ho, hch, hor, rfl⟩ := h
  obtain ⟨hle, hm⟩ := hc.row hid hch.found
  by_cases hv : c.version = r.version
  · exact .inl (hdone.of_current ⟨i, r, hid, hch.found, hv, hm hv⟩).2.fits
  · obtain ⟨t, rfl⟩ := hor.resolve_left hv
    have hlt : c.version < r.version := by omega
    refine .inr ⟨⟨t, rfl⟩, ho, completed_finish _ _ _ _, ?_⟩
    simpa [isBehind, hid, hch.found] using hlt

/-- An open copy that fits its row still does after a deed through it, unless it is closed. -/
theorem coherent (h : Done d s c s' c') (hc : Coherent s c) : Coherent s' c' := by
  have hdone := h
  obtain ⟨i, r, time, updated, hid, ho, _⟩ := h
  rcases hdone.held_fits_or (hc ho) with hf | ⟨_, _, hclosed, _⟩
  · exact hf.coherent
  · exact fun ho' => absurd ho' hclosed

/-- Through a copy that may be stale a deed is done on an open row, or a row is finished again. -/
theorem evolves_or (h : Done d s c s' c') (hc : Coherent s c) :
    Evolves (· = d) s s' ∨ (∃ t, d = .finish t) ∧ Refinished s c s' c' := by
  have hdone := h
  obtain ⟨i, r, time, updated, hid, ho, hch, hor, rfl⟩ := h
  obtain ⟨hle, hm⟩ := (hc ho).row hid hch.found
  by_cases hv : c.version = r.version
  · exact .inl (hdone.of_current ⟨i, r, hid, hch.found, hv, hm hv⟩).1
  · obtain ⟨t, rfl⟩ := hor.resolve_left hv
    by_cases hr : r.completed = none
    · exact .inl (.of_changed hch hr rfl)
    · have hlt : c.version < r.version := by omega
      have hcl : Closes i c { c.applyAll ((Deed.finish t).changes c.results) with
          version := r.version + 1, updated } := ⟨hid, ho, completed_finish _ _ _ _⟩
      exact .inr ⟨⟨t, rfl⟩, i, r, t, time, hcl, hr, hlt, hch⟩

end Done

namespace Acted
variable {D D' : Deed → Prop} {s s' : Store} {c c' : Context}

theorem kind (h : Acted D s c s' c') : s'.kind = s.kind := by
  obtain ⟨rfl, -⟩ | ⟨_, _, hd⟩ := h
  · rfl
  · exact hd.kind

theorem mono (h : Acted D s c s' c') (hD : ∀ d, D d → D' d) : Acted D' s c s' c' := by
  rcases h with hi | ⟨d, hd, h⟩
  · exact .inl hi
  · exact .inr ⟨d, hD d hd, h⟩

theorem fits (h : Acted D s c s' c') {x : Context} (hx : Fits s x) : Fits s' x := by
  rcases h with ⟨rfl, _⟩ | ⟨d, _, h⟩
  · exact hx
  · exact h.fits hx

theorem coherent (h : Acted D s c s' c') (hc : Coherent s c) : Coherent s' c' := by
  rcases h with ⟨rfl, rfl⟩ | ⟨d, _, h⟩
  · exact hc
  · exact h.coherent hc

theorem held_fits_or (h : Acted D s c s' c') (hc : Fits s c) :
    Fits s' c' ∨ ClosesBlindly s c c' := by
  rcases h with ⟨rfl, rfl⟩ | ⟨d, _, h⟩
  · exact .inl hc
  · exact (h.held_fits_or hc).imp_right And.right

/-- Without a completion a copy that fits its row still does. -/
theorem held_fits (h : Acted D s c s' c') (hD : ∀ d t, D d → d ≠ .finish t) (hc : Fits s c) :
    Fits s' c' := by
  rcases h with ⟨rfl, rfl⟩ | ⟨d, hd, h⟩
  · exact hc
  · rcases h.held_fits_or hc with hf | ⟨⟨t, ht⟩, _⟩
    · exact hf
    · exact absurd ht (hD d t hd)

theorem of_current (h : Acted D s c s' c') (hc : Current s c) :
    Evolves D s s' ∧ Current s' c' := by
  rcases h with ⟨rfl, rfl⟩ | ⟨d, hd, h⟩
  · exact ⟨.refl, hc⟩
  · obtain ⟨he, hc'⟩ := h.of_current hc
    exact ⟨he.mono fun _ he => he ▸ hd, hc'⟩

theorem evolves_or (h : Acted D s c s' c') (hc : Coherent s c) :
    Evolves D s s' ∨ Refinished s c s' c' := by
  rcases h with ⟨rfl, rfl⟩ | ⟨d, hd, h⟩
  · exact .inl .refl
  · rcases h.evolves_or hc with he | hr
    · exact .inl (he.mono fun _ he => he ▸ hd)
    · exact .inr hr.2

theorem rested (h : Acted D s c s' c') (hc : Coherent s c) (hs : s.Rested) : s'.Rested := by
  rcases h.evolves_or hc with hv | hr
  · exact hv.rested hs
  · exact hr.rested hs

/-- A completed row changes only with a copy that is closed, and then by one more completion. -/
theorem completed_row (h : Acted D s c s' c') (hc : Coherent s c) {i : String} {r : Context}
    (hr : s.row? i = some r) (hcompleted : r.completed ≠ none) :
    ¬ Closes i c c' ∧ s'.row? i = some r ∨
      Closes i c c' ∧ ∃ time now, s'.row? i = some (completedAgain s.kind time now r) := by
  rcases h with ⟨rfl, rfl⟩ | ⟨d, _, hdone⟩
  · exact .inl ⟨fun hcl => hcl.2.2 hcl.2.1, hr⟩
  · rcases hdone.evolves_or hc with hv | ⟨_, j, r', time, now, hcl, _, _, hch⟩
    · left
      have hr' := hv.row_of_completed hr hcompleted
      exact ⟨fun hcl => hdone.row_ne hcl.1 hr hr', hr'⟩
    · by_cases hj : i = j
      · subst hj
        have hfound := hch.found
        rw [hr] at hfound
        cases hfound
        exact .inr ⟨hcl, time, now, hch.row⟩
      · left
        refine ⟨?_, (hch.others i hj).trans hr⟩
        intro hcl'
        have hid := hcl.1
        rw [hcl'.1] at hid
        cases hid
        exact hj rfl

/-- Only a deed that finishes closes a copy. -/
theorem finishes (h : Acted D s c s' c') {i : String} (hcl : Closes i c c') :
    ∃ time, D (.finish time) := by
  obtain ⟨_, ho, ho'⟩ := hcl
  rcases h with ⟨_, rfl⟩ | ⟨d, hd, _, _, _, _, _, _, _, _, rfl⟩
  · exact absurd ho ho'
  · refine Classical.byContradiction fun hno => ?_
    have hother (time : Moment) (he : d = .finish time) : False := hno ⟨time, he ▸ hd⟩
    exact ho' ((Deed.completed_applyAll hother _ _).trans ho)

/-- Through a copy of a completed row something is written exactly when the copy is closed. -/
theorem eq_iff_of_completed (h : Acted D s c s' c') (hc : Coherent s c) {i : String} {r : Context}
    (hid : c.id = some i) (hr : s.row? i = some r) (hcompleted : r.completed ≠ none) :
    s' = s ↔ ¬ Closes i c c' := by
  obtain ⟨hno, hrow⟩ | ⟨hcl, time, now, hrow⟩ := h.completed_row hc hr hcompleted
  · refine ⟨fun _ => hno, fun _ => ?_⟩
    rcases h with ⟨hs, _⟩ | ⟨d, _, hdone⟩
    · exact hs
    · exact absurd hrow (hdone.row_ne hid hr)
  · refine ⟨?_, fun hno => absurd hcl hno⟩
    rintro rfl
    rw [hr] at hrow
    have hversion : r.version = r.version + 1 := congrArg Context.version (Option.some.inj hrow)
    omega

/-- Deeds that do not finish are done at the version of the copy, on an open row. -/
theorem evolves (h : Acted D s c s' c') (hD : ∀ d t, D d → d ≠ .finish t) (hc : Coherent s c) :
    Evolves D s s' := by
  rcases h with ⟨rfl, rfl⟩ | ⟨d, hd, h⟩
  · exact .refl
  · rcases h.evolves_or hc with he | ⟨⟨t, ht⟩, _⟩
    · exact he.mono fun _ he => he ▸ hd
    · exact absurd ht (hD d t hd)

/-- A deed through a copy changes no row but that of the copy. -/
theorem others (h : Acted D s c s' c') {i : String} (hid : c.id = some i) (j : String)
    (hj : j ≠ i) : s'.row? j = s.row? j := by
  rcases h with ⟨rfl, _⟩ | ⟨d, _, i', r, time, updated, hid', _, hch, _⟩
  · rfl
  · rw [hid] at hid'
    cases hid'
    exact hch.others j hj

end Acted

end DurableFlow.Store
