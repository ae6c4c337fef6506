import DurableFlow.Proofs.Store.Insertions
import DurableFlow.Proofs.Store.StoredCopies

/-! The lives of rows. A row is filed once, then deeds change it one at a time; a row that has been
completed takes no more deeds, but for a second completion, which is kept apart here. -/
namespace DurableFlow.Store

inductive Deed where
  | move (node : Json)
  | finish (time : Moment)
  | park (wakeup : Option Moment)
  | record (values : List (String × Json))

namespace Deed

def changes (results : Json) : Deed → List Context.Change
  | move node => [.node node, .wakeup none]
  | finish time => [.completed (some time), .wakeup none]
  | park wakeup => [.wakeup wakeup]
  | record values =>
    match results with
    | .object old => [.results (.object (Table.merge old values))]
    | _ => []

def isRecord : Deed → Bool
  | record _ => true
  | _ => false

/-- Only a deed that finishes changes whether a copy is completed. -/
theorem completed_applyAll {d : Deed} (hd : ∀ time, d ≠ finish time) (results : Json)
    (c : Context) : (c.applyAll (d.changes results)).completed = c.completed := by
  cases d with
  | move node => rfl
  | finish time => exact absurd rfl (hd time)
  | park wakeup => rfl
  | record values => cases results <;> rfl

end Deed

structure Newborn (r : Context) : Prop where
  version : r.version = 1
  results : r.results = .object []
  wakeup : r.wakeup = none
  completed : r.completed = none

inductive Lives (k : Kind) (D : Deed → Prop) (r : Context) : Context → Prop where
  | refl : Lives k D r r
  | step {r' : Context} {d : Deed} {now : Moment} (h : Lives k D r r') (ho : r'.completed = none)
      (hd : D d) : Lives k D r (k.changed (d.changes r'.results) now r')

namespace Lives
variable {k : Kind} {D D' : Deed → Prop} {r r' r'' : Context}

theorem trans (h : Lives k D r r') (h' : Lives k D r' r'') : Lives k D r r'' := by
  induction h' with
  | refl => exact h
  | step _ ho hd ih => exact ih.step ho hd

theorem mono (h : Lives k D r r') (hD : ∀ d, D d → D' d) : Lives k D' r r' := by
  induction h with
  | refl => exact .refl
  | step _ ho hd ih => exact ih.step ho (hD _ hd)

theorem eq_or_lt (h : Lives k D r r') : r' = r ∨ r.version < r'.version := by
  induction h with
  | refl => exact .inl rfl
  | @step r' d now _ _ _ ih =>
    right
    change r.version < r'.version + 1
    rcases ih with rfl | hlt
    · omega
    · omega

theorem eq_of_completed (h : Lives k D r r') (hc : r.completed ≠ none) : r' = r := by
  induction h with
  | refl => rfl
  | step _ ho _ ih => exact absurd (ih ▸ ho) hc

theorem parent (h : Lives k D r r') : r'.parent = r.parent := by
  induction h with
  | refl => rfl
  | step _ _ _ ih => exact (Context.SameFrame.changed _ _ _ _).parent.trans ih

private theorem results_changed {d : Deed} (hd : d.isRecord = false) (now : Moment) (r : Context) :
    (k.changed (d.changes r.results) now r).results = r.results := by
  cases d with
  | move node => rfl
  | finish time => rfl
  | park wakeup => rfl
  | record values => cases hd

theorem results (h : Lives k D r r') (hD : ∀ d, D d → d.isRecord = false) :
    r'.results = r.results := by
  induction h with
  | refl => rfl
  | step _ _ hd ih => exact (results_changed (hD _ hd) _ _).trans ih

private theorem completed_record (results : Json) (values : List (String × Json)) (now : Moment)
    (r : Context) : (k.changed ((Deed.record values).changes results) now r).completed =
      r.completed := by
  cases results <;> rfl

private theorem wakeup_changed (d : Deed) (now : Moment) {r : Context} (ho : r.completed = none) :
    (k.changed (d.changes r.results) now r).completed ≠ none →
      (k.changed (d.changes r.results) now r).wakeup = none := by
  intro hc
  cases d with
  | move node => rfl
  | finish time => rfl
  | park wakeup => exact absurd ho hc
  | record values => exact absurd ((completed_record _ _ _ _).trans ho) hc

/-- A row that is completed waits for nothing, if that was so at the start. -/
theorem wakeup (h : Lives k D r r') (hr : r.completed ≠ none → r.wakeup = none) :
    r'.completed ≠ none → r'.wakeup = none := by
  cases h with
  | refl => exact hr
  | step _ ho _ => exact wakeup_changed _ _ ho

end Lives

def Rested (s : Store) : Prop :=
  ∀ i r, s.row? i = some r → r.completed ≠ none → r.wakeup = none

/-- A store after some deeds on open rows, and after new rows have been filed. -/
structure Evolves (D : Deed → Prop) (s s' : Store) : Prop where
  kind : s'.kind = s.kind
  kept : ∀ i r, s.row? i = some r → ∃ r', s'.row? i = some r' ∧ Lives s.kind D r r'
  new : ∀ i r', s.row? i = none → s'.row? i = some r' → ∃ r, Newborn r ∧ Lives s.kind D r r'

namespace Evolves
variable {D D' : Deed → Prop} {s s' s'' : Store}

theorem refl : Evolves D s s := by
  refine ⟨rfl, fun _ r hr => ⟨r, hr, .refl⟩, ?_⟩
  intro i r' hn hr
  rw [hn] at hr
  cases hr

theorem of_eq (h : s' = s) : Evolves D s s' := h ▸ refl

theorem trans (h : Evolves D s s') (h' : Evolves D s' s'') : Evolves D s s'' := by
  constructor
  · exact h'.kind.trans h.kind
  · intro i r hr
    obtain ⟨r', hr', hl⟩ := h.kept i r hr
    obtain ⟨r'', hr'', hl'⟩ := h'.kept i r' hr'
    exact ⟨r'', hr'', hl.trans (h.kind ▸ hl')⟩
  · intro i r'' hn hr''
    cases hr' : s'.row? i with
    | none =>
      obtain ⟨r, hb, hl⟩ := h'.new i r'' hr' hr''
      exact ⟨r, hb, h.kind ▸ hl⟩
    | some r' =>
      obtain ⟨r, hb, hl⟩ := h.new i r' hn hr'
      obtain ⟨r₂, hr₂, hl'⟩ := h'.kept i r' hr'
      rw [hr''] at hr₂
      cases hr₂
      exact ⟨r, hb, hl.trans (h.kind ▸ hl')⟩

theorem mono (h : Evolves D s s') (hD : ∀ d, D d → D' d) : Evolves D' s s' := by
  refine ⟨h.kind, ?_, ?_⟩
  · intro i r hr
    obtain ⟨r', hr', hl⟩ := h.kept i r hr
    exact ⟨r', hr', hl.mono hD⟩
  · intro i r' hn hr'
    obtain ⟨r, hb, hl⟩ := h.new i r' hn hr'
    exact ⟨r, hb, hl.mono hD⟩

theorem of_changed {i : String} {r : Context} {d : Deed} {now : Moment}
    (h : Changed s i (d.changes r.results) now r s') (ho : r.completed = none) (hd : D d) :
    Evolves D s s' := by
  refine ⟨h.kind, ?_, ?_⟩
  · intro j r' hr'
    by_cases hj : j = i
    · subst hj
      rw [h.found] at hr'
      cases hr'
      exact ⟨_, h.row, Lives.refl.step ho hd⟩
    · exact ⟨r', (h.others j hj).trans hr', .refl⟩
  · intro j r' hn hr'
    have hj : j ≠ i := by
      rintro rfl
      rw [h.found] at hn
      cases hn
    rw [h.others j hj, hn] at hr'
    cases hr'

theorem of_filed {i : String} {c : Context} (h : Filed s i c s') (hn : s.row? i = none)
    (hb : Newborn (s.kind.filed c)) : Evolves D s s' := by
  refine ⟨h.kind, ?_, ?_⟩
  · intro j r hr
    have hj : j ≠ i := by
      rintro rfl
      rw [hn] at hr
      cases hr
    exact ⟨r, (h.others j hj).trans hr, .refl⟩
  · intro j r' hnone hr'
    by_cases hj : j = i
    · subst hj
      rw [h.row] at hr'
      cases hr'
      exact ⟨_, hb, .refl⟩
    · rw [h.others j hj, hnone] at hr'
      cases hr'

/-- A completed row stays exactly as it is. -/
theorem row_of_completed (h : Evolves D s s') {i : String} {r : Context} (hr : s.row? i = some r)
    (hc : r.completed ≠ none) : s'.row? i = some r := by
  obtain ⟨r', hr', hl⟩ := h.kept i r hr
  rw [hr', hl.eq_of_completed hc]

/-- Deeds of others leave a copy behind its row, but never beside it. -/
theorem fits (h : Evolves D s s') {c : Context} (hf : Fits s c) : Fits s' c := by
  obtain ⟨i, r, hid, hr, hv, hm⟩ := hf
  obtain ⟨r', hr', hl⟩ := h.kept i r hr
  refine ⟨i, r', hid, hr', ?_, ?_⟩
  · rcases hl.eq_or_lt with rfl | hlt
    · exact hv
    · omega
  · intro he
    rw [h.kind]
    rcases hl.eq_or_lt with rfl | hlt
    · exact hm he
    · omega

theorem coherent (h : Evolves D s s') {c : Context} (hc : Coherent s c) : Coherent s' c :=
  fun ho => h.fits (hc ho)

theorem rested (h : Evolves D s s') (hs : s.Rested) : s'.Rested := by
  intro i r' hr'
  cases hr : s.row? i with
  | none =>
    obtain ⟨r, hb, hl⟩ := h.new i r' hr hr'
    exact hl.wakeup fun hc => absurd hb.completed hc
  | some r =>
    obtain ⟨r₂, hr₂, hl⟩ := h.kept i r hr
    rw [hr'] at hr₂
    cases hr₂
    exact hl.wakeup (hs i r hr)

end Evolves

/-- A write to one row leaves every copy behind its row, but never beside it. -/
theorem Changed.fits {s s' : Store} {i : String} {chs : List Context.Change} {now : Moment}
    {r c : Context} (h : Changed s i chs now r s') (hf : Fits s c) : Fits s' c := by
  obtain ⟨j, r', hid, hr', hv, hm⟩ := hf
  by_cases hj : j = i
  · subst hj
    rw [h.found] at hr'
    cases hr'
    have hnext : (s.kind.changed chs now r).version = r.version + 1 := rfl
    exact ⟨j, _, hid, h.row, by omega, fun he => absurd he (by omega)⟩
  · exact ⟨j, r', hid, (h.others j hj).trans hr', hv, fun he => h.kind ▸ hm he⟩

/-- A copy at the version of its row stays current when both take the same changes. -/
theorem Changed.current {s s' : Store} {i : String} {chs : List Context.Change} {now : Moment}
    {r c : Context} (h : Changed s i chs now r s') (hid : c.id = some i)
    (hm : Mirrors s.kind r c) (updated : Moment) :
    Current s' { c.applyAll chs with version := r.version + 1, updated } := by
  have hid' : (c.applyAll chs).id = some i := (Context.SameFrame.applyAll c chs).id.trans hid
  exact ⟨i, _, hid', h.row, rfl, h.kind ▸ hm.changed chs now updated _⟩

theorem Filed.current {s s' : Store} {i : String} {c : Context} (h : Filed s i c s')
    (hid : c.id = some i) : Current s' c :=
  ⟨i, _, hid, h.row, rfl, h.kind ▸ mirrors_filed s.kind c⟩

end DurableFlow.Store
