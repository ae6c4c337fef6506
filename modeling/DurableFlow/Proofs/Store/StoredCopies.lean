import DurableFlow.Proofs.Store.SoundStores

/-! Copies of rows. A read hands out a copy of the stored row; the copy and the row part when
someone else writes, and the version tells a holder whether that has happened. -/
namespace DurableFlow.Store

/-! ## Copies and their rows -/

/-- A row says what a copy says in the four fields that can change, each as the store keeps it. -/
structure Mirrors (k : Kind) (r c : Context) : Prop where
  node : r.node = k.node c.node
  wakeup : r.wakeup = c.wakeup.map k.time
  completed : r.completed = c.completed.map k.time
  results : r.results = c.results

namespace Mirrors
variable {k : Kind} {r c : Context}

theorem completed_eq_none (h : Mirrors k r c) : r.completed = none ↔ c.completed = none := by
  rw [h.completed, Option.map_eq_none_iff]

private theorem apply (h : Mirrors k r c) (ch : Context.Change) :
    Mirrors k (r.apply (k.change ch)) (c.apply ch) := by
  obtain ⟨hn, hw, hc, hr⟩ := h
  cases ch with
  | node v => exact ⟨rfl, hw, hc, hr⟩
  | wakeup t => exact ⟨hn, rfl, hc, hr⟩
  | completed t => exact ⟨hn, hw, rfl, hr⟩
  | results v => exact ⟨hn, hw, hc, rfl⟩
  | other name => exact ⟨hn, hw, hc, hr⟩

private theorem applyAll (h : Mirrors k r c) (changes : List Context.Change) :
    Mirrors k (r.applyAll (changes.map k.change)) (c.applyAll changes) := by
  induction changes generalizing r c with
  | nil => exact h
  | cons ch rest ih => exact ih (h.apply ch)

/-- The same changes on both sides keep a copy in agreement with its row. -/
theorem changed (h : Mirrors k r c) (changes : List Context.Change) (now updated : Moment)
    (version : Int) : Mirrors k (k.changed changes now r)
      { c.applyAll changes with version, updated } := by
  obtain ⟨hn, hw, hc, hr⟩ := h.applyAll changes
  exact ⟨hn, hw, hc, hr⟩

end Mirrors

theorem millis_ofMillis (ms : Int) : (Moment.ofMillis ms).millis = ms := by
  simp [Moment.ofMillis, Moment.utc, Moment.millis, Int.mul_fdiv_cancel]

theorem millis_cutToMillis (t : Moment) : t.cutToMillis.millis = t.millis := by
  simp only [Moment.cutToMillis, Moment.millis]
  rw [Int.fdiv_eq_ediv_of_nonneg _ (by omega), Int.fdiv_eq_ediv_of_nonneg _ (by omega),
    Int.fmod_eq_emod_of_nonneg _ (by omega)]
  omega

/-- A time is kept to the millisecond. -/
theorem Kind.millis_time (k : Kind) (t : Moment) : (k.time t).millis = t.millis := by
  cases k with
  | memory => rfl
  | rows | keys => exact millis_ofMillis _

theorem Kind.map_millis_time (k : Kind) (t : Option Moment) :
    (t.map k.time).map Moment.millis = t.map Moment.millis := by
  cases t with
  | none => rfl
  | some t => exact congrArg some (k.millis_time t)

/-- A text is kept as it is. -/
theorem Kind.node_string (k : Kind) (text : String) : k.node (.string text) = .string text := by
  cases k <;> rfl

private theorem time_ofMillis {k : Kind} (hk : k ≠ .memory) (ms : Int) :
    k.time (Moment.ofMillis ms) = Moment.ofMillis ms := by
  cases k with
  | memory => exact absurd rfl hk
  | rows | keys => exact congrArg Moment.ofMillis (millis_ofMillis ms)

private theorem mirrors_context {k : Kind} (hk : k ≠ .memory) (row : ContextRow) :
    Mirrors k row.context row.context := by
  have ht (o : Option Int) : o.map Moment.ofMillis = (o.map Moment.ofMillis).map k.time := by
    cases o with
    | none => rfl
    | some ms => exact congrArg some (time_ofMillis hk ms).symm
  refine ⟨?_, ht row.wakeup, ht row.completed, rfl⟩
  cases k with
  | memory => exact absurd rfl hk
  | rows | keys => rfl

/-- A stored row is as the store keeps it: reading and writing it again changes nothing. -/
theorem mirrors_row {s : Store} {i : String} {r : Context} (h : s.row? i = some r) :
    Mirrors s.kind r r := by
  cases s with
  | memory m =>
    refine ⟨rfl, ?_, ?_, rfl⟩
    · cases r.wakeup <;> rfl
    · cases r.completed <;> rfl
  | rows t =>
    obtain ⟨row, _, rfl⟩ := Option.map_eq_some_iff.mp h
    exact mirrors_context (k := .rows) (by decide) row
  | keys k =>
    simp only [row?] at h
    split at h
    · cases h
      exact mirrors_context (k := .keys) (by decide) _
    · cases h

theorem mirrors_filed (k : Kind) (c : Context) : Mirrors k (k.filed c) c := ⟨rfl, rfl, rfl, rfl⟩

def Current (s : Store) (c : Context) : Prop :=
  ∃ i r, c.id = some i ∧ s.row? i = some r ∧ c.version = r.version ∧ Mirrors s.kind r c

/-- A copy that may be behind its row, but agrees with it when the versions are the same. -/
def Fits (s : Store) (c : Context) : Prop :=
  ∃ i r, c.id = some i ∧ s.row? i = some r ∧ c.version ≤ r.version ∧
    (c.version = r.version → Mirrors s.kind r c)

def Coherent (s : Store) (c : Context) : Prop := c.completed = none → Fits s c

theorem Current.fits {s : Store} {c : Context} (h : Current s c) : Fits s c := by
  obtain ⟨i, r, hid, hr, hv, hm⟩ := h
  exact ⟨i, r, hid, hr, Int.le_of_eq hv, fun _ => hm⟩

theorem Fits.coherent {s : Store} {c : Context} (h : Fits s c) : Coherent s c := fun _ => h

theorem Current.coherent {s : Store} {c : Context} (h : Current s c) : Coherent s c :=
  h.fits.coherent

/-- A copy says which row it is to fit. -/
theorem Fits.row {s : Store} {c r : Context} {i : String} (h : Fits s c) (hid : c.id = some i)
    (hr : s.row? i = some r) :
    c.version ≤ r.version ∧ (c.version = r.version → Mirrors s.kind r c) := by
  obtain ⟨j, r', hid', hr', hv, hm⟩ := h
  rw [hid] at hid'
  cases hid'
  rw [hr] at hr'
  cases hr'
  exact ⟨hv, hm⟩

theorem Current.row {s : Store} {c r : Context} {i : String} (h : Current s c)
    (hid : c.id = some i) (hr : s.row? i = some r) :
    c.version = r.version ∧ Mirrors s.kind r c := by
  obtain ⟨j, r', hid', hr', hv, hm⟩ := h
  rw [hid] at hid'
  cases hid'
  rw [hr] at hr'
  cases hr'
  exact ⟨hv, hm⟩

theorem Current.exists_row {s : Store} {c : Context} {i : String} (h : Current s c)
    (hid : c.id = some i) : ∃ r, s.row? i = some r := by
  obtain ⟨j, r, hid', hr, _⟩ := h
  rw [hid] at hid'
  cases hid'
  exact ⟨r, hr⟩

/-- The node index of a copy plays no part in its agreement with the row. -/
theorem Current.of_unbound {s : Store} {c d : Context} (h : Current s c)
    (hd : d.unbound = c.unbound) : Current s d := by
  obtain ⟨i, r, hid, hr, hv, hm⟩ := h
  simp only [Context.unbound, Context.mk.injEq] at hd
  obtain ⟨h1, _, _, _, h2, _, h3, h4, h5, h6, _⟩ := hd
  exact ⟨i, r, h1.trans hid, hr, h6.trans hv,
    ⟨h2 ▸ hm.node, h3 ▸ hm.wakeup, h4 ▸ hm.completed, h5 ▸ hm.results⟩⟩

theorem Fits.of_unbound {s : Store} {c d : Context} (h : Fits s c)
    (hd : d.unbound = c.unbound) : Fits s d := by
  obtain ⟨i, r, hid, hr, hv, hm⟩ := h
  simp only [Context.unbound, Context.mk.injEq] at hd
  obtain ⟨h1, _, _, _, h2, _, h3, h4, h5, h6, _⟩ := hd
  refine ⟨i, r, h1.trans hid, hr, h6 ▸ hv, fun he => ?_⟩
  have hm := hm (h6 ▸ he)
  exact ⟨h2 ▸ hm.node, h3 ▸ hm.wakeup, h4 ▸ hm.completed, h5 ▸ hm.results⟩

/-- A copy as a read hands it out: the row itself, but for the number that its contact may
spell. -/
def Copied (s : Store) (c : Context) : Prop :=
  ∃ i r, c.id = some i ∧ s.row? i = some r ∧ c = { r with contact := s.kind.told r.contact }

theorem Copied.current {s : Store} {c : Context} (h : Copied s c) : Current s c := by
  obtain ⟨i, r, hid, hr, hc⟩ := h
  obtain ⟨hn, hw, hd, hv⟩ := mirrors_row hr
  refine ⟨i, r, hid, hr, by rw [hc], ?_⟩
  rw [hc]
  exact ⟨hn, hw, hd, hv⟩

end DurableFlow.Store
