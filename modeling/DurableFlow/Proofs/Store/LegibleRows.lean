import DurableFlow.Proofs.Store.StoredRows
import DurableFlow.Proofs.ZonedTimes

/-! Reads of rows. A row is read where a calendar shows its wakeup time and its completion, and is
refused else. -/
namespace DurableFlow

theorem Moment.dated_eq_ok {t u : Moment} : t.dated = .ok u ↔ t.isDated = true ∧ u = t := by
  unfold Moment.dated
  cases t.isDated with
  | true => simp [eq_comm]
  | false =>
    simp only [Bool.false_eq_true, if_false, false_and, iff_false]
    intro h
    split at h
    · cases h
    · split at h <;> cases h

namespace Context
variable {c d : Context}

def isLegible (c : Context) : Bool := c.wakeup.all Moment.isDated && c.completed.all Moment.isDated

theorem checkTime_eq_ok {t : Option Moment} {u : Unit} :
    checkTime t = .ok u ↔ t.all Moment.isDated = true := by
  cases t with
  | none => simp [checkTime]
  | some t =>
    cases h : t.dated with
    | ok v => simpa [checkTime, h, Except.map] using (Moment.dated_eq_ok.mp h).1
    | error f =>
      simp only [checkTime, h, Except.map, reduceCtorEq, Option.all_some, false_iff]
      intro ht
      rw [Moment.dated_eq_ok.mpr ⟨ht, rfl⟩] at h
      cases h

theorem dated_eq_ok : c.dated = .ok d ↔ c.isLegible = true ∧ d = c := by
  simp only [dated, Store.bind_eq_ok, checkTime_eq_ok, isLegible, Bool.and_eq_true]
  constructor
  · rintro ⟨_, hw, _, hd, h⟩
    exact ⟨⟨hw, hd⟩, (Except.ok.inj h).symm⟩
  · rintro ⟨⟨hw, hd⟩, rfl⟩
    exact ⟨(), hw, (), hd, rfl⟩

theorem dated_of_isLegible (h : c.isLegible = true) : c.dated = .ok c := dated_eq_ok.mpr ⟨h, rfl⟩

def Change.isLegible : Change → Bool
  | .wakeup t | .completed t => t.all Moment.isDated
  | .node _ | .results _ | .other _ => true

theorem isLegible_applyAll {changes : List Change} (h : c.isLegible = true)
    (hch : ∀ ch ∈ changes, ch.isLegible = true) : (c.applyAll changes).isLegible = true := by
  induction changes generalizing c with
  | nil => exact h
  | cons ch rest ih =>
    obtain ⟨hone, hrest⟩ := List.forall_mem_cons.mp hch
    refine ih ?_ hrest
    obtain ⟨hw, hd⟩ := (Bool.and_eq_true _ _).mp h
    cases ch with
    | wakeup t => exact (Bool.and_eq_true _ _).mpr ⟨hone, hd⟩
    | completed t => exact (Bool.and_eq_true _ _).mpr ⟨hw, hone⟩
    | node v | results v | other name => exact h

end Context

namespace Store
variable {α β : Type} {f : α → Except Failure β} {g : α → β} {p : α → Prop} {xs : List α}
  {ys : List β}

/-- Reads that each give the value of a function where they succeed. -/
theorem mapM_eq_ok (hf : ∀ x y, f x = .ok y ↔ p x ∧ y = g x) :
    xs.mapM f = .ok ys ↔ (∀ x ∈ xs, p x) ∧ ys = xs.map g := by
  induction xs generalizing ys with
  | nil => simp [pure, Except.pure, eq_comm]
  | cons x rest ih =>
    simp only [List.mapM_cons, bind_eq_ok, hf, ih, List.forall_mem_cons, List.map_cons]
    constructor
    · rintro ⟨_, ⟨hx, rfl⟩, _, ⟨hrest, rfl⟩, h⟩
      exact ⟨⟨hx, hrest⟩, (Except.ok.inj h).symm⟩
    · rintro ⟨⟨hx, hrest⟩, rfl⟩
      exact ⟨g x, ⟨hx, rfl⟩, _, ⟨hrest, rfl⟩, rfl⟩

theorem option_mapM_eq_ok {o : Option α} {r : Option β} (hf : ∀ x y, f x = .ok y ↔ p x ∧ y = g x) :
    o.mapM f = .ok r ↔ (∀ x, o = some x → p x) ∧ r = o.map g := by
  cases o with
  | none => simp [pure, Except.pure, eq_comm]
  | some x =>
    cases hx : f x with
    | ok y =>
      obtain ⟨hp, rfl⟩ := (hf x y).mp hx
      simp [hx, Functor.map, Except.map, hp, eq_comm]
    | error e =>
      have hn : ¬ p x := fun h => by
        rw [(hf x (g x)).mpr ⟨h, rfl⟩] at hx
        cases hx
      simp [hx, Functor.map, Except.map, hn]

theorem Kind.isDated_time (k : Kind) {t : Moment} (h : t.isDated = true) :
    (k.time t).isDated = true := by
  have hmillis : (Moment.ofMillis t.millis).isDated = true := by
    rw [Moment.isDated_iff] at h ⊢
    simp only [Moment.ofMillis, Moment.utc, Moment.millis]
    rw [Int.fdiv_eq_ediv_of_nonneg _ (by decide)]
    omega
  cases k with
  | memory => exact h
  | rows | keys => exact hmillis

private theorem all_isDated_time (k : Kind) {t : Option Moment} (h : t.all Moment.isDated = true) :
    (t.map k.time).all Moment.isDated = true := by
  cases t with
  | none => rfl
  | some t => exact k.isDated_time h

theorem Kind.isLegible_filed (k : Kind) {c : Context} (h : c.isLegible = true) :
    (k.filed c).isLegible = true := by
  obtain ⟨hw, hd⟩ := (Bool.and_eq_true _ _).mp h
  exact (Bool.and_eq_true _ _).mpr ⟨all_isDated_time k hw, all_isDated_time k hd⟩

theorem Kind.isLegible_change (k : Kind) {ch : Context.Change} (h : ch.isLegible = true) :
    (k.change ch).isLegible = true := by
  cases ch with
  | wakeup t | completed t => exact all_isDated_time k h
  | node v | results v | other name => rfl

/-- Legible changes leave a row legible. -/
theorem Kind.isLegible_changed (k : Kind) {changes : List Context.Change} {r : Context}
    (h : r.isLegible = true) (hch : ∀ ch ∈ changes, ch.isLegible = true) (now : Moment) :
    (k.changed changes now r).isLegible = true := by
  refine Context.isLegible_applyAll h fun ch hm => ?_
  obtain ⟨ch, hch', rfl⟩ := List.mem_map.mp hm
  exact k.isLegible_change (hch ch hch')

theorem ContextRow.read_eq_ok {row : ContextRow} {c : Context} :
    row.read = .ok c ↔ row.context.isLegible = true ∧ c = row.context := Context.dated_eq_ok

theorem mapM_read_eq_ok {rows : List ContextRow} {cs : List Context} :
    rows.mapM ContextRow.read = .ok cs ↔
      (∀ row ∈ rows, row.context.isLegible = true) ∧ cs = rows.map ContextRow.context :=
  mapM_eq_ok fun _ _ => ContextRow.read_eq_ok

end Store
end DurableFlow
