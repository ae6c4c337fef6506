import DurableFlow.Failure

/-! Times of several zones. Two of one region compare by what its clocks show, all others by the
instant. The two part only where the clocks of a region have been set back in between. -/
namespace DurableFlow.Moment
variable {t u : Moment}

def InStep (t u : Moment) : Prop := t.isBefore u = decide (t.micros < u.micros)

instance (t u : Moment) : Decidable (t.InStep u) := inferInstanceAs (Decidable (_ = _))

theorem inStep_of_apart (h : t.sharesRegion u = false) : t.InStep u := by
  simp [InStep, isBefore, h]

theorem inStep_utc (t : Moment) (micros : Int) : t.InStep (utc micros) := by
  refine inStep_of_apart ?_
  unfold sharesRegion
  split
  · rename_i h
    cases h
  · rfl

theorem utc_inStep (micros : Int) (t : Moment) : (utc micros).InStep t := inStep_of_apart rfl

theorem sharesRegion_comm (t u : Moment) : t.sharesRegion u = u.sharesRegion t := by
  obtain ⟨_, _ | _ | ⟨x, _⟩⟩ := t <;> obtain ⟨_, _ | _ | ⟨y, _⟩⟩ := u
  case some.region.some.region => exact decide_eq_decide.mpr eq_comm
  all_goals rfl

theorem isBefore_asymm (h : t.isBefore u = true) : u.isBefore t = false := by
  unfold isBefore at h ⊢
  rw [sharesRegion_comm]
  split at h
  · rename_i hs
    rw [if_pos hs]
    simp only [decide_eq_true_eq, decide_eq_false_iff_not] at h ⊢
    omega
  · rename_i hs
    rw [if_neg hs]
    simp only [decide_eq_true_eq, decide_eq_false_iff_not] at h ⊢
    omega

/-- Times that stand in one order. Around a clock that is set back, two of its region and a third of
another one may be in a circle. -/
def InOneOrder (P : Moment → Prop) : Prop :=
  ∀ t u v, P t → P u → P v → u.isBefore t = false → v.isBefore u = false → v.isBefore t = false

theorem ordered_of_inStep {P : Moment → Prop} (h : ∀ t u, P t → P u → t.InStep u) : InOneOrder P := by
  intro t u v ht hu hv hut hvu
  rw [h u t hu ht, decide_eq_false_iff_not] at hut
  rw [h v u hv hu, decide_eq_false_iff_not] at hvu
  rw [h v t hv ht, decide_eq_false_iff_not]
  omega

/-- A time as a clock shows it: in the years 1 to 9999, and less than a day from UTC. -/
structure IsShown (t : Moment) : Prop where
  dated : (utc t.clock).isDated = true
  near : t.offset.natAbs < 86400000000

instance (t : Moment) : Decidable t.IsShown :=
  decidable_of_iff ((utc t.clock).isDated = true ∧ t.offset.natAbs < 86400000000)
    ⟨fun h => ⟨h.1, h.2⟩, fun h => ⟨h.dated, h.near⟩⟩

theorem isDated_iff : t.isDated = true ↔
    -62135596800000000 ≤ t.micros ∧ t.micros ≤ 253402300799999999 := by
  simp only [isDated, Bool.and_eq_true, decide_eq_true_eq]

theorem isShown_utc {micros : Int} (h : (utc micros).isDated = true) : (utc micros).IsShown where
  dated := by simpa [clock, offset, utc, Zone.offset] using h
  near := (by decide : (0 : Int).natAbs < 86400000000)

theorem isDated_cutToMillis (h : t.isDated = true) :
    t.cutToMillis.isDated = true := by
  have hd := isDated_iff.mp h
  have hcut : t.cutToMillis.micros = t.micros - t.micros % 1000 := by
    rw [← Int.fmod_eq_emod_of_nonneg _ (by decide)]
    rfl
  rw [isDated_iff, hcut]
  omega

end DurableFlow.Moment
