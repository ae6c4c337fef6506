import DurableFlow.Proofs.Session.Requests

/-! Completed contexts. Once a stored context is completed it stays so, whatever is done through the
copies that do not know yet; such a copy can complete the context once more, but change nothing else. -/
namespace DurableFlow.Session
open Engine (Unrecorded)
open Store (Closes Deed Kind completedAgain)
variable {D : Deed → Prop} {i : String} {r r' r'' : Context} {s s' : Session}

/-! ## Completed rows -/

def closesCopy (i : String) (s s' : Session) : Bool :=
  (s.copies.zip s'.copies).any fun (c, c') => c.id = some i && !c.isCompleted && c'.isCompleted

theorem closesCopy_iff : closesCopy i s s' = true ↔
    ∃ (copy : Nat) (c c' : Context), s.copies[copy]? = some c ∧ s'.copies[copy]? = some c' ∧
      Closes i c c' := by
  have hcloses (c c' : Context) :
      (c.id = some i && !c.isCompleted && c'.isCompleted) = true ↔ Closes i c c' := by
    simp [Context.isCompleted, Closes, Option.isSome_iff_ne_none, and_assoc]
  simp only [closesCopy, List.any_eq_true, List.mem_iff_getElem?, List.getElem?_zip_eq_some, hcloses]
  constructor
  · rintro ⟨⟨c, c'⟩, ⟨copy, hc, hc'⟩, h⟩
    exact ⟨copy, c, c', hc, hc', h⟩
  · rintro ⟨copy, c, c', hc, hc', h⟩
    exact ⟨(c, c'), ⟨copy, hc, hc'⟩, h⟩

/-- A step beside the copies leaves every copy in its place. -/
theorem getElem?_beside {handed : List Context} (h : s'.copies = s.copies ++ handed) {copy : Nat}
    (hlt : copy < s.copies.length) : s'.copies[copy]? = s.copies[copy]? := by
  rw [h, List.getElem?_append_left hlt]

/-- A step through a copy leaves every other copy in its place. -/
theorem getElem?_through {copy k : Nat} {c' : Context} {handed : List Context}
    (h : s'.copies = s.copies.set copy c' ++ handed) (hlt : k < s.copies.length) :
    s'.copies[k]? = if copy = k then some c' else s.copies[k]? := by
  rw [h, List.getElem?_append_left (by rwa [List.length_set]), List.getElem?_set]
  split
  · rename_i he
    rw [if_pos (he ▸ hlt)]
  · rfl

theorem closesCopy_beside {handed : List Context} (h : s'.copies = s.copies ++ handed) :
    closesCopy i s s' = false := by
  rw [Bool.eq_false_iff]
  intro hcloses
  obtain ⟨copy, c, c', hc, hc', _, ho, ho'⟩ := closesCopy_iff.mp hcloses
  obtain ⟨hlt, _⟩ := List.getElem?_eq_some_iff.mp hc
  rw [getElem?_beside h hlt, hc] at hc'
  cases hc'
  exact ho' ho

theorem closesCopy_through {copy : Nat} {c c' : Context} {handed : List Context}
    (hc : s.copies[copy]? = some c) (h : s'.copies = s.copies.set copy c' ++ handed) :
    closesCopy i s s' = true ↔ Closes i c c' := by
  rw [closesCopy_iff]
  constructor
  · rintro ⟨k, x, x', hx, hx', hcl⟩
    obtain ⟨hk, _⟩ := List.getElem?_eq_some_iff.mp hx
    rw [getElem?_through h hk] at hx'
    split at hx'
    · rename_i he
      subst he
      rw [hc] at hx
      cases hx
      cases hx'
      exact hcl
    · rw [hx] at hx'
      cases hx'
      exact absurd hcl.2.1 hcl.2.2
  · intro hcl
    obtain ⟨hlt, _⟩ := List.getElem?_eq_some_iff.mp hc
    exact ⟨copy, c, c', hc, by rw [getElem?_through h hlt, if_pos rfl], hcl⟩

/-- In one step a completed row stays as it is, unless an open copy of it is completed. -/
theorem Stepped.completed_row (h : Stepped D s s') (hs : s.Sound)
    (hr : s.engine.store.row? i = some r) (hc : r.completed ≠ none) :
    closesCopy i s s' = false ∧ s'.engine.store.row? i = some r ∨
      closesCopy i s s' = true ∧ ∃ time now,
        s'.engine.store.row? i = some (completedAgain s.engine.store.kind time now r) := by
  cases h with
  | beside moves copies _ =>
    exact .inl ⟨closesCopy_beside copies, moves.evolves.row_of_completed hr hc⟩
  | @through copy c c' handed found passed copies _ =>
    have hcloses : closesCopy i s s' = true ↔ Closes i c c' := closesCopy_through found copies
    obtain ⟨_, m, ha, hv⟩ := passed
    obtain ⟨hno, hrow⟩ | ⟨hcl, time, now, hrow⟩ :=
      ha.completed_row (hs.coherent_unbound found) hr hc
    · left
      rw [Bool.eq_false_iff, ne_eq, hcloses]
      exact ⟨hno, hv.row_of_completed hrow hc⟩
    · right
      rw [hcloses]
      refine ⟨hcl, time, now, hv.row_of_completed hrow ?_⟩
      intro hnone
      cases hnone

/-! ## Absorption -/

structure Absorbed (r r' : Context) : Prop where
  completed : r'.completed ≠ none
  wakeup : r'.wakeup = none
  node : r'.node = r.node
  results : r'.results = r.results
  contact : r'.contact = r.contact
  flow : r'.flow = r.flow
  flowUuid : r'.flowUuid = r.flowUuid
  parent : r'.parent = r.parent

private theorem Absorbed.refl (hc : r.completed ≠ none) (hw : r.wakeup = none) : Absorbed r r :=
  ⟨hc, hw, rfl, rfl, rfl, rfl, rfl, rfl⟩

private theorem Absorbed.again (h : Absorbed r r') (k : Kind) (time now : Moment) :
    Absorbed r (completedAgain k time now r') := by
  obtain ⟨_, _, hn, hr, hc, hf, hu, hp⟩ := h
  refine ⟨?_, rfl, hn, hr, hc, hf, hu, hp⟩
  intro hnone
  cases hnone

private theorem Absorbed.run (h : Absorbed r r') (hs : s.Sound)
    (hr : s.engine.store.row? i = some r') (requests : List Request) :
    ∃ r'', (s.run requests).engine.store.row? i = some r'' ∧ Absorbed r r'' := by
  induction requests generalizing s r' with
  | nil => exact ⟨r', hr, h⟩
  | cons q rest ih =>
    have hstep := (perform_stepped hs.ready q).completed_row hs hr h.completed
    obtain ⟨_, hrow⟩ | ⟨_, time, now, hrow⟩ := hstep
    · exact ih h (hs.perform q) hrow
    · exact ih (h.again _ time now) (hs.perform q) hrow

/-- A context that is completed at some point of a run is completed ever after, waits for nothing,
and keeps its node, its results, its contact, its flow and its parent. No listing of the due
contexts shows it, and the next wakeup time is always that of another context, which is open. -/
theorem completed_absorbed (hs : s.Fresh) (before after : List Request)
    (hr : (s.run before).engine.store.row? i = some r) (hc : r.completed ≠ none) :
    let t := ((s.run before).run after).engine.store
    (∃ r', t.row? i = some r' ∧ Absorbed r r') ∧
    (∀ now limit cs, t.due now limit = .ok cs → ∀ c ∈ cs, c.id ≠ some i) ∧
    (∀ w, t.nextWakeup = .ok (some w) → ∃ j r' u, j ≠ i ∧ t.row? j = some r' ∧
      r'.completed = none ∧ r'.wakeup = some u ∧ w = t.kind.alarm u) := by
  intro t
  have hbefore := hs.sound.run before
  have hstore : t.Sound := (hbefore.run after).ready.sound
  have hstart : Absorbed r r := .refl hc (hbefore.rested i r hr hc)
  obtain ⟨r', hr', ha⟩ := hstart.run hbefore hr after
  refine ⟨⟨r', hr', ha⟩, ?_, ?_⟩
  · intro now limit cs hcs c hcmem hid
    obtain ⟨⟨j, x, hj, hx, he⟩, hsuspended⟩ := hstore.due_copied hcs hcmem
    rw [hid] at hj
    cases hj
    rw [hr'] at hx
    cases hx
    have hopen := Store.of_isSuspended hsuspended
    rw [he] at hopen
    exact ha.completed hopen
  · intro w hw
    obtain ⟨j, x, u, hx, hopen, hu, hwu⟩ := hstore.nextWakeup_of_open hw
    refine ⟨j, x, u, ?_, hx, hopen, hu, hwu⟩
    rintro rfl
    rw [hr'] at hx
    cases hx
    exact ha.completed hopen

/-- A context that is advanced to its end stays there, whatever the holder of an older copy does. -/
theorem completed_absorbed_late :
    let before : List Request := [.call (.start oneNode (.int 7) none),
      .call (.ofContact (.int 7) true), .call (.through 0 (.advance (.int 0)))]
    let after : List Request := [.call (.through 1 (.suspend (some (Moment.utc 0)))),
      .call (.through 1 (.record [("a", .int 1)])), .call (.through 1 .complete)]
    let i := Engine.freshId 1
    let t := ((inMemory.run before).run after).engine.store
    ∃ r, (inMemory.run before).engine.store.row? i = some r ∧ r.completed ≠ none ∧
      (∃ r', t.row? i = some r' ∧ Absorbed r r') ∧
      (∀ cs, t.due (some (Moment.utc 1)) .null = .ok cs → ∀ c ∈ cs, c.id ≠ some i) := by
  intro before after i t
  have hrow : ((inMemory.run before).engine.store.row? i).any Context.isCompleted = true := by
    decide +kernel
  obtain ⟨r, hr, hcompleted⟩ := (Option.any_eq_true _ _).mp hrow
  have hc : r.completed ≠ none := Option.isSome_iff_ne_none.mp hcompleted
  obtain ⟨habsorbed, hdue, _⟩ := completed_absorbed fresh_inMemory before after hr hc
  exact ⟨r, hr, hc, habsorbed, hdue _ _⟩

end DurableFlow.Session
