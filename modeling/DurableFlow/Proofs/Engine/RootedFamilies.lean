import Mathlib.Data.List.Perm.Subperm
import DurableFlow.Proofs.Engine.FamilyCancellation

/-! Rooted stores: every parent is there, and no context is below itself. A chain of parents in such
a store is no longer than there are contexts, so a cancellation never runs out of depth. -/
namespace DurableFlow.Engine
variable {s s' : Store}

/-- The parents of all contexts are stored, and their links have no cycle. -/
structure Rooted (s : Store) : Prop where
  parents : ∀ i p, parentOf s i = some p → (s.row? p).isSome
  acyclic : ∀ k i, 0 < k → ¬ Below s k i i

theorem exists_row_of_parent {i p : String} (h : parentOf s i = some p) : (s.row? i).isSome := by
  obtain ⟨r, hr, _⟩ := Option.bind_eq_some_iff.mp h
  rw [hr]
  rfl

/-- A store with the same parents, and no row less, is as rooted. -/
theorem Rooted.congr (h : Rooted s) (hp : SameParents s s')
    (hr : ∀ i, (s.row? i).isSome → (s'.row? i).isSome) : Rooted s' :=
  ⟨fun i p hi => hr p (h.parents i p ((hp i).symm.trans hi)),
    fun k i hk hb => h.acyclic k i hk ((Below.congr hp).mp hb)⟩

/-- A context that is filed under a stored parent is below it, and nothing is below the context. -/
theorem Rooted.filed (h : Rooted s) {i : String} {c : Context} (hn : s.row? i = none)
    (hf : Store.Filed s i c s') (hc : ∀ p, c.parent = some p → (s.row? p).isSome) : Rooted s' := by
  have hother (j : String) (hj : j ≠ i) : parentOf s' j = parentOf s j := by
    rw [parentOf, parentOf, hf.others j hj]
  have hkept (j : String) (hj : (s.row? j).isSome) : (s'.row? j).isSome := by
    by_cases hji : j = i
    · rw [hji, hf.row]
      rfl
    · rwa [hf.others j hji]
  have hown (p : String) (hp : parentOf s' i = some p) : (s.row? p).isSome := by
    apply hc
    rw [parentOf, hf.row] at hp
    have hfiled : (s.kind.filed c).parent = some p := hp
    simp only [Store.Kind.filed] at hfiled
    split at hfiled
    · exact (Option.filter_eq_some_iff.mp hfiled).1
    · exact hfiled
  have hfree : ¬ (s.row? i).isSome := by simp [hn]
  have hchildless (j : String) : parentOf s' j ≠ some i := by
    intro hp
    by_cases hj : j = i
    · exact hfree (hown i (hj ▸ hp))
    · exact hfree (h.parents j i (hother j hj ▸ hp))
  have hbelow (k : Nat) (p x : String) (hx : x ≠ i) (hb : Below s' k p x) : Below s k p x := by
    induction k generalizing p with
    | zero => exact hb
    | succ k ih =>
      obtain ⟨j, hj, hb⟩ := hb
      have hji : j ≠ i := by
        rintro rfl
        cases k with
        | zero => exact hx hb.symm
        | succ k =>
          obtain ⟨l, hl, _⟩ := hb
          exact hchildless l hl
      exact ⟨j, hother j hji ▸ hj, ih j hb⟩
  constructor
  · intro j p hp
    by_cases hj : j = i
    · exact hkept p (hown p (hj ▸ hp))
    · exact hkept p (h.parents j p (hother j hj ▸ hp))
  · intro k j hk hb
    by_cases hj : j = i
    · obtain ⟨k, rfl⟩ : ∃ n, k = n + 1 := ⟨k - 1, by omega⟩
      obtain ⟨l, hl, _⟩ := hb
      exact hchildless l (hj ▸ hl)
    · exact h.acyclic k j hk (hbelow k j j hj hb)

private theorem exists_ids_of_below (hs : ∀ k i, 0 < k → ¬ Below s k i i) {n : Nat} {p i : String}
    (h : Below s n p i) : ∃ ids : List String, ids.length = n ∧ ids.Nodup ∧
      ∀ j ∈ ids, (s.row? j).isSome ∧ ∃ k, 0 < k ∧ Below s k p j := by
  induction n generalizing p with
  | zero => exact ⟨[], rfl, List.nodup_nil, fun j hj => by cases hj⟩
  | succ n ih =>
    obtain ⟨j, hj, hb⟩ := h
    obtain ⟨ids, hlength, hnodup, hall⟩ := ih hb
    refine ⟨j :: ids, by rw [List.length_cons, hlength], List.nodup_cons.mpr ⟨?_, hnodup⟩, ?_⟩
    · intro hm
      obtain ⟨_, k, hk, hcycle⟩ := hall j hm
      exact hs k j hk hcycle
    · intro x hx
      rcases List.mem_cons.mp hx with rfl | hx
      · exact ⟨exists_row_of_parent hj, 1, Nat.one_pos, x, hj, rfl⟩
      · obtain ⟨hr, k, _, hbelow⟩ := hall x hx
        exact ⟨hr, k + 1, Nat.succ_pos k, j, hj, hbelow⟩

private theorem length_le_of_keys {α : Type} {ids : List String} (keys : List α) (f : String → α)
    (hf : ∀ i j, f i = f j → i = j) (hn : ids.Nodup) (h : ∀ i ∈ ids, f i ∈ keys) :
    ids.length ≤ keys.length := by
  have hmap : (ids.map f).Nodup := List.pairwise_map.mpr (hn.imp fun hne he => hne (hf _ _ he))
  have hsub : ids.map f ⊆ keys := by
    intro x hx
    obtain ⟨i, hi, rfl⟩ := List.mem_map.mp hx
    exact h i hi
  have hle := (List.subperm_of_subset hmap hsub).length_le
  rwa [List.length_map] at hle

/-- Different contexts are no more than a store counts. -/
theorem length_le_contextCount {ids : List String} (hn : ids.Nodup)
    (h : ∀ i ∈ ids, (s.row? i).isSome) : ids.length ≤ s.contextCount := by
  cases s with
  | memory m =>
    have hle := length_le_of_keys (m.contexts.map Prod.fst) id (fun _ _ he => he) hn ?_
    · rwa [List.length_map] at hle
    · intro i hi
      obtain ⟨r, hr⟩ := Option.isSome_iff_exists.mp (h i hi)
      exact List.mem_map.mpr ⟨_, Table.mem_of_find?_eq_some hr, rfl⟩
  | rows t =>
    have hle := length_le_of_keys (t.contexts.map Store.ContextRow.id) id
      (fun _ _ he => he) hn ?_
    · rwa [List.length_map] at hle
    · intro i hi
      obtain ⟨r, hr⟩ := Option.isSome_iff_exists.mp (h i hi)
      obtain ⟨row, hrow, _⟩ := Option.map_eq_some_iff.mp hr
      have hid : row.id = i := by simpa using List.find?_some hrow
      exact List.mem_map.mpr ⟨row, List.mem_of_find?_eq_some hrow, hid⟩
  | keys k =>
    have hle := length_le_of_keys (k.server.map Prod.fst) (fun i => k.contextKey (some i))
      (fun _ _ he => k.contextKey_inj he) hn ?_
    · rwa [List.length_map] at hle
    · intro i hi
      obtain ⟨r, hr⟩ := Option.isSome_iff_exists.mp (h i hi)
      simp only [Store.row?] at hr
      split at hr
      · rename_i row hrow
        exact List.mem_map.mpr ⟨_, Table.mem_of_find?_eq_some hrow, rfl⟩
      · cases hr

/-- No chain has more links than there are contexts. -/
theorem Rooted.shallow (h : Rooted s) (p : String) : Shallow s (s.contextCount + 1) p := by
  intro i hb
  obtain ⟨ids, hlength, hnodup, hall⟩ := exists_ids_of_below h.acyclic hb
  have hle := length_le_contextCount hnodup fun j hj => (hall j hj).1
  omega

end DurableFlow.Engine
