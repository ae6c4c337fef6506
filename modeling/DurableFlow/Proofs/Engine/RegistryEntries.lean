import DurableFlow.Proofs.Store.SoundStores
import DurableFlow.Registry

/-! Entries of a registry. Whatever is done to it, it holds nothing but what was filed; a flow is found
under a number only if it is its own. -/
namespace DurableFlow.Registry
open DurableFlow.Flow (textOrNull)

variable {r : Registry} {c : Compilation} {entry : Option Json}

private theorem entries_release_sublist :
    (r.release c entry).entries.Sublist r.entries := by
  unfold release
  split
  · exact List.filter_sublist
  · exact .refl _

/-- An eviction takes entries away. -/
theorem entries_evict_sublist {flow : Identifier} :
    (r.evict flow).entries.Sublist r.entries := by
  unfold evict
  split
  · exact .refl _
  · rename_i c _
    have hfold (entries : List (Option Json)) (r : Registry) :
        (entries.foldl (fun r entry => r.release c entry) r).entries.Sublist r.entries := by
      induction entries generalizing r with
      | nil => exact .refl _
      | cons entry rest ih => exact (ih _).trans entries_release_sublist
    exact hfold _ r

theorem mem_evict {flow : Identifier} {x : Option Json × Compilation}
    (h : x ∈ (r.evict flow).entries) : x ∈ r.entries := entries_evict_sublist.subset h

def filed (c : Compilation) (entries : List (Option Json))
    (table : List (Option Json × Compilation)) : List (Option Json × Compilation) :=
  entries.foldl (fun es entry => Table.put entry c es) table

private theorem mem_filed {entries : List (Option Json)} {table : List (Option Json × Compilation)}
    {x : Option Json × Compilation} (h : x ∈ filed c entries table) :
    (x.1 ∈ entries ∧ x.2 = c) ∨ x ∈ table := by
  induction entries generalizing table with
  | nil => exact .inr h
  | cons entry rest ih =>
    rcases ih h with ⟨hentry, hc⟩ | htable
    · exact .inl ⟨List.mem_cons_of_mem _ hentry, hc⟩
    · rcases Table.mem_put htable with rfl | hold
      · exact .inl ⟨List.mem_cons_self, rfl⟩
      · exact .inr hold

theorem nodup_filed {entries : List (Option Json)} {table : List (Option Json × Compilation)}
    (h : (table.map Prod.fst).Nodup) : ((filed c entries table).map Prod.fst).Nodup := by
  induction entries generalizing table with
  | nil => exact h
  | cons entry rest ih => exact ih (Table.nodup_keys_put h)

/-- What is in a registry after a compilation has been filed is that compilation, under one of its
entries, or was there before. -/
theorem mem_insert {x : Option Json × Compilation} (h : x ∈ (r.insert c).entries) :
    (x.1 ∈ entriesOf c.graph ∧ x.2 = c) ∨ x ∈ r.entries := by
  unfold insert at h
  dsimp only at h
  split at h
  · split at h
    · exact mem_filed h
    · exact (mem_filed h).imp_right mem_evict
  · exact mem_filed h

/-! ## Numbers -/

private theorem eq_int_of_entryOf {v : Json} {n : Int}
    (h : entryOf (.value v) = some (.int n)) : v = .int n := by
  cases v with
  | int m =>
    cases h
    rfl
  | string s =>
    simp only [entryOf, Identifier.split?] at h
    split at h
    · cases h
    · cases h
  | null | bool | double | array | object => cases h

/-- Only under its own number a flow is filed under a number. -/
theorem id_of_entry {g : Flow.Graph} {n : Int} (h : some (.int n) ∈ entriesOf g) :
    g.id = some n := by
  obtain ⟨v, hv, he⟩ := List.mem_map.mp h
  have hint := eq_int_of_entryOf he
  subst hint
  have htext (s : Option String) : textOrNull s ≠ .int n := by
    cases s <;> exact Json.noConfusion
  simp only [List.mem_cons, List.not_mem_nil, or_false, (htext _).symm] at hv
  cases hid : g.id with
  | none =>
    rw [hid] at hv
    cases hv
  | some m =>
    rw [hid] at hv
    cases hv
    rfl

/-- A flow with a number is filed under it. -/
theorem mem_entriesOf {g : Flow.Graph} {n : Int} (h : g.id = some n) :
    some (.int n) ∈ entriesOf g := by
  simp [entriesOf, h, Flow.intOrNull, entryOf, Identifier.split?, FlowKey.entry]

/-- A compilation is found under the entries that it is filed under. -/
theorem find?_filed (entries : List (Option Json))
    (table : List (Option Json × Compilation)) (entry : Option Json) :
    Table.find? entry (filed c entries table) =
      if entry ∈ entries then some c else Table.find? entry table := by
  induction entries generalizing table with
  | nil => simp [filed]
  | cons e rest ih =>
    change Table.find? entry (filed c rest (Table.put e c table)) = _
    rw [ih, Table.find?_put]
    by_cases hrest : entry ∈ rest
    · simp [hrest]
    · by_cases he : e = entry
      · simp [he]
      · simp [hrest, he, Ne.symm he]

/-- The entries of a compilation whose number is free are put on top of those that are there. -/
theorem insert_eq {n : Int} (hid : c.graph.id = some n) (hfree : r.get? n = none) :
    r.insert c = { r with
      entries := (entriesOf c.graph).foldl (fun es entry => Table.put entry c es) r.entries } := by
  have hnumber : r.get? (.value (Flow.intOrNull c.graph.id)) = none := hid ▸ hfree
  unfold insert
  dsimp only
  rw [hnumber]

/-- A compilation whose number was free is found under its entries, and what is found under all others is
what was there. -/
theorem find?_insert {n : Int} (hid : c.graph.id = some n) (hfree : r.get? n = none)
    (entry : Option Json) : Table.find? entry (r.insert c).entries =
      if entry ∈ entriesOf c.graph then some c else Table.find? entry r.entries := by
  rw [insert_eq hid hfree]
  exact find?_filed _ _ _

/-- So it is found under its number, and what is found under other numbers is what was there. -/
theorem get?_insert {n : Int} (hid : c.graph.id = some n) (hfree : r.get? n = none) (m : Int) :
    (r.insert c).get? m = if m = n then some c else r.get? m := by
  change Table.find? (entryOf m) (r.insert c).entries = _
  rw [find?_insert hid hfree]
  by_cases hm : m = n
  · rw [if_pos (hm ▸ mem_entriesOf hid), if_pos hm]
  · have hnot : entryOf m ∉ entriesOf c.graph := by
      intro hmem
      exact hm (Option.some.inj ((id_of_entry hmem).symm.trans hid))
    rw [if_neg hnot, if_neg hm]
    rfl

private theorem find?_ne_none_of_mem {table : List (Option Json × Compilation)}
    {x : Option Json × Compilation} (h : x ∈ table) : Table.find? x.1 table ≠ none := by
  induction table with
  | nil => cases h
  | cons y rest ih =>
    unfold Table.find?
    split
    · exact Option.some_ne_none _
    · rename_i hne
      refine ih ((List.mem_cons.mp h).resolve_left ?_)
      rintro rfl
      exact hne rfl

/-- Under an identifier that was free nothing is found but what has been filed. -/
theorem eq_of_get?_insert {flow : Identifier} (hfree : r.get? flow = none) {found : Compilation}
    (h : (r.insert c).get? flow = some found) : found = c := by
  obtain ⟨-, hc⟩ | hmem := mem_insert (Table.mem_of_find?_eq_some h)
  · exact hc
  · exact absurd hfree (find?_ne_none_of_mem hmem)

end DurableFlow.Registry
