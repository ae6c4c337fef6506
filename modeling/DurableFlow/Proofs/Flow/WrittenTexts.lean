import DurableFlow.Proofs.Flow.AuthoredGraphs
import DurableFlow.Proofs.Json.AlikeValues

/-! Written texts. The texts of a document are put into tables one after the other; a table that is filled
so holds under each key the last value that was written. -/
namespace DurableFlow.Flow
open Json (valuesAt valuesAt_cons_self valuesAt_cons_ne)
open Store (bind_eq_ok)

/-! ## Tables that are written -/

section Writes
variable {α β : Type} {ws ws' : List (String × α)} {key : String}

/-- The last value under a key is found there. -/
theorem find?_merge (key : String) (table ws : List (String × α)) :
    Table.find? key (Table.merge table ws) =
      ((valuesAt key ws).getLast?).or (Table.find? key table) := by
  induction ws generalizing table with
  | nil => rfl
  | cons w rest ih =>
    have hmerge : Table.merge table (w :: rest) = Table.merge (Table.put w.1 w.2 table) rest := rfl
    rw [hmerge, ih, Table.find?_put]
    by_cases hkey : w.1 = key
    · rw [valuesAt_cons_self hkey, if_pos hkey, List.getLast?_cons]
      cases (valuesAt key rest).getLast? <;> simp
    · rw [valuesAt_cons_ne hkey, if_neg hkey]

theorem merge_append (table ws ws' : List (String × α)) :
    Table.merge table (ws ++ ws') = Table.merge (Table.merge table ws) ws' := List.foldl_append

/-- A fold that puts what is written for each element is a merge. -/
theorem foldl_eq_merge {step : List (String × α) → β → List (String × α)}
    {write : β → List (String × α)} (h : ∀ table x, step table x = Table.merge table (write x))
    (table : List (String × α)) (xs : List β) :
    xs.foldl step table = Table.merge table (xs.flatMap write) := by
  induction xs generalizing table with
  | nil => rfl
  | cons x rest ih => rw [List.foldl_cons, ih, h, List.flatMap_cons, merge_append]

theorem valuesAt_flatMap (key : String) (xs : List β)
    (f : β → List (String × α)) :
    valuesAt key (xs.flatMap f) = xs.flatMap fun x => valuesAt key (f x) := by
  simp only [valuesAt, List.filter_flatMap, List.map_flatMap]

def Consistent (ws : List (String × α)) : Prop :=
  ∀ key, ∀ a ∈ valuesAt key ws, ∀ b ∈ valuesAt key ws, a = b

/-- Where no key is given two values, it makes no difference in which order they are written. -/
theorem Consistent.find?_merge (h : Consistent ws) (hmem : ∀ w, w ∈ ws ↔ w ∈ ws') (key : String) :
    Table.find? key (Table.merge [] ws) = Table.find? key (Table.merge [] ws') := by
  have hsame (a : α) : a ∈ valuesAt key ws ↔ a ∈ valuesAt key ws' := by
    simp only [valuesAt, List.mem_map, List.mem_filter, hmem]
  rw [Flow.find?_merge, Flow.find?_merge]
  congr 1
  cases ha : (valuesAt key ws).getLast? with
  | none =>
    have hnil : valuesAt key ws' = [] := by
      refine List.eq_nil_iff_forall_not_mem.mpr fun a hmem' => ?_
      rw [← hsame, List.getLast?_eq_none_iff.mp ha] at hmem'
      cases hmem'
    rw [hnil]
    rfl
  | some a =>
    have hfirst := List.mem_of_getLast? ha
    cases hb : (valuesAt key ws').getLast? with
    | none =>
      rw [hsame, List.getLast?_eq_none_iff.mp hb] at hfirst
      cases hfirst
    | some b => rw [h key a hfirst b ((hsame b).mpr (List.mem_of_getLast? hb))]

end Writes

/-! ## Texts of languages -/

def groupWrites (item : String) (fields : List (String × Json)) : List (String × String) :=
  fields.flatMap fun m => ((textOf? m.2).map fun s => (contentKey (.string item) (.string m.1), s)).toList

def entryWrites (m : String × Json) : List (String × String) :=
  match m.2 with
  | .object fields => groupWrites m.1 fields
  | v => ((textOf? v).map fun s => (m.1, s)).toList

private theorem groupTexts_eq_merge (item : String) (fields : List (String × Json))
    (out : List (String × String)) :
    groupTexts item fields out = Table.merge out (groupWrites item fields) := by
  refine foldl_eq_merge (fun table m => ?_) out fields
  obtain ⟨field, v⟩ := m
  dsimp only
  cases textOf? v <;> rfl

theorem entryTexts_eq_merge (entries : List (String × Json)) :
    entryTexts entries = Table.merge [] (entries.flatMap entryWrites) := by
  refine foldl_eq_merge (fun table m => ?_) [] entries
  obtain ⟨key, v⟩ := m
  cases v with
  | object fields => exact groupTexts_eq_merge key fields table
  | array items =>
    simp only [entryWrites]
    cases textOf? (.array items) <;> rfl
  | _ => rfl

def blockTexts (languages : List (String × Json)) : List (String × List (String × String)) :=
  languages.filterMap fun (language, v) =>
    v.members?.map fun entries => (language, entryTexts entries)

theorem flatten_eq_ok {v : Json} {overrides : List (String × List (String × String))}
    (h : flatten v = .ok overrides) : overrides = blockTexts (v.members?.getD []) := by
  unfold flatten at h
  split at h
  · split at h
    · cases h
      rfl
    · cases h
  · rename_i hgiven
    cases h
    cases v with
    | object members =>
      cases members with
      | nil => rfl
      | cons m rest => exact absurd rfl hgiven
    | _ => rfl

/-- The texts of a language are those of the first object under its name. -/
theorem find?_blockTexts (language : String) (languages : List (String × Json)) :
    Table.find? language (blockTexts languages) =
      (((valuesAt language languages).filterMap Json.members?).head?).map entryTexts := by
  induction languages with
  | nil => rfl
  | cons m rest ih =>
    obtain ⟨l, v⟩ := m
    by_cases hl : l = language
    · rw [valuesAt_cons_self hl]
      cases v with
      | object entries => exact if_pos hl
      | _ => exact ih
    · rw [valuesAt_cons_ne hl, ← ih]
      cases v with
      | object entries => exact if_neg hl
      | _ => rfl

/-! ## Texts of nodes -/

def itemWrites (item : List (String × Json)) : List (String × Json) :=
  let uuid := Json.findD "uuid" item
  if uuid.isGiven then
    item.flatMap fun m => if m.1 ∈ structuralFields then []
      else ((textOf? m.2).map fun s => (contentKey uuid (.string m.1), Json.string s)).toList
  else []

private theorem itemDefaults_eq_merge (table : List (String × Json)) (item : List (String × Json)) :
    itemDefaults table item = Table.merge table (itemWrites item) := by
  unfold itemDefaults itemWrites
  dsimp only
  split
  · refine foldl_eq_merge (fun table m => ?_) table item
    obtain ⟨field, v⟩ := m
    dsimp only
    split
    · rfl
    · cases textOf? v <;> rfl
  · rfl

def nodeWrites (n : Node) : List (String × Json) :=
  match textItems n with
  | .ok items => items.flatMap itemWrites
  | .error _ => []

/-- Nodes are read one by one, and their default texts are written in that order. -/
theorem readNodes_texts {fail : DocumentFault → Failure} {position : Nat} {seen nodes : List Node}
    {defaults texts : List (String × Json)} {values : List Json}
    (h : readNodes fail position seen defaults values = .ok (nodes, texts)) :
    ∃ new, nodes = seen ++ new ∧
      List.Forall₂ (fun v node => ∃ position, readNode fail position v = .ok node) values new ∧
      (∀ node ∈ new, ∃ items, textItems node = .ok items) ∧
      texts = Table.merge defaults (new.flatMap nodeWrites) := by
  induction values generalizing position seen defaults with
  | nil =>
    cases h
    exact ⟨[], (List.append_nil _).symm, .nil, fun _ hn => (List.not_mem_nil hn).elim, rfl⟩
  | cons v rest ih =>
    rw [readNodes] at h
    obtain ⟨node, hnode, h⟩ := bind_eq_ok.mp h
    dsimp only at h
    split at h
    · cases h
    split at h
    · cases h
    obtain ⟨items, hitems, h⟩ := bind_eq_ok.mp h
    obtain ⟨new, hnodes, hread, hnamed, htexts⟩ := ih h
    have hwrites : nodeWrites node = items.flatMap itemWrites := by
      unfold nodeWrites
      rw [hitems]
    refine ⟨node :: new, ?_, .cons ⟨position, hnode⟩ hread,
      List.forall_mem_cons.mpr ⟨⟨items, hitems⟩, hnamed⟩, ?_⟩
    · rw [hnodes, List.append_assoc, List.singleton_append]
    · rw [htexts, foldl_eq_merge itemDefaults_eq_merge, ← merge_append, List.flatMap_cons, hwrites]

end DurableFlow.Flow
