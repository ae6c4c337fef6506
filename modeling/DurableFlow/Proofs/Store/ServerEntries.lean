import DurableFlow.Proofs.Text.Digits
import DurableFlow.Store.Keys

/-! Keys and entries of a server. Keys of different families never meet, whatever stands behind
the name of the family; a set is changed under its own key only. -/
namespace DurableFlow.Store

namespace Keys

theorem flowKey_inj (k : Keys) {m n : Int} (h : k.flowKey m = k.flowKey n) : m = n := by
  have hnumber : toString m = toString n := by
    simpa [flowKey, key, String.intercalate_cons_cons] using h
  exact Text.toString_inj hnumber

theorem revisionsKey_inj (k : Keys) {m n : Int} (h : k.revisionsKey m = k.revisionsKey n) :
    m = n := by
  have hnumber : toString m = toString n := by
    simpa [revisionsKey, key, String.intercalate_cons_cons] using h
  exact Text.toString_inj hnumber

theorem contextKey_inj (k : Keys) {i j : String}
    (h : k.contextKey (some i) = k.contextKey (some j)) : i = j := by
  simpa [contextKey, key, plainText?, String.intercalate_cons_cons] using h

theorem contextKey_ne_wakeupsKey (k : Keys) (i : Option String) :
    k.contextKey i ≠ k.wakeupsKey := by
  intro h
  simpa [contextKey, wakeupsKey, key, String.intercalate_cons_cons] using
    congrArg String.toList h

theorem contextKey_ne_contactKey (k : Keys) (i : Option String) (contact : Json) :
    k.contextKey i ≠ k.contactKey contact := by
  intro h
  simpa [contextKey, contactKey, key, String.intercalate_cons_cons] using
    congrArg String.toList h

theorem contextKey_ne_childrenKey (k : Keys) (i parent : Option String) :
    k.contextKey i ≠ k.childrenKey parent := by
  intro h
  simpa [contextKey, childrenKey, key, String.intercalate_cons_cons] using
    congrArg String.toList h

theorem childrenKey_inj (k : Keys) {p q : String}
    (h : k.childrenKey (some p) = k.childrenKey (some q)) : p = q := by
  simpa [childrenKey, key, plainText?, String.intercalate_cons_cons] using h

theorem childrenKey_ne_contactKey (k : Keys) (parent : Option String) (contact : Json) :
    k.childrenKey parent ≠ k.contactKey contact := by
  intro h
  simpa [childrenKey, contactKey, key, String.intercalate_cons_cons] using
    congrArg String.toList h

theorem wakeupsKey_ne_contactKey (k : Keys) (contact : Json) :
    k.wakeupsKey ≠ k.contactKey contact := by
  intro h
  simpa [wakeupsKey, contactKey, key, String.intercalate_cons_cons] using
    congrArg String.toList h

theorem wakeupsKey_ne_childrenKey (k : Keys) (parent : Option String) :
    k.wakeupsKey ≠ k.childrenKey parent := by
  intro h
  simpa [wakeupsKey, childrenKey, key, String.intercalate_cons_cons] using
    congrArg String.toList h

end Keys

namespace Server

theorem context?_eq_some {key : String} {s : Server} {row : ContextRow} :
    s.context? key = .ok (some row) ↔ Table.find? key s = some (.context row) := by
  unfold context?
  split <;> simp_all

theorem find?_addMember {key member other : String} {score : Int} {s s' : Server}
    (h : s.addMember key member score = .ok s') (hk : other ≠ key) :
    Table.find? other s' = Table.find? other s := by
  unfold addMember at h
  cases hm : s.members key with
  | error e => simp [hm, Except.map] at h
  | ok set =>
    simp only [hm, Except.map, Except.ok.injEq] at h
    rw [← h, Table.find?_put, if_neg (Ne.symm hk)]

theorem find?_removeMember {key member other : String} {s s' : Server}
    (h : s.removeMember key member = .ok s') (hk : other ≠ key) :
    Table.find? other s' = Table.find? other s := by
  unfold removeMember at h
  cases hm : s.members key with
  | error e => simp [hm, Except.map] at h
  | ok set =>
    simp only [hm, Except.map, Except.ok.injEq] at h
    rw [← h, Table.find?_put, if_neg (Ne.symm hk)]

theorem members_congr {key : String} {s s' : Server}
    (h : Table.find? key s' = Table.find? key s) : s'.members key = s.members key := by
  simp only [members, h]

theorem members_put (key : String) (set : List (String × Int)) (s : Server) :
    members key (Table.put key (.members set) s) = .ok set := by
  simp [members, Table.find?_put]

theorem members_addMember {key member : String} {score : Int} {s s' : Server}
    (h : s.addMember key member score = .ok s') :
    ∃ set, s.members key = .ok set ∧ s'.members key = .ok (Scored.add id member score set) := by
  unfold addMember at h
  cases hm : s.members key with
  | error e => simp [hm, Except.map] at h
  | ok set =>
    simp only [hm, Except.map, Except.ok.injEq] at h
    exact ⟨set, rfl, by rw [← h, members_put]⟩

theorem members_removeMember {key member : String} {s s' : Server}
    (h : s.removeMember key member = .ok s') :
    ∃ set, s.members key = .ok set ∧ s'.members key = .ok (Scored.remove member set) := by
  unfold removeMember at h
  cases hm : s.members key with
  | error e => simp [hm, Except.map] at h
  | ok set =>
    simp only [hm, Except.map, Except.ok.injEq] at h
    exact ⟨set, rfl, by rw [← h, members_put]⟩

end Server

theorem Scored.mem_remove {α : Type} [DecidableEq α] {member : α} {set : List (α × Int)}
    {x : α × Int} : x ∈ Scored.remove member set ↔ x ∈ set ∧ x.1 ≠ member := by
  simp [Scored.remove]

theorem Scored.mem_add {α : Type} [DecidableEq α] {name : α → String} {member : α} {score : Int}
    {set : List (α × Int)} {x : α × Int} :
    x ∈ Scored.add name member score set ↔
      x = (member, Scored.scoreOf score) ∨ x ∈ set ∧ x.1 ≠ member := by
  rw [Scored.add, Scored.mem_insert, Scored.mem_remove]

theorem Scored.mem_names_add {α : Type} [DecidableEq α] {name : α → String} {member other : α}
    {score : Int} {set : List (α × Int)} :
    other ∈ (Scored.add name member score set).map Prod.fst ↔
      other = member ∨ other ∈ set.map Prod.fst := by
  simp only [List.mem_map, Prod.exists, exists_and_right, exists_eq_right, Scored.mem_add,
    Prod.mk.injEq]
  constructor
  · rintro ⟨x, ⟨rfl, _⟩ | ⟨hx, _⟩⟩
    · exact .inl rfl
    · exact .inr ⟨x, hx⟩
  · rintro (rfl | ⟨x, hx⟩)
    · exact ⟨_, .inl ⟨rfl, rfl⟩⟩
    · by_cases hm : other = member
      · exact ⟨_, .inl ⟨hm, rfl⟩⟩
      · exact ⟨x, .inr ⟨hx, hm⟩⟩

private theorem Scored.perm_insert {α : Type} (name : α → String) (e : α × Int)
    (set : List (α × Int)) : (Scored.insert name e set).Perm (e :: set) := by
  induction set with
  | nil => exact .refl _
  | cons x rest ih =>
    unfold Scored.insert
    split
    · exact .refl _
    · exact (ih.cons x).trans (.swap e x rest)

/-- A member that is scored again stands in the set once. -/
theorem Scored.nodup_names_add {α : Type} [DecidableEq α] (name : α → String) (member : α)
    (score : Int) {set : List (α × Int)} (h : (set.map Prod.fst).Nodup) :
    ((Scored.add name member score set).map Prod.fst).Nodup := by
  have hp := (Scored.perm_insert name (member, Scored.scoreOf score)
    (Scored.remove member set)).map Prod.fst
  refine hp.nodup_iff.mpr ?_
  rw [List.map_cons, List.nodup_cons]
  constructor
  · intro hm
    obtain ⟨x, hx, he⟩ := List.mem_map.mp hm
    exact (Scored.mem_remove.mp hx).2 he
  · exact h.sublist (List.filter_sublist.map Prod.fst)

end DurableFlow.Store
