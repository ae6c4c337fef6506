import Mathlib.Data.List.Forall2
import Mathlib.Data.List.Sort
import DurableFlow.Json.Written
import DurableFlow.Proofs.StableSorts

/-! Values that are alike: equal up to the order of members, at any depth. Sorting is stable, so that
the values under one key keep their order. -/
namespace DurableFlow.Json

def Alike (a b : Json) : Prop := a.sorted = b.sorted

abbrev AlikeMembers (ms ms' : List (String × Json)) : Prop := Alike (.object ms) (.object ms')

def valuesAt {α : Type} (key : String) (members : List (String × α)) : List α :=
  (members.filter fun m => m.1 = key).map Prod.snd

def AlikeTables (ms ms' : List (String × Json)) : Prop :=
  ∀ key, List.Forall₂ Alike (valuesAt key ms) (valuesAt key ms')

variable {a b c : Json} {xs ys : List Json} {ms ms' : List (String × Json)}

theorem Alike.refl (a : Json) : Alike a a := rfl

theorem Alike.symm (h : Alike a b) : Alike b a := Eq.symm h

def sortedMember (m : String × Json) : String × Json := (m.1, sorted m.2)

theorem sortedItems_eq_map (xs : List Json) : sortedItems xs = xs.map sorted := by
  induction xs with
  | nil => rfl
  | cons x rest ih => rw [sortedItems, ih, List.map_cons]

theorem sortedMembers_eq_map (ms : List (String × Json)) :
    sortedMembers ms = ms.map sortedMember := by
  induction ms with
  | nil => rfl
  | cons m rest ih => rw [sortedMembers, ih, List.map_cons, sortedMember]

section Tables
variable {α : Type} {key : String} {m : String × α} {rest : List (String × α)}

theorem valuesAt_cons_self (h : m.1 = key) : valuesAt key (m :: rest) = m.2 :: valuesAt key rest := by
  simp [valuesAt, h]

theorem valuesAt_cons_ne (h : m.1 ≠ key) : valuesAt key (m :: rest) = valuesAt key rest := by
  simp [valuesAt, h]

end Tables

theorem find?_eq_head? (key : String) (ms : List (String × Json)) :
    find? key ms = (valuesAt key ms).head? := by
  induction ms with
  | nil => rfl
  | cons m rest ih =>
    obtain ⟨k, v⟩ := m
    by_cases hk : k = key
    · rw [valuesAt_cons_self hk]
      exact if_pos hk
    · rw [valuesAt_cons_ne hk, ← ih]
      exact if_neg hk

private theorem keys_order (ms : List (String × Json)) :
    Orders (fun a b => decide (a.1 ≤ b.1)) ms where
  trans a _ b _ c _ h h' := by
    simp only [decide_eq_true_eq] at h h' ⊢
    exact String.le_trans h h'
  total a _ b _ := by simpa using String.le_total a.1 b.1

private theorem filter_mergeSort (key : String) (ms : List (String × Json)) :
    ((ms.mergeSort fun a b => decide (a.1 ≤ b.1)).filter fun m => m.1 = key) =
      ms.filter fun m => m.1 = key := by
  refine (keys_order ms).filter_ties ?_
  intro a ha b hb
  simp only [List.mem_filter, decide_eq_true_eq] at ha hb ⊢
  have hkeys : a.1 = b.1 := ha.2.trans hb.2.symm
  exact hkeys ▸ String.le_refl a.1

private theorem filter_sortedMember (key : String) (ms : List (String × Json)) :
    ((ms.map sortedMember).filter fun m => m.1 = key).map Prod.snd =
      (valuesAt key ms).map sorted := by
  rw [List.filter_map, valuesAt, List.map_map, List.map_map]
  rfl

private theorem AlikeMembers.mergeSort_eq (h : AlikeMembers ms ms') :
    ((ms.map sortedMember).mergeSort fun a b => decide (a.1 ≤ b.1)) =
      (ms'.map sortedMember).mergeSort fun a b => decide (a.1 ≤ b.1) := by
  rw [← sortedMembers_eq_map, ← sortedMembers_eq_map]
  exact Json.object.inj h

private theorem forall₂_alike_iff : List.Forall₂ Alike xs ys ↔ xs.map sorted = ys.map sorted := by
  rw [← List.forall₂_eq_eq_eq, List.forall₂_map_left_iff, List.forall₂_map_right_iff]
  rfl

/-- Members that are alike hold alike values under every key. -/
theorem AlikeMembers.tables (h : AlikeMembers ms ms') : AlikeTables ms ms' := by
  intro key
  rw [forall₂_alike_iff, ← filter_sortedMember, ← filter_sortedMember, ← filter_mergeSort,
    h.mergeSort_eq, filter_mergeSort]

/-- Sorted, members that are alike are the same but for their order. -/
theorem AlikeMembers.perm (h : AlikeMembers ms ms') :
    (ms.map sortedMember).Perm (ms'.map sortedMember) := by
  refine (List.mergeSort_perm _ fun a b => decide (a.1 ≤ b.1)).symm.trans ?_
  rw [h.mergeSort_eq]
  exact List.mergeSort_perm _ _

/-- Members with different keys can come in any order. -/
theorem alike_of_perm (h : ms.Perm ms') (hkeys : (ms.map Prod.fst).Nodup) : AlikeMembers ms ms' := by
  have hkeysSorted : ((ms.map sortedMember).map Prod.fst).Nodup := by
    rw [List.map_map]
    exact hkeys
  change Json.object _ = Json.object _
  rw [sortedMembers_eq_map, sortedMembers_eq_map]
  congr 1
  refine List.Perm.eq_of_pairwise ?_ (keys_order _).pairwise (keys_order _).pairwise
    ((List.mergeSort_perm _ _).trans ((h.map _).trans (List.mergeSort_perm _ _).symm))
  intro a b ha hb hab hba
  have hb' : b ∈ ms.map sortedMember := (h.map _).mem_iff.mpr (List.mem_mergeSort.mp hb)
  exact List.inj_on_of_nodup_map hkeysSorted (List.mem_mergeSort.mp ha) hb'
    (String.le_antisymm (of_decide_eq_true hab) (of_decide_eq_true hba))

namespace AlikeTables

theorem refl (ms : List (String × Json)) : AlikeTables ms ms :=
  fun _ => List.forall₂_same.mpr fun v _ => .refl v

theorem find? (h : AlikeTables ms ms') (key : String) :
    Option.Rel Alike (Json.find? key ms) (Json.find? key ms') := by
  have hvalues := h key
  rw [find?_eq_head?, find?_eq_head?]
  generalize valuesAt key ms = vs, valuesAt key ms' = vs' at hvalues
  cases hvalues with
  | nil => exact .none
  | cons hv _ => exact .some hv

theorem findD (h : AlikeTables ms ms') (key : String) :
    Alike (Json.findD key ms) (Json.findD key ms') := by
  have hfound := h.find? key
  rw [Json.findD, Json.findD]
  generalize Json.find? key ms = found, Json.find? key ms' = found' at hfound
  cases hfound with
  | none => exact .refl _
  | some hv => exact hv

theorem cons (h : AlikeTables ms ms') (key : String) (hv : Alike a b) :
    AlikeTables ((key, a) :: ms) ((key, b) :: ms') := by
  intro k
  by_cases hk : key = k
  · rw [valuesAt_cons_self hk, valuesAt_cons_self hk]
    exact .cons hv (h k)
  · rw [valuesAt_cons_ne hk, valuesAt_cons_ne hk]
    exact h k

theorem filter (h : AlikeTables ms ms') (p : String → Bool) :
    AlikeTables (ms.filter fun m => p m.1) (ms'.filter fun m => p m.1) := by
  have hvalues (key : String) (l : List (String × Json)) :
      valuesAt key (l.filter fun m => p m.1) = if p key then valuesAt key l else [] := by
    rw [valuesAt, List.filter_filter]
    split
    · rename_i hp
      refine congrArg _ (List.filter_congr fun m _ => ?_)
      by_cases hm : m.1 = key <;> simp [hm, hp]
    · rename_i hp
      refine List.map_eq_nil_iff.mpr (List.filter_eq_nil_iff.mpr fun m _ => ?_)
      by_cases hm : m.1 = key <;> simp [hm, hp]
  intro key
  rw [hvalues, hvalues]
  split
  · exact h key
  · exact .nil

end AlikeTables

/-- What two values are that are alike: the same key, or lists, or objects. -/
theorem Alike.shapes (h : Alike a b) : (a.isKey = true ∧ a = b) ∨
    (∃ xs ys, a = .array xs ∧ b = .array ys ∧ List.Forall₂ Alike xs ys) ∨
      ∃ ms ms', a = .object ms ∧ b = .object ms' ∧ AlikeMembers ms ms' := by
  cases a with
  | array xs =>
    cases b with
    | array ys =>
      refine .inr (.inl ⟨xs, ys, rfl, rfl, forall₂_alike_iff.mpr ?_⟩)
      rw [← sortedItems_eq_map, ← sortedItems_eq_map]
      exact Json.array.inj h
    | _ => exact Json.noConfusion h
  | object ms =>
    cases b with
    | object ms' => exact .inr (.inr ⟨ms, ms', rfl, rfl, h⟩)
    | _ => exact Json.noConfusion h
  | _ =>
    cases b with
    | array ys => exact Json.noConfusion h
    | object ms' => exact Json.noConfusion h
    | _ => exact .inl ⟨rfl, h⟩

theorem Alike.eq_of_isKey (h : Alike a b) (ha : a.isKey = true) : a = b := by
  obtain ⟨_, heq⟩ | ⟨_, _, rfl, _⟩ | ⟨_, _, rfl, _⟩ := h.shapes
  · exact heq
  · cases ha
  · cases ha

theorem Alike.isGiven_eq (h : Alike a b) : a.isGiven = b.isGiven := by
  obtain ⟨_, rfl⟩ | ⟨xs, ys, rfl, rfl, hxs⟩ | ⟨ms, ms', rfl, rfl, hms⟩ := h.shapes
  · rfl
  · cases hxs <;> rfl
  · have hlength := hms.perm.length_eq
    simp only [List.length_map] at hlength
    cases ms <;> cases ms' <;> simp_all [isGiven]

theorem Alike.members? (h : Alike a b) : Option.Rel AlikeMembers a.members? b.members? := by
  obtain ⟨hkey, rfl⟩ | ⟨_, _, rfl, rfl, _⟩ | ⟨_, _, rfl, rfl, hms⟩ := h.shapes
  · cases a <;> first | exact .none | cases hkey
  · exact .none
  · exact .some hms

end DurableFlow.Json
