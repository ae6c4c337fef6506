import Mathlib.Data.List.Pairwise

/-! Stable sorts by comparisons that need not order all values, but do order the elements of the list
that is sorted. -/
namespace DurableFlow
variable {α : Type} {le : α → α → Bool} {l : List α}

structure Orders (le : α → α → Bool) (l : List α) : Prop where
  trans : ∀ a ∈ l, ∀ b ∈ l, ∀ c ∈ l, le a b = true → le b c = true → le a c = true
  total : ∀ a ∈ l, ∀ b ∈ l, (le a b || le b a) = true

namespace Orders

private theorem eq_filter_of_sorted {a : α} {l₁ l₂ : List α}
    (hs : (l₁ ++ a :: l₂).Pairwise fun a b => le a b = true) (hl : ∀ b ∈ l₁, (!le a b) = true) :
    l₁ = (l₁ ++ l₂).filter (fun b => !le a b) ∧ l₂ = (l₁ ++ l₂).filter fun b => le a b := by
  have hge : ∀ b ∈ l₂, le a b = true :=
    (List.pairwise_cons.mp (List.pairwise_append.mp hs).2.1).1
  have hlt : ∀ b ∈ l₁, ¬ le a b = true := fun b hb => by simpa using hl b hb
  constructor
  · rw [List.filter_append, List.filter_eq_self.mpr hl,
      List.filter_eq_nil_iff.mpr fun b hb => by simpa using hge b hb, List.append_nil]
  · rw [List.filter_append, List.filter_eq_nil_iff.mpr hlt, List.filter_eq_self.mpr hge,
      List.nil_append]

section Everywhere
variable (trans : ∀ a b c : α, le a b = true → le b c = true → le a c = true)
  (total : ∀ a b : α, (le a b || le b a) = true)
include trans total

private theorem filter_everywhere (p : α → Bool) (l : List α) :
    (l.mergeSort le).filter p = (l.filter p).mergeSort le := by
  induction l with
  | nil => simp
  | cons a l ih =>
    obtain ⟨l₁, l₂, h, hl, hbefore⟩ := List.mergeSort_cons trans total a l
    rw [hl] at ih
    by_cases hp : p a = true
    · obtain ⟨m₁, m₂, h', hm, hbefore'⟩ := List.mergeSort_cons trans total a (l.filter p)
      -- Both lists are parted by the element that comes in between.
      have hsorted := List.pairwise_mergeSort trans total (a :: l)
      rw [h] at hsorted
      have hsorted' := hsorted.sublist (List.filter_sublist (p := p))
      rw [List.filter_append, List.filter_cons_of_pos hp] at hsorted'
      have hsorted'' := List.pairwise_mergeSort trans total (a :: l.filter p)
      rw [h'] at hsorted''
      have hl₁ := eq_filter_of_sorted hsorted' fun b hb => hbefore b (List.mem_filter.mp hb).1
      have hm₁ := eq_filter_of_sorted hsorted'' hbefore'
      rw [← List.filter_append, ih, hm] at hl₁
      rw [h, List.filter_append, List.filter_cons_of_pos hp, List.filter_cons_of_pos hp, h',
        hl₁.1.trans hm₁.1.symm, hl₁.2.trans hm₁.2.symm]
    · rw [h, List.filter_append, List.filter_cons_of_neg hp, ← List.filter_append, ih,
        List.filter_cons_of_neg hp]

end Everywhere

private theorem mergeSort_attach (le : α → α → Bool) (l : List α) :
    (l.attach.mergeSort fun a b => le a.1 b.1).map Subtype.val = l.mergeSort le := by
  rw [List.map_mergeSort (s := le) fun _ _ _ _ => rfl, List.attach_map_subtype_val]

theorem pairwise (h : Orders le l) : (l.mergeSort le).Pairwise fun a b => le a b = true := by
  rw [← mergeSort_attach, List.pairwise_map]
  refine List.pairwise_mergeSort ?_ ?_ _
  · exact fun a b c => h.trans a a.2 b b.2 c c.2
  · exact fun a b => h.total a a.2 b b.2

/-- Sorting and choosing may change places. -/
theorem filter (h : Orders le l) (p : α → Bool) :
    (l.mergeSort le).filter p = (l.filter p).mergeSort le := by
  have hle := filter_everywhere (fun a b c : {x // x ∈ l} => h.trans a a.2 b b.2 c c.2)
    (fun a b => h.total a a.2 b b.2) (p ∘ Subtype.val) l.attach
  rw [← mergeSort_attach, List.filter_map, hle, List.map_mergeSort (s := le) fun _ _ _ _ => rfl,
    ← List.filter_map, List.attach_map_subtype_val]

/-- Elements that tie stay in the order that they came in. -/
theorem filter_ties (h : Orders le l) {p : α → Bool}
    (hp : ∀ a ∈ l.filter p, ∀ b ∈ l.filter p, le a b = true) :
    (l.mergeSort le).filter p = l.filter p := by
  rw [h.filter]
  exact List.mergeSort_of_pairwise (List.pairwise_of_forall_mem_list hp)

end Orders
end DurableFlow
