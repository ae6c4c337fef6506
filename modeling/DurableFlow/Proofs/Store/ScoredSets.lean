import DurableFlow.Proofs.StableSorts
import DurableFlow.Proofs.Store.ServerEntries

/-! The order of a scored set. Members stand by score and then by name, so that a set is known as
soon as its members are; a stable sort of rows that stand by name has the same order. -/
namespace DurableFlow.Store.Scored

def Precedes (a b : String × Int) : Prop := a.2 < b.2 ∨ a.2 = b.2 ∧ a.1 < b.1

theorem isBefore_iff {a b : String × Int} : isBefore id a b = true ↔ Precedes a b := by
  simp only [isBefore, Precedes, id_eq, Bool.or_eq_true, Bool.and_eq_true, decide_eq_true_eq]

theorem Precedes.trans {a b c : String × Int} (h₁ : Precedes a b) (h₂ : Precedes b c) :
    Precedes a c := by
  rcases h₁ with h₁ | ⟨h₁, hn₁⟩
  · rcases h₂ with h₂ | ⟨h₂, _⟩
    · exact .inl (by omega)
    · exact .inl (by omega)
  · rcases h₂ with h₂ | ⟨h₂, hn₂⟩
    · exact .inl (by omega)
    · exact .inr ⟨h₁.trans h₂, String.lt_trans hn₁ hn₂⟩

theorem Precedes.irrefl (a : String × Int) : ¬ Precedes a a := by
  rintro (h | ⟨_, h⟩)
  · exact Int.lt_irrefl _ h
  · exact String.lt_irrefl _ h

/-- Of two members with different names one comes first. -/
theorem Precedes.of_not {a b : String × Int} (hn : a.1 ≠ b.1) (h : ¬ Precedes a b) :
    Precedes b a := by
  rcases Int.lt_trichotomy a.2 b.2 with hs | hs | hs
  · exact absurd (.inl hs) h
  · have hle : ¬ a.1 < b.1 := fun hlt => h (.inr ⟨hs, hlt⟩)
    have hge : ¬ ¬ b.1 < a.1 := fun hnl =>
      hn (String.le_antisymm (String.not_lt.mp hnl) (String.not_lt.mp hle))
    exact .inr ⟨hs.symm, Classical.not_not.mp hge⟩
  · exact .inl hs

def Ordered (set : List (String × Int)) : Prop := set.Pairwise Precedes

theorem Ordered.remove {set : List (String × Int)} (h : Ordered set) (member : String) :
    Ordered (remove member set) :=
  List.Pairwise.sublist List.filter_sublist h

theorem Ordered.insert {set : List (String × Int)} (h : Ordered set) {e : String × Int}
    (hne : ∀ x ∈ set, x.1 ≠ e.1) : Ordered (insert id e set) := by
  induction set with
  | nil => exact List.pairwise_singleton _ _
  | cons x rest ih =>
    obtain ⟨hx, hrest⟩ := List.pairwise_cons.mp h
    have hall := List.forall_mem_cons.mp hne
    unfold Scored.insert
    split
    · rename_i hb
      have hex : Precedes e x := isBefore_iff.mp hb
      refine List.pairwise_cons.mpr ⟨?_, h⟩
      intro y hy
      rcases List.mem_cons.mp hy with rfl | hy
      · exact hex
      · exact hex.trans (hx y hy)
    · rename_i hb
      have hxe : Precedes x e := .of_not hall.1.symm fun hp => hb (isBefore_iff.mpr hp)
      refine List.pairwise_cons.mpr ⟨?_, ih hrest hall.2⟩
      intro y hy
      rcases (mem_insert id e y rest).mp hy with rfl | hy
      · exact hxe
      · exact hx y hy

theorem Ordered.add {set : List (String × Int)} (h : Ordered set) (member : String)
    (score : Int) : Ordered (add id member score set) :=
  (h.remove member).insert fun _ hx => (mem_remove.mp hx).2

/-- The order leaves no choice: sets with the same members are the same list. -/
theorem Ordered.ext {a b : List (String × Int)} (ha : Ordered a) (hb : Ordered b)
    (h : ∀ x, x ∈ a ↔ x ∈ b) : a = b := by
  have hnodup {set : List (String × Int)} (hs : Ordered set) : set.Nodup := by
    refine List.Pairwise.imp ?_ hs
    rintro x y hp rfl
    exact Precedes.irrefl x hp
  have hperm : a.Perm b := (List.perm_ext_iff_of_nodup (hnodup ha) (hnodup hb)).mpr h
  refine hperm.eq_of_pairwise ?_ ha hb
  intro x y _ _ hxy hyx
  exact absurd (hxy.trans hyx) (Precedes.irrefl x)

/-- A member that comes after all others is added at the end. -/
theorem add_eq_append {set : List (String × Int)} {member : String} {score : Int}
    (h : ∀ x ∈ set, x.1 < member ∧ x.2 ≤ scoreOf score) :
    add id member score set = set ++ [(member, scoreOf score)] := by
  have hkeep : remove member set = set := by
    refine List.filter_eq_self.mpr ?_
    intro x hx
    have hne : x.1 ≠ member := fun he => String.lt_irrefl _ (he ▸ (h x hx).1)
    exact decide_eq_true hne
  rw [add, hkeep]
  clear hkeep
  induction set with
  | nil => rfl
  | cons x rest ih =>
    obtain ⟨hx, hrest⟩ := List.forall_mem_cons.mp h
    have hnot : ¬ Precedes (member, scoreOf score) x := by
      rintro (hlt | ⟨_, hlt⟩)
      · exact absurd hx.2 (Int.not_le.mpr hlt)
      · exact String.lt_asymm hx.1 hlt
    rw [insert, if_neg fun hb => hnot (isBefore_iff.mp hb), ih hrest]
    rfl

/-! ## Stable sorting -/

section Stable
variable {α : Type} (w : α → Int)

private theorem weighed_orders (l : List α) : Orders (fun a b => decide (w a ≤ w b)) l where
  trans a _ b _ c _ hab hbc := by
    simp only [decide_eq_true_eq] at hab hbc ⊢
    omega
  total a _ b _ := by
    simp only [Bool.or_eq_true, decide_eq_true_eq]
    omega

private theorem filter_mergeSort_weight (t : Int) (l : List α) :
    (l.mergeSort fun a b => decide (w a ≤ w b)).filter (fun x => w x = t) =
      l.filter fun x => w x = t := by
  refine (weighed_orders w l).filter_ties ?_
  intro a ha b hb
  have hta : w a = t := by simpa using (List.mem_filter.mp ha).2
  have htb : w b = t := by simpa using (List.mem_filter.mp hb).2
  exact decide_eq_true (by omega)

/-- Elements sorted by weight stand in a lexicographic order, when they stood in the second one. -/
theorem pairwise_mergeSort_lex {R : α → α → Prop} {l : List α} (h : l.Pairwise R) :
    (l.mergeSort fun a b => decide (w a ≤ w b)).Pairwise fun a b =>
      w a < w b ∨ w a = w b ∧ R a b := by
  rw [List.pairwise_iff_forall_sublist]
  intro a b hab
  have hle : w a ≤ w b := by
    have hsorted := (weighed_orders w l).pairwise
    exact of_decide_eq_true (List.pairwise_iff_forall_sublist.mp hsorted hab)
  by_cases he : w a = w b
  · -- The pair stands among the elements of its weight, which are in the order that they came in.
    have hpair := hab.filter fun x => w x = w b
    rw [filter_mergeSort_weight, List.filter_cons_of_pos (by simpa using he),
      List.filter_cons_of_pos (by simp), List.filter_nil] at hpair
    exact .inr ⟨he, List.pairwise_iff_forall_sublist.mp h (hpair.trans List.filter_sublist)⟩
  · exact .inl (by omega)

end Stable
end DurableFlow.Store.Scored
