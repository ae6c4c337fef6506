import Mathlib.Data.List.Infix
import DurableFlow.Uuid

/-! Erased patterns. Removing a pattern from left to right takes out its occurrences and leaves the pieces
between them, whichever way the text is cut into pieces without the pattern. -/
namespace DurableFlow.Uuid

/-- A text, and what is left of it without the occurrences of a pattern: the pieces between them, none of
which has the pattern. -/
inductive Erased (pattern : List Char) : List Char → List Char → Prop
  | last {piece : List Char} (clean : ¬ pattern <:+: piece) : Erased pattern piece piece
  | found {piece cs out : List Char} (clean : ¬ pattern <:+: piece) (rest : Erased pattern cs out) :
      Erased pattern (piece ++ (pattern ++ cs)) (piece ++ out)

variable {pattern cs out piece : List Char}

/-! ## Single occurrences -/

private theorem removeFrom_skip (pattern front cs : List Char) :
    removeFrom pattern front.length (front ++ cs) = removeAll pattern cs := by
  induction front with
  | nil => rfl
  | cons c rest ih => exact ih

/-- An occurrence at the start is taken out. -/
theorem removeAll_append (hp : pattern ≠ []) (cs : List Char) :
    removeAll pattern (pattern ++ cs) = removeAll pattern cs := by
  obtain ⟨c, rest, rfl⟩ := List.exists_cons_of_ne_nil hp
  rw [removeAll, List.cons_append, removeFrom, if_pos ⟨hp, List.isPrefixOf_iff_prefix.mpr ⟨cs, rfl⟩⟩]
  exact removeFrom_skip (c :: rest) rest cs

/-- A character with which no occurrence starts is kept. -/
theorem removeAll_cons {c : Char} (h : ¬ pattern <+: c :: cs) :
    removeAll pattern (c :: cs) = c :: removeAll pattern cs := by
  rw [removeAll, removeFrom, if_neg]
  · rfl
  · rintro ⟨-, hbegins⟩
    exact h (List.isPrefixOf_iff_prefix.mp hbegins)

/-- A text is gone through from occurrence to occurrence, and character by character between them. -/
theorem pattern_induction {motive : List Char → Prop} (hp : pattern ≠ []) (nil : motive [])
    (found : ∀ cs, motive cs → motive (pattern ++ cs))
    (other : ∀ c cs, ¬ pattern <+: c :: cs → motive cs → motive (c :: cs)) (cs : List Char) : motive cs := by
  induction hlength : cs.length using Nat.strong_induction_on generalizing cs with
  | h n ih =>
    subst hlength
    have hpos : 0 < pattern.length := List.length_pos_iff.mpr hp
    cases cs with
    | nil => exact nil
    | cons c rest =>
      by_cases hbegins : pattern <+: c :: rest
      · obtain ⟨more, hmore⟩ := hbegins
        rw [← hmore]
        exact found more (ih more.length (by rw [← hmore, List.length_append]; omega) more rfl)
      · exact other c rest hbegins (ih rest.length (by simp) rest rfl)

/-! ## Pieces -/

private theorem Erased.cons {c : Char} (h : Erased pattern cs out) (hc : ¬ pattern <+: c :: cs) :
    Erased pattern (c :: cs) (c :: out) := by
  have hclean {piece more : List Char} (hc : ¬ pattern <+: c :: (piece ++ more)) (clean : ¬ pattern <:+: piece) :
      ¬ pattern <:+: c :: piece := by
    rw [List.infix_cons_iff]
    exact not_or.mpr ⟨fun h => hc (h.trans (List.prefix_append (c :: piece) more)), clean⟩
  cases h with
  | last clean => exact .last (hclean ((List.append_nil cs).symm ▸ hc) clean)
  | found clean rest => exact .found (hclean hc clean) rest

/-- What is left after removing a pattern are the pieces without it. -/
theorem erased_removeAll (hp : pattern ≠ []) (cs : List Char) : Erased pattern cs (removeAll pattern cs) := by
  have hnil : ¬ pattern <:+: [] := fun h => hp (List.infix_nil.mp h)
  induction cs using pattern_induction hp with
  | nil => exact .last hnil
  | found cs ih =>
    rw [removeAll_append hp]
    exact .found hnil ih
  | other c cs hc ih =>
    rw [removeAll_cons hc]
    exact ih.cons hc

/-- A pattern that is closed by its last character, which stands nowhere else in it. -/
def ClosedByLast (pattern : List Char) : Prop := ∃ front c, pattern = front ++ [c] ∧ c ∉ front

private theorem ClosedByLast.not_prefix (hp : ClosedByLast pattern) (hpiece : piece ≠ []) (clean : ¬ pattern <:+: piece)
    (cs : List Char) : ¬ pattern <+: piece ++ (pattern ++ cs) := by
  intro h
  rcases List.prefix_or_prefix_of_prefix h (List.prefix_append piece _) with hin | ⟨back, hback⟩
  · exact clean hin.isInfix
  · obtain ⟨front, c, hfront, hc⟩ := hp
    have hlonger : back.length < pattern.length := by
      have hpos := List.length_pos_iff.mpr hpiece
      rw [← hback, List.length_append]
      omega
    have hnext : back <+: pattern ++ cs := (List.prefix_append_right_inj piece).mp (hback.symm ▸ h)
    -- what reaches over the piece starts the pattern again, so it lacks the last character, and ends with it
    have hstart : back <+: front := by
      have hin : back <+: front ++ [c] :=
        hfront ▸ List.prefix_of_prefix_length_le hnext (List.prefix_append pattern cs) hlonger.le
      rcases List.prefix_concat_iff.mp hin with hwhole | hstart
      · rw [hwhole, ← hfront] at hlonger
        exact absurd hlonger (lt_irrefl _)
      · exact hstart
    have hback' : back ≠ [] := by
      rintro rfl
      rw [List.append_nil] at hback
      exact clean (hback ▸ List.infix_refl _)
    obtain ⟨init, x, rfl⟩ := (List.eq_nil_or_concat' back).resolve_left hback'
    have hlast : (piece ++ init) ++ [x] = front ++ [c] := by rw [List.append_assoc, hback, hfront]
    obtain ⟨-, hx⟩ := List.append_inj' hlast rfl
    cases hx
    exact hc (hstart.subset (by simp))

/-- A text without the pattern stays as it is. -/
theorem removeAll_of_clean (clean : ¬ pattern <:+: piece) : removeAll pattern piece = piece := by
  induction piece with
  | nil => rfl
  | cons c rest ih =>
    obtain ⟨hc, hrest⟩ := not_or.mp (mt List.infix_cons_iff.mpr clean)
    rw [removeAll_cons hc, ih hrest]

private theorem ClosedByLast.removeAll_found (hp : ClosedByLast pattern) (clean : ¬ pattern <:+: piece) (cs : List Char) :
    removeAll pattern (piece ++ (pattern ++ cs)) = piece ++ removeAll pattern cs := by
  induction piece with
  | nil =>
    obtain ⟨front, c, rfl, -⟩ := hp
    exact removeAll_append (by simp) cs
  | cons c rest ih =>
    obtain ⟨-, hrest⟩ := not_or.mp (mt List.infix_cons_iff.mpr clean)
    have hc : ¬ pattern <+: c :: (rest ++ (pattern ++ cs)) :=
      hp.not_prefix (List.cons_ne_nil c rest) clean cs
    rw [List.cons_append, removeAll_cons hc, ih hrest]
    rfl

/-- However a text is cut into pieces without a closed pattern, they are what is left after removing it. -/
theorem ClosedByLast.erased_iff (hp : ClosedByLast pattern) : Erased pattern cs out ↔ removeAll pattern cs = out := by
  constructor
  · intro h
    induction h with
    | last clean => exact removeAll_of_clean clean
    | found clean rest ih => rw [hp.removeAll_found clean, ih]
  · rintro rfl
    refine erased_removeAll ?_ cs
    obtain ⟨front, c, rfl, -⟩ := hp
    simp

/-! ## Texts around a text -/

/-- What follows without belonging to the pattern is kept. -/
theorem removeAll_concat (hp : pattern ≠ []) {x : Char} (hx : x ∉ pattern) (cs : List Char) :
    removeAll pattern (cs ++ [x]) = removeAll pattern cs ++ [x] := by
  have hbegins {cs : List Char} (h : pattern <+: cs ++ [x]) : pattern <+: cs := by
    rcases List.prefix_concat_iff.mp h with hwhole | h
    · exact absurd (hwhole ▸ by simp) hx
    · exact h
  induction cs using pattern_induction hp with
  | nil => exact removeAll_cons fun h => hp (List.prefix_nil.mp (hbegins h))
  | found cs ih => rw [List.append_assoc, removeAll_append hp, removeAll_append hp, ih]
  | other c cs hc ih =>
    have hmore : ¬ pattern <+: c :: (cs ++ [x]) := fun h => hc (hbegins h)
    rw [List.cons_append, removeAll_cons hmore, removeAll_cons hc, ih]
    rfl

end DurableFlow.Uuid
