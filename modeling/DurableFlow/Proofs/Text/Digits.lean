import Mathlib.Tactic.Ring
import DurableFlow.Text.Numeral

/-! Decimal digits. A number is read from the digits that it is written with, and no two numbers are
written with the same ones. -/
namespace DurableFlow.Text

def AllDigits (cs : List Char) : Prop := ∀ c ∈ cs, c.isDigit = true

theorem digitsValue_map (cs : List Char) :
    digitsValue 10 (cs.map fun c => c.toNat - 48) = Nat.ofDigitChars 10 cs 0 := by
  rw [digitsValue, List.foldl_map, Nat.ofDigitChars]
  refine congrArg (fun f => cs.foldl f 0) ?_
  funext n c
  rw [Nat.mul_comm]
  rfl

theorem toList_toString (n : Nat) : (toString n).toList = Nat.toDigits 10 n := by simp

theorem allDigits_toDigits (n : Nat) : AllDigits (Nat.toDigits 10 n) :=
  fun _ hc => Nat.isDigit_of_mem_toDigits (by decide) (by decide) hc

theorem allDigits_replicate (k : Nat) : AllDigits (List.replicate k '0') := by
  intro c hc
  rw [List.eq_of_mem_replicate hc]
  rfl

theorem AllDigits.append {cs ds : List Char} (h : AllDigits cs) (h' : AllDigits ds) :
    AllDigits (cs ++ ds) := by
  intro c hc
  rcases List.mem_append.mp hc with hc | hc
  · exact h c hc
  · exact h' c hc

theorem AllDigits.take {cs : List Char} (h : AllDigits cs) (k : Nat) : AllDigits (cs.take k) :=
  fun c hc => h c (List.mem_of_mem_take hc)

theorem AllDigits.drop {cs : List Char} (h : AllDigits cs) (k : Nat) : AllDigits (cs.drop k) :=
  fun c hc => h c (List.mem_of_mem_drop hc)

theorem ofDigitChars_zeros (k init : Nat) :
    Nat.ofDigitChars 10 (List.replicate k '0') init = init * 10 ^ k := by
  induction k generalizing init with
  | zero => simp
  | succ k ih =>
    rw [List.replicate_succ, Nat.ofDigitChars_cons, ih, Nat.pow_succ]
    simp
    ring

theorem takeWhile_digits {cs : List Char} (h : AllDigits cs) {rest : List Char}
    (hrest : ∀ c ∈ rest.head?, c.isDigit = false) :
    (cs ++ rest).takeWhile Char.isDigit = cs ∧ (cs ++ rest).dropWhile Char.isDigit = rest := by
  have hnone : rest.takeWhile Char.isDigit = [] ∧ rest.dropWhile Char.isDigit = rest := by
    cases rest with
    | nil => exact ⟨rfl, rfl⟩
    | cons c rest =>
      have hc := hrest c rfl
      simp [hc]
  constructor
  · rw [List.takeWhile_append_of_pos h, hnone.1, List.append_nil]
  · rw [List.dropWhile_append_of_pos h, hnone.2]

/-! ## Integers -/

/-- An integer is written with digits and perhaps a sign. -/
theorem digit_or_sign (n : Int) : ∀ c ∈ (toString n).toList, c.isDigit = true ∨ c = '-' := by
  intro c hc
  cases n with
  | ofNat n =>
    have hdigits : c ∈ Nat.toDigits 10 n := by simpa [toString, Int.repr] using hc
    exact .inl (allDigits_toDigits n c hdigits)
  | negSucc n =>
    have hdigits : c = '-' ∨ c ∈ Nat.toDigits 10 (n + 1) := by simpa [toString, Int.repr] using hc
    obtain rfl | hdigits := hdigits
    · exact .inr rfl
    · exact .inl (allDigits_toDigits _ c hdigits)

theorem toList_toString_ne_nil (n : Int) : (toString n).toList ≠ [] := by
  cases n <;> simp [toString, Int.repr]

private theorem dash_not_mem (n : Nat) : '-' ∉ (toString n).toList := by
  intro h
  rw [toList_toString] at h
  cases allDigits_toDigits n _ h

/-- Different numbers are written differently. -/
theorem toString_inj {m n : Int} (h : toString m = toString n) : m = n := by
  have hl := congrArg String.toList h
  have hnat (m n : Nat) (h : (toString m).toList = (toString n).toList) : m = n := by
    have hv := congrArg (fun cs => Nat.ofDigitChars 10 cs 0) h
    simpa using hv
  have hneg (n : Nat) : (toString (Int.negSucc n)).toList = '-' :: (toString (n + 1)).toList := by
    simp [toString, Int.repr]
  have hne (m n : Nat) : (toString (Int.ofNat m)).toList ≠ (toString (Int.negSucc n)).toList := by
    intro h
    rw [hneg] at h
    have hd : '-' ∈ (toString (Int.ofNat m)).toList := by
      rw [h]
      exact List.mem_cons_self
    exact dash_not_mem m hd
  cases m with
  | ofNat m =>
    cases n with
    | ofNat n => exact congrArg Int.ofNat (hnat m n hl)
    | negSucc n => exact absurd hl (hne m n)
  | negSucc m =>
    cases n with
    | ofNat n => exact absurd hl.symm (hne n m)
    | negSucc n =>
      rw [hneg, hneg] at hl
      have hsucc := hnat _ _ (List.cons.inj hl).2
      rw [Nat.add_right_cancel hsucc]

end DurableFlow.Text
