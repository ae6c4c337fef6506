import DurableFlow.Proofs.Binary64.ShortestDigits
import DurableFlow.Proofs.Text.Digits

/-! Written decimals. A text that is laid out with digits, a point or an exponent is read as the decimal
that it was laid out for, so that no two numbers have one text. -/
namespace DurableFlow.Binary64
open Text

/-! ## Decimals -/

/-- What may follow the digits of a decimal, and the exponent that it gives. -/
inductive Tail : List Char → Int → Prop
  | none : Tail [] 0
  | exponent (negative : Bool) {ds : List Char} (digits : AllDigits ds) (given : ds ≠ []) :
      Tail ('e' :: (if negative then '-' else '+') :: ds)
        (if negative then -(Nat.ofDigitChars 10 ds 0 : Int) else (Nat.ofDigitChars 10 ds 0 : Int))

/-- A text of digits, perhaps with a point and more digits, perhaps with an exponent, and its value. -/
inductive IsDecimal : List Char → Rat → Prop
  | parts {whole mark fraction tail : List Char} {x : Int} (digits : AllDigits whole)
      (given : whole ≠ []) (more : AllDigits fraction) (exponent : Tail tail x)
      (marked : mark = ['.'] ∨ mark = [] ∧ fraction = [] ∧ tail ≠ []) :
      IsDecimal (whole ++ mark ++ fraction ++ tail)
        ((Nat.ofDigitChars 10 (whole ++ fraction) 0 : Rat) * (10 : Rat) ^ (x - (fraction.length : Int)))

def partsValue (parts : List Nat × List Nat × Int) : Rat :=
  (digitsValue 10 (parts.1 ++ parts.2.1) : Rat) * (10 : Rat) ^ (parts.2.2 - (parts.2.1.length : Int))

private theorem Tail.head {cs : List Char} {x : Int} (h : Tail cs x) :
    ∀ c ∈ cs.head?, c.isDigit = false := by
  intro c hc
  cases h with
  | none => cases hc
  | exponent =>
    cases hc
    rfl

private theorem exponentOf_eq (negative : Bool) {ds : List Char} (h : AllDigits ds) (hne : ds ≠ []) :
    exponentOf ((if negative then '-' else '+') :: ds) =
      some (if negative then -(Nat.ofDigitChars 10 ds 0 : Int) else (Nat.ofDigitChars 10 ds 0 : Int)) := by
  have hall : ds.all Char.isDigit = true := List.all_eq_true.mpr h
  unfold exponentOf
  cases negative with
  | true =>
    simp only [if_true, Text.splitSign]
    rw [if_pos ⟨hne, hall⟩, digitsValue_map]
  | false =>
    simp only [Bool.false_eq_true, if_false, Text.splitSign]
    rw [if_pos ⟨hne, hall⟩, digitsValue_map]

variable {cs : List Char} {v : Rat}

/-- A decimal is read as its value. -/
theorem IsDecimal.read (h : IsDecimal cs v) : (decimalParts cs).map partsValue = some v := by
  obtain ⟨digits, given, more, exponent, marked⟩ := h
  rename_i whole mark fraction tail x
  have hparts : decimalParts (whole ++ mark ++ fraction ++ tail) =
      some (whole.map fun c => c.toNat - 48, fraction.map fun c => c.toNat - 48, x) := by
    obtain rfl | ⟨rfl, rfl, -⟩ := marked
    · have hpoint : whole ++ ['.'] ++ fraction ++ tail = whole ++ '.' :: (fraction ++ tail) := by simp
      have hdot : ∀ c ∈ ('.' :: (fraction ++ tail)).head?, c.isDigit = false := by
        rintro c ⟨⟩
        rfl
      obtain ⟨htake, hdrop⟩ := takeWhile_digits digits hdot
      obtain ⟨htake', hdrop'⟩ := takeWhile_digits more exponent.head
      rw [hpoint]
      unfold decimalParts
      simp only [htake, hdrop, htake', hdrop']
      cases exponent with
      | none => simp [given]
      | exponent negative hds hne => simp [given, exponentOf_eq negative hds hne]
    · obtain ⟨htake, hdrop⟩ := takeWhile_digits digits exponent.head
      simp only [List.append_nil]
      unfold decimalParts
      simp only [htake, hdrop]
      cases exponent with
      | none => simp [given]
      | exponent negative hds hne => simp [given, exponentOf_eq negative hds hne]
  rw [hparts, Option.map_some, partsValue, ← List.map_append, digitsValue_map, List.length_map]

/-- A decimal starts with a digit, and there is a point or an exponent after it. -/
theorem IsDecimal.chars (h : IsDecimal cs v) : ∃ c rest, cs = c :: rest ∧ c.isDigit = true ∧
    (∃ d ∈ rest, d = '.' ∨ d = 'e') ∧
      ∀ d ∈ rest, d.isDigit = true ∨ d ∈ ['.', 'e', '+', '-'] := by
  obtain ⟨digits, given, more, exponent, marked⟩ := h
  rename_i whole mark fraction tail x
  obtain ⟨c, whole, rfl⟩ := List.exists_cons_of_ne_nil given
  refine ⟨c, whole ++ mark ++ fraction ++ tail, by simp, digits c List.mem_cons_self, ?_, ?_⟩
  · obtain rfl | ⟨rfl, rfl, hne⟩ := marked
    · exact ⟨'.', by simp, .inl rfl⟩
    · cases exponent with
      | none => exact absurd rfl hne
      | exponent => exact ⟨'e', by simp, .inr rfl⟩
  · intro d hd
    simp only [List.mem_append] at hd
    obtain ((hd | hd) | hd) | hd := hd
    · exact .inl (digits d (List.mem_cons_of_mem _ hd))
    · obtain rfl | ⟨rfl, -⟩ := marked
      · exact .inr (by simp_all)
      · cases hd
    · exact .inl (more d hd)
    · cases exponent with
      | none => cases hd
      | exponent negative hds =>
        simp only [List.mem_cons] at hd
        obtain rfl | rfl | hd := hd
        · exact .inr (by simp)
        · exact .inr (by cases negative <;> simp)
        · exact .inl (hds d hd)

/-! ## Layouts -/

private def exponentChars (x : Int) : List Char :=
  let ds := Nat.toDigits 10 x.natAbs
  'e' :: (if x < 0 then '-' else '+') :: (if ds.length < 2 then '0' :: ds else ds)

private theorem tail_exponent (x : Int) : Tail (exponentChars x) x := by
  let ds := Nat.toDigits 10 x.natAbs
  have hdigits : AllDigits (if ds.length < 2 then '0' :: ds else ds) := by
    split
    · exact (allDigits_replicate 1).append (allDigits_toDigits _)
    · exact allDigits_toDigits _
  have hvalue : Nat.ofDigitChars 10 (if ds.length < 2 then '0' :: ds else ds) 0 = x.natAbs := by
    have hds : Nat.ofDigitChars 10 ds 0 = x.natAbs := Nat.ofDigitChars_toDigits (by decide) (by decide)
    split
    · simpa [Nat.ofDigitChars_cons] using hds
    · exact hds
  have hne : (if ds.length < 2 then '0' :: ds else ds) ≠ [] := by
    split
    · exact List.cons_ne_nil _ _
    · exact Nat.toDigits_ne_nil
  have htail := Tail.exponent (decide (x < 0)) hdigits hne
  have hx : (if decide (x < 0) = true then -(x.natAbs : Int) else (x.natAbs : Int)) = x := by
    simp only [decide_eq_true_eq]
    omega
  rw [hvalue, hx] at htail
  simp only [decide_eq_true_eq] at htail
  exact htail

private theorem write_toList (n : Nat) (e : Int) :
    let ds := Nat.toDigits 10 n
    let point : Int := e + (ds.length : Int)
    (Layout.plain.write n e).toList =
      if -3 ≤ point ∧ point ≤ 16 then
        if point ≤ 0 then ['0'] ++ ['.'] ++ (List.replicate (-point).toNat '0' ++ ds)
        else if 0 ≤ e then ds ++ List.replicate e.toNat '0' ++ ['.'] ++ ['0']
        else ds.take point.toNat ++ ['.'] ++ ds.drop point.toNat
      else ds.take 1 ++ (if ds.drop 1 = [] then [] else ['.']) ++ ds.drop 1 ++
        exponentChars (point - 1) := by
  intro ds point
  have hds : (toString n).toList = ds := toList_toString n
  have hlength : ((toString n).length : Int) = ds.length := by rw [← hds, String.length_toList]
  unfold Layout.write
  dsimp only [Layout.plain]
  rw [hlength]
  change (if -3 ≤ point ∧ point ≤ 16 then _ else _ : String).toList = _
  split
  · change (if point ≤ 0 then "0." ++ String.ofList (List.replicate (-point).toNat '0') ++ toString n
      else if 0 ≤ e then toString n ++ String.ofList (List.replicate e.toNat '0') ++ ".0"
      else String.ofList ((toString n).toList.take point.toNat) ++ "." ++
        String.ofList ((toString n).toList.drop point.toNat)).toList = _
    generalize toString n = text at *
    clear_value ds point
    split
    · simp [hds]
    · split <;> simp [hds]
  · have hexponent (x : Int) : ((if x < 0 then "e-" else "e+") ++
        (if (toString x.natAbs).length < 2 then "0" ++ toString x.natAbs
        else toString x.natAbs)).toList = exponentChars x := by
      have hxs := toList_toString x.natAbs
      unfold exponentChars
      dsimp only
      rw [String.toList_append, ← String.length_toList, ← hxs]
      generalize toString x.natAbs = text
      split <;> split <;> simp
    change ((String.ofList ((toString n).toList.take 1) ++
      (if String.ofList ((toString n).toList.drop 1) = "" then ""
        else "." ++ String.ofList ((toString n).toList.drop 1))) ++
      ((if point - 1 < 0 then "e-" else "e+") ++
        (if (toString (point - 1).natAbs).length < 2 then "0" ++ toString (point - 1).natAbs
        else toString (point - 1).natAbs))).toList = _
    rw [String.toList_append, hexponent, hds, String.toList_append]
    split <;> simp_all

/-- A decimal is laid out as a text with its value. -/
theorem isDecimal_write (n : Nat) (e : Int) :
    IsDecimal (Layout.plain.write n e).toList ((n : Rat) * (10 : Rat) ^ e) := by
  rw [write_toList]
  have hn : Nat.ofDigitChars 10 (Nat.toDigits 10 n) 0 = n :=
    Nat.ofDigitChars_toDigits (by decide) (by decide)
  have hds := allDigits_toDigits n
  have hlength : 0 < (Nat.toDigits 10 n).length := Nat.length_toDigits_pos
  have hzero : AllDigits ['0'] := allDigits_replicate 1
  generalize Nat.toDigits 10 n = ds at *
  generalize hpoint : e + (ds.length : Int) = point
  have htake {k : Nat} (hk : 0 < k) : ds.take k ≠ [] := by
    intro hnil
    have hnone := congrArg List.length hnil
    rw [List.length_take, List.length_nil] at hnone
    omega
  -- the digits before and after the point are those of `n`, but for zeros; what the point takes
  -- away from the exponent the length of the fraction gives back
  split
  · split
    · have h := IsDecimal.parts hzero (List.cons_ne_nil _ _)
        ((allDigits_replicate (-point).toNat).append hds) .none (.inl rfl)
      have hvalue : Nat.ofDigitChars 10 (['0'] ++ (List.replicate (-point).toNat '0' ++ ds)) 0 = n := by
        rw [Nat.ofDigitChars_append, Nat.ofDigitChars_append, ofDigitChars_zeros]
        simpa [Nat.ofDigitChars_cons] using hn
      have hexponent : (0 : Int) - ((List.replicate (-point).toNat '0' ++ ds).length : Int) = e := by
        rw [List.length_append, List.length_replicate]
        omega
      rwa [List.append_nil, hvalue, hexponent] at h
    · split
      · have hne : ds ++ List.replicate e.toNat '0' ≠ [] := by
          intro hnil
          rw [(List.append_eq_nil_iff.mp hnil).1] at hlength
          exact absurd hlength (by decide)
        have h := IsDecimal.parts (hds.append (allDigits_replicate e.toNat)) hne hzero .none (.inl rfl)
        have hvalue : Nat.ofDigitChars 10 (ds ++ List.replicate e.toNat '0' ++ ['0']) 0 =
            n * 10 ^ e.toNat * 10 := by
          rw [Nat.ofDigitChars_append, Nat.ofDigitChars_append, hn, ofDigitChars_zeros]
          simp [Nat.ofDigitChars_cons, Nat.mul_comm]
        obtain ⟨k, rfl⟩ := Int.eq_ofNat_of_zero_le ‹0 ≤ e›
        rw [List.append_nil, hvalue] at h
        simpa using h
      · have h := IsDecimal.parts (hds.take point.toNat) (htake (by omega)) (hds.drop point.toNat) .none
          (.inl rfl)
        have hexponent : (0 : Int) - ((ds.drop point.toNat).length : Int) = e := by
          rw [List.length_drop]
          omega
        rwa [List.append_nil, List.take_append_drop, hn, hexponent] at h
  · have htail := tail_exponent (point - 1)
    have hmark : (if ds.drop 1 = [] then ([] : List Char) else ['.']) = ['.'] ∨
        (if ds.drop 1 = [] then ([] : List Char) else ['.']) = [] ∧ ds.drop 1 = [] ∧
          exponentChars (point - 1) ≠ [] := by
      split
      · exact .inr ⟨rfl, ‹_›, List.cons_ne_nil _ _⟩
      · exact .inl rfl
    have h := IsDecimal.parts (hds.take 1) (htake Nat.one_pos) (hds.drop 1) htail hmark
    have hexponent : point - 1 - ((ds.drop 1).length : Int) = e := by
      rw [List.length_drop]
      omega
    rwa [List.take_append_drop, hn, hexponent] at h

/-! ## Magnitudes -/

def magnitudeText (m : Nat) (e : Int) : String :=
  if m = 0 then "0.0" else Layout.plain.write (shortest m e).1 (shortest m e).2

theorem text_finite (s : Bool) (m : Nat) (e : Int) :
    text (.finite s m e) = if s then "-" ++ magnitudeText m e else magnitudeText m e := rfl

variable {m m' : Nat} {e e' : Int}

/-- The text of a magnitude is a decimal that is rounded to it. -/
theorem isDecimal_magnitudeText (h : InFormat m e) :
    ∃ v, IsDecimal (magnitudeText m e).toList v ∧ nearest false v = .finite false m e := by
  unfold magnitudeText
  split
  · rename_i hm
    subst hm
    have hzero : AllDigits ['0'] := allDigits_replicate 1
    have h0 := IsDecimal.parts hzero (List.cons_ne_nil _ _) hzero .none (.inl rfl)
    refine ⟨_, h0, ?_⟩
    have he : e = -1074 := h.2.2.2.resolve_left (by decide)
    rw [he]
    simp [Nat.ofDigitChars_cons, nearest, zero]
  · rename_i hm
    exact ⟨_, isDecimal_write _ _, readsAs_shortest h hm⟩

/-- No two magnitudes have one text. -/
theorem magnitudeText_inj (h : InFormat m e) (h' : InFormat m' e')
    (ht : magnitudeText m e = magnitudeText m' e') : m = m' ∧ e = e' := by
  obtain ⟨v, hv, hnearest⟩ := isDecimal_magnitudeText h
  obtain ⟨v', hv', hnearest'⟩ := isDecimal_magnitudeText h'
  have hvalue := hv.read
  rw [ht, hv'.read] at hvalue
  cases hvalue
  cases hnearest.symm.trans hnearest'
  exact ⟨rfl, rfl⟩

end DurableFlow.Binary64
