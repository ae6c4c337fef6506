import Mathlib.Algebra.Ring.Nat
import Mathlib.Data.Bool.AllAny
import DurableFlow.Proofs.Text.Numerals
import DurableFlow.Text.Quoted

/-! Hexadecimal numerals: digits of any script and the letters up to `f` in either case, in groups, perhaps
after a mark. A text is read as a number just when it is such a numeral. -/
namespace DurableFlow.Text

/-! ## The grammar -/

inductive HexDigit (c : Char) : Nat → Prop
  | digit {d : Nat} (value : digitValue? c = some d) : HexDigit c d
  | letter {k : Nat} (spelled : "abcdef".toList[k]? = some c ∨ "ABCDEF".toList[k]? = some c) :
      HexDigit c (10 + k)

/-- The mark of a hexadecimal numeral, perhaps with an underscore after it, or none. -/
inductive HexMark : List Char → Prop
  | none : HexMark []
  | plain {zero x : Char} (value : digitValue? zero = some 0) (marked : x = 'x' ∨ x = 'X') : HexMark [zero, x]
  | apart {zero x : Char} (value : digitValue? zero = some 0) (marked : x = 'x' ∨ x = 'X') :
      HexMark [zero, x, '_']

def DenotesHex (s : String) (n : Nat) : Prop :=
  ∃ negative mark body ds, Spells s negative (mark ++ body) ∧ HexMark mark ∧ GroupedBy HexDigit body ds ∧
    signedValue negative (digitsValue 16 ds) = n

/-! ## Digits -/

private theorem hexValue?_letter {x : Char} {d : Nat} (h : hexValue? x = some d) (hten : 10 ≤ d) :
    ∃ k < 6, d = 10 + k ∧ ("abcdef".toList[k]? = some x ∨ "ABCDEF".toList[k]? = some x) := by
  have hlower : ∀ k < 6, "abcdef".toList[k]? = some (Char.ofNat (97 + k)) := by decide
  have hupper : ∀ k < 6, "ABCDEF".toList[k]? = some (Char.ofNat (65 + k)) := by decide
  have hchar {base : Nat} (hbase : base ≤ x.toNat) : Char.ofNat (base + (x.toNat - base)) = x := by
    rw [Nat.add_sub_cancel' hbase, Char.ofNat_toNat]
  unfold hexValue? at h
  simp only [Char.le_def, UInt32.le_iff_toNat_le] at h
  change (if 48 ≤ x.toNat ∧ x.toNat ≤ 57 then _ else if 97 ≤ x.toNat ∧ x.toNat ≤ 102 then _ else
    if 65 ≤ x.toNat ∧ x.toNat ≤ 70 then _ else _) = _ at h
  split at h
  · cases h
    omega
  · split at h
    · rename_i hrange
      cases h
      refine ⟨x.toNat - 97, by omega, by omega, .inl ?_⟩
      rw [hlower _ (by omega), hchar hrange.1]
    · split at h
      · rename_i hrange
        cases h
        refine ⟨x.toNat - 65, by omega, by omega, .inr ?_⟩
        rw [hupper _ (by omega), hchar hrange.1]
      · cases h

private theorem letter_plain : ∀ word ∈ ["abcdef", "ABCDEF"], ∀ letter ∈ word.toList.zipIdx,
    (letter.1.toNat < 128 ∧ letter.1 ≠ ' ' ∧ letter.1 ≠ '?' ∧ ∀ d < 10, letter.1 ≠ asciiDigit d) ∧
      hexValue? letter.1 = some (10 + letter.2) := by
  decide

/-- What holds of the digits of all scripts and of the letters holds of hexadecimal digits. -/
theorem HexDigit.of_forall {p : Char → Prop} (hdigit : ∀ c d, digitValue? c = some d → p c)
    (hletter : ∀ x ∈ "abcdefABCDEF".toList, p x) {c : Char} {d : Nat} (h : HexDigit c d) : p c := by
  have hmem : "abcdefABCDEF".toList = "abcdef".toList ++ "ABCDEF".toList := by decide
  cases h with
  | digit value => exact hdigit c d value
  | letter spelled =>
    refine hletter c (hmem ▸ List.mem_append.mpr ?_)
    exact spelled.imp List.mem_of_getElem? List.mem_of_getElem?

theorem hexDigit_iff {c : Char} {d : Nat} : HexDigit c d ↔ hexValue? (plain c) = some d ∧ d < 16 := by
  have hletter {word : String} (hword : word ∈ ["abcdef", "ABCDEF"]) {k : Nat} {x : Char}
      (hx : word.toList[k]? = some x) : (plain c = x ↔ c = x) ∧ hexValue? x = some (10 + k) := by
    obtain ⟨⟨hsmall, hspace, hmark, hdigit⟩, hvalue⟩ :=
      letter_plain word hword (x, k) (List.mk_mem_zipIdx_iff_getElem?.mpr hx)
    exact ⟨plain_eq_iff hsmall hspace hmark hdigit, hvalue⟩
  constructor
  · intro h
    have hfrom {word : String} (hword : word ∈ ["abcdef", "ABCDEF"]) {k : Nat}
        (hc : word.toList[k]? = some c) : hexValue? (plain c) = some (10 + k) ∧ 10 + k < 16 := by
      have hlength : ∀ word ∈ ["abcdef", "ABCDEF"], word.toList.length = 6 := by decide
      have hk : k < 6 := hlength word hword ▸ (List.getElem?_eq_some_iff.mp hc).1
      obtain ⟨hplain, hvalue⟩ := hletter hword hc
      exact ⟨(congrArg hexValue? (hplain.mpr rfl)).trans hvalue, by omega⟩
    cases h with
    | digit value =>
      obtain ⟨hvalue, hten⟩ := hexValue?_iff.mpr (digitValue?_iff.mp value)
      exact ⟨hvalue, by omega⟩
    | letter spelled =>
      cases spelled with
      | inl hc => exact hfrom (by simp) hc
      | inr hc => exact hfrom (by simp) hc
  · rintro ⟨hvalue, -⟩
    by_cases hten : d < 10
    · exact .digit (digitValue?_iff.mpr (hexValue?_iff.mp ⟨hvalue, hten⟩))
    · obtain ⟨k, hk, rfl, hx⟩ := hexValue?_letter hvalue (by omega)
      have hplain : plain c = c := by
        cases hx with
        | inl hx => exact ((hletter (by simp) hx).1.mp rfl).symm
        | inr hx => exact ((hletter (by simp) hx).1.mp rfl).symm
      exact .letter (hplain ▸ hx)

/-! ## Marks -/

private def unmarked (cs : List Char) : List Char :=
  match cs with
  | '0' :: x :: '_' :: rest => if x = 'x' ∨ x = 'X' then rest else cs
  | '0' :: x :: rest => if x = 'x' ∨ x = 'X' then rest else cs
  | _ => cs

private theorem readHex_eq (s : String) : readHex s =
    match (groupedDigits 16 (unmarked (splitSign (numeralBody s)).2)).map (digitsValue 16) with
    | some n => if (splitSign (numeralBody s)).1 ∧ n ≠ 0 then none else some n
    | none => none := rfl

private theorem digitValue?_zero {c : Char} : digitValue? c = some 0 ↔ plain c = '0' := by
  rw [digitValue?_iff]
  exact ⟨fun h => h.2, fun h => ⟨by decide, h⟩⟩

private theorem plain_mark {c x : Char} (hx : x = 'x' ∨ x = 'X') : plain c = x ↔ c = x := by
  rcases hx with rfl | rfl
  · exact plain_eq_iff (by decide) (by decide) (by decide) (by decide)
  · exact plain_eq_iff (by decide) (by decide) (by decide) (by decide)

private theorem exists_mark (cs : List Char) :
    ∃ mark body, cs = mark ++ body ∧ HexMark mark ∧ unmarked (cs.map plain) = body.map plain := by
  generalize htext : cs.map plain = text
  unfold unmarked
  split
  · split
    · rename_i x rest hx
      obtain ⟨zero, _, rfl, hzero, htext⟩ := List.map_eq_cons_iff.mp htext
      obtain ⟨c, _, rfl, hc, htext⟩ := List.map_eq_cons_iff.mp htext
      obtain ⟨u, body, rfl, hu, hbody⟩ := List.map_eq_cons_iff.mp htext
      obtain rfl := (plain_mark hx).mp hc
      obtain rfl := plain_underscore.mp hu
      exact ⟨[zero, c, '_'], body, rfl, .apart (digitValue?_zero.mpr hzero) hx, hbody.symm⟩
    · exact ⟨[], cs, rfl, .none, htext.symm⟩
  · split
    · rename_i x rest _ hx
      obtain ⟨zero, _, rfl, hzero, htext⟩ := List.map_eq_cons_iff.mp htext
      obtain ⟨c, body, rfl, hc, hbody⟩ := List.map_eq_cons_iff.mp htext
      obtain rfl := (plain_mark hx).mp hc
      exact ⟨[zero, c], body, rfl, .plain (digitValue?_zero.mpr hzero) hx, hbody.symm⟩
    · exact ⟨[], cs, rfl, .none, htext.symm⟩
  · exact ⟨[], cs, rfl, .none, htext.symm⟩

private theorem HexDigit.not_mark {c : Char} {d : Nat} (h : HexDigit c d) :
    plain c ≠ '_' ∧ plain c ≠ 'x' ∧ plain c ≠ 'X' := by
  have hvalue := (hexDigit_iff.mp h).1
  refine ⟨?_, ?_, ?_⟩
  all_goals
    intro hc
    rw [hc] at hvalue
    cases hvalue

private theorem unmarked_append {mark body : List Char} {ds : List Nat} (h : HexMark mark)
    (hbody : GroupedBy HexDigit body ds) : unmarked ((mark ++ body).map plain) = body.map plain := by
  have hletter : ∀ c ∈ body, ¬ (plain c = 'x' ∨ plain c = 'X') :=
    hbody.forall_mem (fun c d hd => not_or.mpr hd.not_mark.2) (by decide)
  cases h with
  | none =>
    have hplain : ∀ c ∈ body.map plain, ¬ (c = 'x' ∨ c = 'X') := by
      intro x hx
      obtain ⟨c, hc, rfl⟩ := List.mem_map.mp hx
      exact hletter c hc
    rw [List.nil_append]
    generalize body.map plain = text at hplain
    unfold unmarked
    split
    · exact if_neg (hplain _ (by simp))
    · exact if_neg (hplain _ (by simp))
    · rfl
  | plain value marked =>
    obtain ⟨c, rest, d, rfl, hd⟩ := hbody.exists_cons
    simp only [List.cons_append, List.nil_append, List.map_cons, digitValue?_zero.mp value,
      (plain_mark marked).mpr rfl]
    have hc := hd.not_mark.1
    generalize plain c = first at hc
    unfold unmarked
    split
    · rename_i heq
      cases heq
      exact absurd rfl hc
    · rename_i heq
      cases heq
      exact if_pos marked
    · rename_i hno
      exact absurd rfl (hno _ _)
  | apart value marked =>
    simp only [List.cons_append, List.nil_append, List.map_cons, digitValue?_zero.mp value,
      (plain_mark marked).mpr rfl]
    exact if_pos marked

/-! ## Numerals -/

/-- What holds of digits and of the marks in between holds of all characters of a numeral. -/
theorem forall_mem_numeral {p : Char → Prop} {mark body : List Char} {ds : List Nat} (h : HexMark mark)
    (hbody : GroupedBy HexDigit body ds) (hdigit : ∀ c d, digitValue? c = some d → p c)
    (hletter : ∀ x ∈ "abcdefABCDEFxX_".toList, p x) : ∀ c ∈ mark ++ body, p c := by
  have hx {x : Char} (marked : x = 'x' ∨ x = 'X') : p x := by
    rcases marked with rfl | rfl
    · exact hletter 'x' (by decide)
    · exact hletter 'X' (by decide)
  have hunderscore : p '_' := hletter '_' (by decide)
  have hletters : "abcdefABCDEF".toList ⊆ "abcdefABCDEFxX_".toList := by decide
  refine List.forall_mem_append.mpr ⟨?_, hbody.forall_mem (fun c d hd => ?_) hunderscore⟩
  · cases h with
    | none => exact fun c hc => (List.not_mem_nil hc).elim
    | plain value marked => simpa using ⟨hdigit _ 0 value, hx marked⟩
    | apart value marked => simpa using ⟨hdigit _ 0 value, hx marked, hunderscore⟩
  · exact hd.of_forall hdigit fun x hmem => hletter x (hletters hmem)

private theorem not_pad {mark body : List Char} {ds : List Nat} (h : HexMark mark)
    (hbody : GroupedBy HexDigit body ds) : ∀ c ∈ mark ++ body, isPad c = false :=
  forall_mem_numeral h hbody (fun _ _ => isPad_of_digit) (List.all_iff_forall_prop.mp (by decide))

private theorem not_signed {mark body : List Char} {ds : List Nat} (h : HexMark mark)
    (hbody : GroupedBy HexDigit body ds) : ¬ StartsSigned ((mark ++ body).map plain) := by
  have hfirst {c : Char} {rest : List Char} (hminus : plain c ≠ '-') (hplus : plain c ≠ '+') :
      ¬ StartsSigned ((c :: rest).map plain) := by
    rw [StartsSigned, List.map_cons, List.head?_cons, Option.some.injEq, Option.some.injEq]
    exact not_or.mpr ⟨hminus, hplus⟩
  have hzero {c : Char} (value : digitValue? c = some 0) : plain c ≠ '-' ∧ plain c ≠ '+' := by
    rw [digitValue?_zero.mp value]
    decide
  cases h with
  | none =>
    obtain ⟨c, rest, d, rfl, hd⟩ := hbody.exists_cons
    have hvalue := (hexDigit_iff.mp hd).1
    refine hfirst ?_ ?_
    all_goals
      intro hc
      rw [hc] at hvalue
      cases hvalue
  | plain value marked => exact hfirst (hzero value).1 (hzero value).2
  | apart value marked => exact hfirst (hzero value).1 (hzero value).2

/-- A text is read as a number just when it is a hexadecimal numeral of that number. -/
theorem readHex_eq_some {s : String} {n : Nat} : readHex s = some n ↔ DenotesHex s n := by
  have hread {negative : Bool} {v n : Nat} :
      (if negative ∧ v ≠ 0 then none else some v) = some n ↔ signedValue negative v = n := by
    cases negative with
    | false => grind [signedValue]
    | true => grind [signedValue]
  rw [readHex_eq, numeralBody_eq]
  constructor
  · intro h
    cases hsplit : splitSign ((trimBy isPad s.toList).map plain) with
    | mk negative rest =>
      rw [hsplit] at h
      dsimp only at h
      obtain ⟨sign, signed, hmid⟩ := splitSign_eq hsplit
      obtain ⟨text, htrim, rfl⟩ := map_plain_sign signed hmid
      obtain ⟨mark, body, rfl, hmark, hbody⟩ := exists_mark text
      rw [hbody] at h
      cases hgroups : groupedDigits 16 (body.map plain) with
      | none =>
        rw [hgroups] at h
        cases h
      | some ds =>
        rw [hgroups] at h
        have hgrouped := (groupedDigits_eq_some_by hexDigit_iff).mp hgroups
        exact ⟨negative, mark, body, ds, (spells_iff (not_pad hmark hgrouped)).mpr ⟨sign, signed, htrim⟩,
          hmark, hgrouped, hread.mp h⟩
  · rintro ⟨negative, mark, body, ds, hspells, hmark, hgrouped, hvalue⟩
    obtain ⟨sign, signed, htrim⟩ := (spells_iff (not_pad hmark hgrouped)).mp hspells
    rw [htrim, List.map_append, signed.map_plain, splitSign_append signed (not_signed hmark hgrouped)]
    dsimp only
    rw [unmarked_append hmark hgrouped, (groupedDigits_eq_some_by hexDigit_iff).mpr hgrouped]
    exact hread.mpr hvalue

/-! ## Written numbers -/

/-- The digits of a number as they are written. -/
theorem hexText_eq (width n : Nat) : ∃ ds : List Nat, hexText width n = ds.map hexDigit ∧
    ds.length = width ∧ (∀ d ∈ ds, d < 16) ∧ digitsValue 16 ds = n % 16 ^ width := by
  induction width generalizing n with
  | zero => exact ⟨[], rfl, rfl, by simp, by simp [digitsValue, Nat.mod_one]⟩
  | succ width ih =>
    obtain ⟨ds, htext, hlength, hsmall, hvalue⟩ := ih (n / 16)
    refine ⟨ds ++ [n % 16], by simp [hexText, htext], by simp [hlength], ?_, ?_⟩
    · intro d hd
      rcases List.mem_append.mp hd with hd | hd
      · exact hsmall d hd
      · exact List.mem_singleton.mp hd ▸ Nat.mod_lt n (by decide)
    · have happend : digitsValue 16 (ds ++ [n % 16]) = digitsValue 16 ds * 16 + n % 16 := by
        simp [digitsValue]
      rw [happend, hvalue, Nat.pow_succ, Nat.mul_comm (16 ^ width), Nat.mod_mul]
      omega

theorem length_hexText (width n : Nat) : (hexText width n).length = width := by
  obtain ⟨ds, htext, hlength, -, -⟩ := hexText_eq width n
  rw [htext, List.length_map, hlength]

private theorem hexDigit_of_toLower {c : Char} {d : Nat} (hd : d < 16) (h : c.toLower = hexDigit d) :
    HexDigit c d := by
  refine hexDigit_iff.mpr ⟨?_, hd⟩
  by_cases hupper : 65 ≤ c.toNat ∧ c.toNat ≤ 90
  · have hall : ∀ k < 26, ∀ d < 16, (Char.ofNat (65 + k)).toLower = hexDigit d →
        hexValue? (plain (Char.ofNat (65 + k))) = some d := by decide
    have hc : Char.ofNat (65 + (c.toNat - 65)) = c := by
      rw [Nat.add_sub_cancel' hupper.1, Char.ofNat_toNat]
    exact hc ▸ hall (c.toNat - 65) (by omega) d hd (hc.symm ▸ h)
  · have hall : ∀ d < 16, hexValue? (plain (hexDigit d)) = some d := by decide
    have hsame : c.toLower = c := dif_neg (by simpa [UInt32.le_iff_toNat_le] using hupper)
    rw [← hsame, h]
    exact hall d hd

/-- The digits of a number, in either case, are a numeral of it. -/
theorem denotesHex_of_toLower {width n : Nat} {cs : List Char} (hw : width ≠ 0) (hn : n < 16 ^ width)
    (h : cs.map Char.toLower = hexText width n) : DenotesHex (String.ofList cs) n := by
  obtain ⟨ds, htext, hlength, hsmall, hvalue⟩ := hexText_eq width n
  have hgrouped {cs : List Char} {ds : List Nat} (hds : ds ≠ []) (hsmall : ∀ d ∈ ds, d < 16)
      (h : cs.map Char.toLower = ds.map hexDigit) : GroupedBy HexDigit cs ds := by
    induction ds generalizing cs with
    | nil => exact absurd rfl hds
    | cons d rest ih =>
      obtain ⟨hd, hrest⟩ := List.forall_mem_cons.mp hsmall
      obtain ⟨c, cs, rfl, hc, hcs⟩ := List.map_eq_cons_iff.mp h
      cases rest with
      | nil =>
        rw [List.map_eq_nil_iff.mp hcs]
        exact .one (hexDigit_of_toLower hd hc)
      | cons => exact .next (hexDigit_of_toLower hd hc) (ih (by simp) hrest hcs)
  have hds : ds ≠ [] := by
    rintro rfl
    exact hw hlength.symm
  refine ⟨false, [], cs, ds, ⟨[], [], [], by simp, by simp, .none, by simp⟩, .none,
    hgrouped hds hsmall (h.trans htext), ?_⟩
  rw [hvalue, Nat.mod_eq_of_lt hn]
  rfl

end DurableFlow.Text
