import Mathlib.Algebra.Ring.Nat
import DurableFlow.Json.Written
import DurableFlow.Proofs.Text.HexNumerals

/-! Written strings. What is written for a string says which one it is and where it ends: the escapes of
two characters never have one beginning. -/
namespace DurableFlow.Json

/-! ## Characters -/

private theorem hexDigit_inj : ∀ m < 16, ∀ n < 16, Text.hexDigit m = Text.hexDigit n → m = n := by
  decide

private theorem hexText_inj {width m n : Nat} (hm : m < 16 ^ width) (hn : n < 16 ^ width)
    (h : Text.hexText width m = Text.hexText width n) : m = n := by
  induction width generalizing m n with
  | zero => omega
  | succ width ih =>
    rw [Text.hexText, Text.hexText] at h
    obtain ⟨hhigh, hlow⟩ := List.append_inj' h rfl
    have hdigit := hexDigit_inj _ (Nat.mod_lt m (by decide)) _ (Nat.mod_lt n (by decide))
      (List.cons.inj hlow).1
    have hrest := ih (m := m / 16) (n := n / 16) (by omega) (by omega) hhigh
    omega

private def units (c : Char) : List Nat :=
  if c.toNat < 0x10000 then [c.toNat]
  else [0xD800 + (c.toNat - 0x10000) / 0x400, 0xDC00 + (c.toNat - 0x10000) % 0x400]

private def unitText (n : Nat) : List Char := '\\' :: 'u' :: Text.hexText 4 n

private def letters : List (Char × Char) :=
  [('"', '"'), ('\\', '\\'), ('n', '\n'), ('r', '\r'), ('t', '\t'), ('b', Char.ofNat 8), ('f', Char.ofNat 12)]

private theorem escapeChar_cases (c : Char) :
    (c ≠ '"' ∧ c ≠ '\\' ∧ escapeChar c = [c]) ∨
      (∃ k, (k, c) ∈ letters ∧ escapeChar c = ['\\', k]) ∨
      escapeChar c = (units c).flatMap unitText := by
  have hofNat {n : Nat} (h : c.toNat = n) : c = Char.ofNat n := by rw [← h, Char.ofNat_toNat]
  have hletter {k d : Char} (hmem : (k, d) ∈ letters) (hc : c = d) : (k, c) ∈ letters := hc ▸ hmem
  rw [escapeChar]
  by_cases h : c = '"'
  · rw [if_pos h]
    exact .inr (.inl ⟨'"', hletter (by decide) h, rfl⟩)
  rw [if_neg h]
  by_cases h' : c = '\\'
  · rw [if_pos h']
    exact .inr (.inl ⟨'\\', hletter (by decide) h', rfl⟩)
  rw [if_neg h']
  by_cases hn : c = '\n'
  · rw [if_pos hn]
    exact .inr (.inl ⟨'n', hletter (by decide) hn, rfl⟩)
  rw [if_neg hn]
  by_cases hr : c = '\r'
  · rw [if_pos hr]
    exact .inr (.inl ⟨'r', hletter (by decide) hr, rfl⟩)
  rw [if_neg hr]
  by_cases ht : c = '\t'
  · rw [if_pos ht]
    exact .inr (.inl ⟨'t', hletter (by decide) ht, rfl⟩)
  rw [if_neg ht]
  by_cases hb : c.toNat = 8
  · rw [if_pos hb]
    exact .inr (.inl ⟨'b', hletter (by decide) (hofNat hb), rfl⟩)
  rw [if_neg hb]
  by_cases hf : c.toNat = 12
  · rw [if_pos hf]
    exact .inr (.inl ⟨'f', hletter (by decide) (hofNat hf), rfl⟩)
  rw [if_neg hf]
  by_cases hplain : ' ' ≤ c ∧ c ≤ '~'
  · rw [if_pos hplain]
    exact .inl ⟨h, h', rfl⟩
  rw [if_neg hplain, units]
  by_cases hunit : c.toNat < 0x10000
  · rw [if_pos hunit, if_pos hunit]
    exact .inr (.inr (List.append_nil _).symm)
  · rw [if_neg hunit, if_neg hunit]
    exact .inr (.inr (congrArg (unitText _ ++ ·) (List.append_nil _).symm))

private theorem toNat_bounds (c : Char) :
    (c.toNat < 0xD800 ∨ 0xE000 ≤ c.toNat) ∧ c.toNat < 0x110000 := by
  have hvalid := c.valid
  simp only [UInt32.isValidChar, Nat.isValidChar] at hvalid
  have hnat : c.toNat = c.val.toNat := rfl
  omega

private theorem unitText_append_inj {m n : Nat} (hm : m < 0x10000) (hn : n < 0x10000)
    {r r' : List Char} (h : unitText m ++ r = unitText n ++ r') : m = n ∧ r = r' := by
  have hlength : (unitText m).length = (unitText n).length := by simp [unitText, Text.length_hexText]
  obtain ⟨hunit, hrest⟩ := List.append_inj h hlength
  simp only [unitText, List.cons.injEq, true_and] at hunit
  exact ⟨hexText_inj hm hn hunit, hrest⟩

private theorem units_append_inj {c d : Char} {r r' : List Char}
    (h : (units c).flatMap unitText ++ r = (units d).flatMap unitText ++ r') : c = d ∧ r = r' := by
  obtain ⟨hc, hcmax⟩ := toNat_bounds c
  obtain ⟨hd, hdmax⟩ := toNat_bounds d
  have heq (hn : c.toNat = d.toNat) : c = d := by
    rw [← Char.ofNat_toNat c, hn, Char.ofNat_toNat]
  have hone {c : Char} (hc : c.toNat < 0x10000) (r : List Char) :
      (units c).flatMap unitText ++ r = unitText c.toNat ++ r := by
    rw [units, if_pos hc, List.flatMap_singleton]
  have htwo {c : Char} (hc : ¬ c.toNat < 0x10000) (r : List Char) :
      (units c).flatMap unitText ++ r = unitText (0xD800 + (c.toNat - 0x10000) / 0x400) ++
        (unitText (0xDC00 + (c.toNat - 0x10000) % 0x400) ++ r) := by
    rw [units, if_neg hc, List.flatMap_cons, List.flatMap_singleton, List.append_assoc]
  by_cases hcone : c.toNat < 0x10000 <;> by_cases hdone : d.toNat < 0x10000
  · rw [hone hcone, hone hdone] at h
    obtain ⟨hn, hr⟩ := unitText_append_inj (by omega) (by omega) h
    exact ⟨heq hn, hr⟩
  · rw [hone hcone, htwo hdone] at h
    obtain ⟨hn, -⟩ := unitText_append_inj (by omega) (by omega) h
    omega
  · rw [htwo hcone, hone hdone] at h
    obtain ⟨hn, -⟩ := unitText_append_inj (by omega) (by omega) h
    omega
  · rw [htwo hcone, htwo hdone] at h
    obtain ⟨hhigh, h⟩ := unitText_append_inj (by omega) (by omega) h
    obtain ⟨hlow, hr⟩ := unitText_append_inj (by omega) (by omega) h
    exact ⟨heq (by omega), hr⟩

private theorem flatMap_units (c : Char) (r : List Char) :
    ∃ rest, (units c).flatMap unitText ++ r = '\\' :: 'u' :: rest := by
  unfold units
  split <;> exact ⟨_, rfl⟩

private theorem escapeChar_append_inj {c d : Char} {r r' : List Char}
    (h : escapeChar c ++ r = escapeChar d ++ r') : c = d ∧ r = r' := by
  have hletters : ∀ x ∈ letters, x.1 ≠ 'u' ∧ ∀ y ∈ letters, x.1 = y.1 → x.2 = y.2 := by decide
  obtain ⟨hc, hc', hct⟩ | ⟨k, hk, hct⟩ | hct := escapeChar_cases c <;>
    obtain ⟨hd, hd', hdt⟩ | ⟨l, hl, hdt⟩ | hdt := escapeChar_cases d <;> rw [hct, hdt] at h
  · simpa using h
  · exact absurd (List.cons.inj h).1 hc'
  · obtain ⟨rest, hrest⟩ := flatMap_units d r'
    rw [hrest] at h
    exact absurd (List.cons.inj h).1 hc'
  · exact absurd (List.cons.inj h).1.symm hd'
  · simp only [List.cons_append, List.nil_append, List.cons.injEq, true_and] at h
    exact ⟨(hletters _ hk).2 _ hl h.1, h.2⟩
  · obtain ⟨rest, hrest⟩ := flatMap_units d r'
    rw [hrest] at h
    simp only [List.cons_append, List.nil_append, List.cons.injEq, true_and] at h
    exact absurd h.1 (hletters _ hk).1
  · obtain ⟨rest, hrest⟩ := flatMap_units c r
    rw [hrest] at h
    exact absurd (List.cons.inj h).1.symm hd'
  · obtain ⟨rest, hrest⟩ := flatMap_units c r
    rw [hrest] at h
    simp only [List.cons_append, List.nil_append, List.cons.injEq, true_and] at h
    exact absurd h.1.symm (hletters _ hl).1
  · exact units_append_inj h

private theorem escapeChar_head (c : Char) (r : List Char) :
    ∃ k rest, escapeChar c ++ r = k :: rest ∧ k ≠ '"' := by
  obtain ⟨hc, -, hct⟩ | ⟨k, -, hct⟩ | hct := escapeChar_cases c <;> rw [hct]
  · exact ⟨c, r, rfl, hc⟩
  · exact ⟨'\\', k :: r, rfl, by decide⟩
  · obtain ⟨rest, hrest⟩ := flatMap_units c r
    exact ⟨_, _, hrest, by decide⟩

/-! ## Strings -/

theorem toList_stringText (s : String) :
    (stringText s).toList = '"' :: (s.toList.flatMap escapeChar ++ ['"']) := by
  rw [stringText, String.toList_ofList]
  rfl

/-- What is written for a string says which one it is and where it ends. -/
theorem stringText_append_inj {s t : String} {r r' : List Char}
    (h : (stringText s).toList ++ r = (stringText t).toList ++ r') : s = t ∧ r = r' := by
  have hchars (cs ds : List Char)
      (h : cs.flatMap escapeChar ++ '"' :: r = ds.flatMap escapeChar ++ '"' :: r') :
      cs = ds ∧ r = r' := by
    induction cs generalizing ds with
    | nil =>
      cases ds with
      | nil => exact ⟨rfl, (List.cons.inj h).2⟩
      | cons d ds =>
        rw [List.flatMap_cons, List.append_assoc] at h
        obtain ⟨k, rest, hrest, hk⟩ := escapeChar_head d (ds.flatMap escapeChar ++ '"' :: r')
        rw [hrest] at h
        exact absurd (List.cons.inj h).1.symm hk
    | cons c cs ih =>
      cases ds with
      | nil =>
        rw [List.flatMap_cons, List.append_assoc] at h
        obtain ⟨k, rest, hrest, hk⟩ := escapeChar_head c (cs.flatMap escapeChar ++ '"' :: r)
        rw [hrest] at h
        exact absurd (List.cons.inj h).1 hk
      | cons d ds =>
        rw [List.flatMap_cons, List.flatMap_cons, List.append_assoc, List.append_assoc] at h
        obtain ⟨rfl, hrest⟩ := escapeChar_append_inj h
        obtain ⟨rfl, hr⟩ := ih ds hrest
        exact ⟨rfl, hr⟩
  rw [toList_stringText, toList_stringText] at h
  simp only [List.cons_append, List.append_assoc, List.nil_append, List.cons.injEq, true_and] at h
  obtain ⟨hlist, hr⟩ := hchars _ _ h
  exact ⟨String.toList_inj.mp hlist, hr⟩

end DurableFlow.Json
