import DurableFlow.Text.Glob

/-! Patterns that are a plain text followed by a star. They match exactly the texts that begin with the
plain one, although the matching is done byte by byte: no code of a character begins another. -/
namespace DurableFlow.Text.Glob

def IsPlain (s : String) : Prop := ∀ c ∈ s.toList, c ∉ ['*', '?', '[', '\\']

instance (s : String) : Decidable (IsPlain s) := List.decidableBAll (fun c => c ∉ _) s.toList

/-! ## Bytes -/

private theorem toList_loop (bs : ByteArray) (i : Nat) (r : List UInt8) :
    ByteArray.toList.loop bs i r = r.reverse ++ bs.data.toList.drop i := by
  fun_induction ByteArray.toList.loop bs i r with
  | case1 i r h ih =>
    have hi : i < bs.data.toList.length := by simpa using h
    rw [ih, List.drop_eq_getElem_cons hi]
    simp [ByteArray.get!, h]
  | case2 i r h =>
    rw [List.drop_eq_nil_of_le (by simpa using Nat.le_of_not_lt h)]
    simp

def code (c : Char) : List Char := (String.utf8EncodeChar c).map fun b => Char.ofNat b.toNat

theorem bytes_eq_flatMap (s : String) : bytes s = s.toList.flatMap code := by
  have hlist : s.toUTF8.toList = s.toList.flatMap String.utf8EncodeChar := by
    have hdata : s.toUTF8 = s.toList.utf8Encode := by
      rw [← String.toByteArray_ofList, String.ofList_toList]
      rfl
    rw [ByteArray.toList, toList_loop, hdata, List.utf8Encode, List.toList_data_toByteArray]
    rfl
  rw [bytes, hlist, List.map_flatMap]
  rfl

private theorem toNat_ofNat_byte (b : UInt8) : (Char.ofNat b.toNat).toNat = b.toNat := by
  have hvalid : b.toNat.isValidChar := .inl (by have := b.toNat_lt; omega)
  rw [Char.ofNat, dif_pos hvalid]
  rfl

private theorem ofNat_byte_inj : Function.Injective fun b : UInt8 => Char.ofNat b.toNat := by
  intro a b h
  have hn := congrArg Char.toNat h
  dsimp only at hn
  rw [toNat_ofNat_byte, toNat_ofNat_byte] at hn
  exact UInt8.toNat_inj.mp hn

private theorem eq_of_code_eq_append {c d : Char} {z : List Char} (h : code d = code c ++ z) :
    d = c := by
  obtain ⟨front, back, hcode, hfront, _⟩ := List.map_eq_append_iff.mp h
  have hc : front = String.utf8EncodeChar c := (List.map_inj_right fun _ _ hx => ofNat_byte_inj hx).mp hfront
  have hd : ((String.utf8EncodeChar d).toByteArray ++ .empty).utf8DecodeChar? 0 = some d :=
    ByteArray.utf8DecodeChar?_utf8EncodeChar_append
  have hc' : ((String.utf8EncodeChar c).toByteArray ++ back.toByteArray).utf8DecodeChar? 0 =
      some c := ByteArray.utf8DecodeChar?_utf8EncodeChar_append
  rw [ByteArray.append_empty, hcode, hc, List.toByteArray_append, hc'] at hd
  exact (Option.some.inj hd).symm

private theorem code_append_inj {c d : Char} {x y : List Char} (h : code c ++ x = code d ++ y) :
    c = d ∧ x = y := by
  have hcd : c = d := by
    obtain ⟨z, hz, _⟩ | ⟨z, hz, _⟩ := List.append_eq_append_iff.mp h
    · exact (eq_of_code_eq_append hz).symm
    · exact eq_of_code_eq_append hz
  subst hcd
  exact ⟨rfl, List.append_cancel_left h⟩

private theorem flatMap_code_prefix (p t : List Char) :
    p.flatMap code <+: t.flatMap code ↔ p <+: t := by
  constructor
  · intro h
    induction p generalizing t with
    | nil => exact List.nil_prefix
    | cons c rest ih =>
      obtain ⟨z, hz⟩ := h
      rw [List.flatMap_cons, List.append_assoc] at hz
      cases t with
      | nil =>
        have hlength := congrArg List.length hz
        have hpos := c.utf8Size_pos
        simp [code] at hlength
        omega
      | cons d t =>
        rw [List.flatMap_cons] at hz
        obtain ⟨rfl, hrest⟩ := code_append_inj hz
        exact List.cons_prefix_cons.mpr ⟨rfl, ih t ⟨z, hrest⟩⟩
  · rintro ⟨z, rfl⟩
    rw [List.flatMap_append]
    exact List.prefix_append _ _

private theorem mem_code {c b : Char} (h : b ∈ code c) : b = c ∨ 128 ≤ b.toNat := by
  obtain ⟨x, hx, rfl⟩ := List.mem_map.mp h
  by_cases hc : c.val.toNat ≤ 127
  · simp only [String.utf8EncodeChar, hc, if_true, List.mem_singleton] at hx
    refine .inl (Char.toNat_inj.mp ?_)
    rw [toNat_ofNat_byte, hx]
    exact Nat.mod_eq_of_lt (by omega)
  · right
    rw [toNat_ofNat_byte]
    simp only [String.utf8EncodeChar, hc, if_false] at hx
    split at hx
    · simp only [List.mem_cons, List.not_mem_nil, or_false] at hx
      obtain rfl | rfl := hx <;> simp <;> omega
    · split at hx
      · simp only [List.mem_cons, List.not_mem_nil, or_false] at hx
        obtain rfl | rfl | rfl := hx <;> simp <;> omega
      · simp only [List.mem_cons, List.not_mem_nil, or_false] at hx
        obtain rfl | rfl | rfl | rfl := hx <;> simp <;> omega

private theorem plain_of_mem_code {c b : Char} (hc : c ∉ ['*', '?', '[', '\\']) (hb : b ∈ code c) :
    b ∉ ['*', '?', '[', '\\'] := by
  obtain rfl | hbig := mem_code hb
  · exact hc
  · intro hm
    simp only [List.mem_cons, List.not_mem_nil, or_false] at hm
    obtain rfl | rfl | rfl | rfl := hm <;> exact absurd hbig (by decide)

/-! ## Plain patterns -/

private theorem pieces_plain {cs : List Char} (h : ∀ c ∈ cs, c ∉ ['*', '?', '[', '\\']) :
    pieces none (cs ++ ['*']) = cs.map Piece.exactly ++ [.many] := by
  induction cs with
  | nil => rfl
  | cons c rest ih =>
    obtain ⟨hc, hrest⟩ := List.forall_mem_cons.mp h
    simp only [List.mem_cons, not_or] at hc
    rw [List.map_cons, List.cons_append, List.cons_append, ← ih hrest]
    simp [pieces, hc]

private theorem covers_plain (cs t : List Char) :
    covers (cs.map Piece.exactly ++ [.many]) t = true ↔ cs <+: t := by
  induction cs generalizing t with
  | nil =>
    have hends : [] ∈ ends t := by
      induction t with
      | nil => exact List.mem_singleton_self _
      | cons d rest ih => exact List.mem_cons_of_mem _ ih
    simp only [List.map_nil, List.nil_append, covers, List.any_eq_true, List.isEmpty_iff,
      List.nil_prefix, iff_true]
    exact ⟨[], hends, rfl⟩
  | cons c rest ih =>
    cases t with
    | nil => simp [covers]
    | cons d t => simp [covers, ih, List.cons_prefix_cons]

/-- A plain text and a star match the texts that begin with the plain text. -/
theorem isMatch_star {p : String} (h : IsPlain p) (t : String) :
    isMatch (p ++ "*") t = true ↔ p.toList <+: t.toList := by
  have hstar : bytes (p ++ "*") = p.toList.flatMap code ++ ['*'] := by
    rw [bytes_eq_flatMap, String.toList_append, List.flatMap_append]
    rfl
  have hplain : ∀ b ∈ p.toList.flatMap code, b ∉ ['*', '?', '[', '\\'] := by
    intro b hb
    obtain ⟨c, hc, hbc⟩ := List.mem_flatMap.mp hb
    exact plain_of_mem_code (h c hc) hbc
  rw [isMatch, hstar, pieces_plain hplain, covers_plain, bytes_eq_flatMap, flatMap_code_prefix]

end DurableFlow.Text.Glob
