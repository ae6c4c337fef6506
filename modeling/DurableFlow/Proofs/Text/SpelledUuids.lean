import DurableFlow.Identifier
import DurableFlow.Proofs.Text.ErasedPatterns
import DurableFlow.Proofs.Text.HexNumerals

/-! Spelled UUIDs. A text spells a UUID if the digits of the UUID are left of it without prefixes, braces and
hyphens, and then it is read as that UUID. The text in which a UUID is printed spells that UUID and no other,
and so names it. -/
namespace DurableFlow
namespace Uuid

/-! ## The grammar -/

def isBrace (c : Char) : Bool := c = '\x7b' || c = '\x7d'

/-- The text spells the UUID: without the prefixes, without braces around what is left and without hyphens it
is a numeral of 32 characters. -/
inductive SpelledBy (u : Uuid) (s : String) : Prop
  | mk (bare body before mid after : List Char) (urn : Erased "urn:".toList s.toList bare)
      (uuid : Erased "uuid:".toList bare body) (text : body = before ++ mid ++ after)
      (opened : ∀ c ∈ before, isBrace c = true) (closed : ∀ c ∈ after, isBrace c = true)
      (length : (mid.filter (· ≠ '-')).length = 32)
      (numeral : Text.DenotesHex (String.ofList (mid.filter (· ≠ '-'))) u.value.val) : SpelledBy u s

/-- The usual ways of writing a UUID: its digits in either case, with hyphens anywhere or without any, perhaps
in braces or after a prefix. -/
inductive Written (u : Uuid) : List Char → Prop
  | digits {cs : List Char}
      (same : (cs.filter (· ≠ '-')).map Char.toLower = Text.hexText 32 u.value.val) : Written u cs
  | braced {cs : List Char} (inside : Written u cs) : Written u ('\x7b' :: (cs ++ ['\x7d']))
  | prefixed {cs : List Char} (inside : Written u cs) : Written u ("urn:uuid:".toList ++ cs)

/-- The text has groups of 8, 4, 4, 4 and 12 hexadecimal digits in lower case, with hyphens between them. -/
def Canonical (s : String) : Prop :=
  ∃ groups : List (List Char), s.toList = ['-'].intercalate groups ∧ groups.map List.length = [8, 4, 4, 4, 12] ∧
    ∀ group ∈ groups, ∀ c ∈ group, c ∈ "0123456789abcdef".toList

variable {u : Uuid} {s : String} {cs : List Char}

/-! ## Readings -/

private theorem closed_urn : ClosedByLast "urn:".toList := ⟨"urn".toList, ':', by decide, by decide⟩

private theorem closed_uuid : ClosedByLast "uuid:".toList := ⟨"uuid".toList, ':', by decide, by decide⟩

private theorem not_brace_of_denotesHex {n : Nat} (h : Text.DenotesHex (String.ofList cs) n) :
    ∀ c ∈ cs, isBrace c = false := by
  obtain ⟨negative, mark, body, ds, ⟨before, sign, after, text, start, signed, finish⟩, hmark, hbody, -⟩ := h
  rw [String.toList_ofList] at text
  have hof {p : Char → Prop} (hopen : ¬ p '\x7b') (hclose : ¬ p '\x7d') {c : Char} (hc : p c) :
      isBrace c = false := by
    rw [isBrace, Bool.or_eq_false_iff, decide_eq_false_iff_not, decide_eq_false_iff_not]
    constructor
    · rintro rfl
      exact hopen hc
    · rintro rfl
      exact hclose hc
  have hpad {c : Char} (hc : Text.isPad c = true) : isBrace c = false :=
    hof (p := fun c => Text.isPad c = true) (by decide) (by decide) hc
  have hnumeral : ∀ c ∈ mark ++ body, isBrace c = false :=
    Text.forall_mem_numeral hmark hbody
      (fun c d hd => hof (p := fun c => Text.digitValue? c ≠ none) (by decide) (by decide) (by simp [hd]))
      (List.all_iff_forall_prop.mp (by decide))
  have hsign : ∀ c ∈ sign, isBrace c = false := by
    cases signed with
    | none => exact fun c hc => (List.not_mem_nil hc).elim
    | plus => exact List.forall_mem_singleton.mpr (by decide)
    | minus => exact List.forall_mem_singleton.mpr (by decide)
  rw [text]
  simp only [List.forall_mem_append] at hnumeral ⊢
  exact ⟨⟨fun c hc => hpad (start c hc), hsign, hnumeral⟩, fun c hc => hpad (finish c hc)⟩

private theorem ofText?_iff : ofText? s = some u ↔
    (digitsOf s).length = 32 ∧ Text.DenotesHex (String.ofList (digitsOf s)) u.value.val := by
  rw [← Text.readHex_eq_some]
  unfold ofText?
  dsimp only
  rw [Option.ite_none_right_eq_some, Option.bind_eq_some_iff]
  refine and_congr_right fun _ => ⟨?_, fun hread => ⟨_, hread, dif_pos u.value.isLt⟩⟩
  rintro ⟨n, hread, hsome⟩
  split at hsome
  · cases hsome
    exact hread
  · cases hsome

/-- A text is read as a UUID just when it spells that UUID. -/
theorem ofText?_eq_some : ofText? s = some u ↔ u.SpelledBy s := by
  rw [ofText?_iff]
  constructor
  · rintro ⟨hlength, hnumeral⟩
    obtain ⟨before, after, htext, hopened, hclosed⟩ :=
      Text.exists_trimBy isBrace (removeAll "uuid:".toList (removeAll "urn:".toList s.toList))
    exact ⟨_, _, before, _, after, closed_urn.erased_iff.mpr rfl, closed_uuid.erased_iff.mpr rfl, htext,
      hopened, hclosed, hlength, hnumeral⟩
  · rintro ⟨bare, body, before, mid, after, urn, uuid, text, opened, closed, length, numeral⟩
    have hmid : ∀ c ∈ mid, isBrace c = false := by
      intro c hc
      by_cases hhyphen : c = '-'
      · rw [hhyphen]
        rfl
      · exact not_brace_of_denotesHex numeral c (List.mem_filter.mpr ⟨hc, by simpa using hhyphen⟩)
    have hdigits : digitsOf s = mid.filter (· ≠ '-') := by
      have htrim : Text.trimBy isBrace body = mid := text ▸ Text.trimBy_append opened hmid closed
      rw [← htrim, ← closed_uuid.erased_iff.mp uuid, ← closed_urn.erased_iff.mp urn]
      rfl
    rw [hdigits]
    exact ⟨length, numeral⟩

/-! ## Written UUIDs -/

private theorem digitsOf_ofList (cs : List Char) : digitsOf (String.ofList cs) =
    (Text.trimBy isBrace (removeAll "uuid:".toList (removeAll "urn:".toList cs))).filter (· ≠ '-') := by
  have hlist : (String.ofList cs).toList = cs := String.toList_ofList
  unfold digitsOf
  rw [hlist]
  rfl

private theorem trimBy_braced {drop : Char → Bool} {a b : Char} (ha : drop a = true) (hb : drop b = true)
    (cs : List Char) : Text.trimBy drop (a :: (cs ++ [b])) = Text.trimBy drop cs := by
  rw [Text.trimBy, List.dropWhile_cons_of_pos ha, List.dropWhile_append, Text.trimBy]
  split
  · rename_i hnone
    rw [List.isEmpty_iff.mp hnone, List.dropWhile_cons_of_pos hb]
    rfl
  · rw [List.reverse_append, List.reverse_singleton, List.singleton_append, List.dropWhile_cons_of_pos hb]

private theorem digitsOf_braced (cs : List Char) :
    digitsOf (String.ofList ('{' :: (cs ++ ['}']))) = digitsOf (String.ofList cs) := by
  have hremove {pattern : List Char} (hp : pattern ≠ []) (hopen : '{' ∉ pattern) (hclose : '}' ∉ pattern)
      (cs : List Char) :
      removeAll pattern ('{' :: (cs ++ ['}'])) = '{' :: (removeAll pattern cs ++ ['}']) := by
    rw [removeAll_cons, removeAll_concat hp hclose]
    rintro ⟨rest, hrest⟩
    obtain ⟨c, more, rfl⟩ := List.exists_cons_of_ne_nil hp
    obtain ⟨hc, -⟩ := List.cons.inj hrest
    exact hopen (hc ▸ List.mem_cons_self)
  rw [digitsOf_ofList, digitsOf_ofList, hremove (by decide) (by decide) (by decide),
    hremove (by decide) (by decide) (by decide), trimBy_braced (by decide) (by decide)]

private theorem digitsOf_prefixed (cs : List Char) :
    digitsOf (String.ofList ("urn:uuid:".toList ++ cs)) = digitsOf (String.ofList cs) := by
  have hsplit : "urn:uuid:".toList ++ cs = "urn:".toList ++ ("uuid:".toList ++ cs) := rfl
  -- no occurrence of the first prefix starts within the second
  have hkept (cs : List Char) :
      removeAll "urn:".toList ("uuid:".toList ++ cs) = "uuid:".toList ++ removeAll "urn:".toList cs := by
    have hcons (c : Char) (cs : List Char) (h : "urn:".toList.isPrefixOf (c :: cs) = false) :
        removeAll "urn:".toList (c :: cs) = c :: removeAll "urn:".toList cs :=
      removeAll_cons fun hbegins => Bool.noConfusion (h.symm.trans (List.isPrefixOf_iff_prefix.mpr hbegins))
    change removeAll "urn:".toList ('u' :: 'u' :: 'i' :: 'd' :: ':' :: cs) = _
    rw [hcons _ _ rfl, hcons _ _ rfl, hcons _ _ rfl, hcons _ _ rfl, hcons _ _ rfl]
    rfl
  rw [digitsOf_ofList, digitsOf_ofList, hsplit, removeAll_append (by decide), hkept,
    removeAll_append (by decide)]

private theorem Written.digitsOf (h : u.Written cs) :
    (digitsOf (String.ofList cs)).map Char.toLower = Text.hexText 32 u.value.val := by
  induction h with
  | @digits cs same =>
    have hother {x : Char} (hhyphen : x ≠ '-') (hx : ∀ d < 16, Text.hexDigit d ≠ x.toLower) : x ∉ cs := by
      intro hmem
      have hlower : x.toLower ∈ Text.hexText 32 u.value.val :=
        same ▸ List.mem_map_of_mem (List.mem_filter.mpr ⟨hmem, by simpa using hhyphen⟩)
      obtain ⟨ds, htext, -, hsmall, -⟩ := Text.hexText_eq 32 u.value.val
      obtain ⟨d, hd, heq⟩ := List.mem_map.mp (htext ▸ hlower)
      exact hx d (hsmall d hd) heq
    have hclean {pattern : List Char} (hu : 'u' ∈ pattern) : ¬ pattern <:+: cs := fun h =>
      hother (by decide) (by decide) (h.subset hu)
    have hbrace : ∀ c ∈ cs, isBrace c = false := by
      intro c hc
      rw [isBrace, Bool.or_eq_false_iff, decide_eq_false_iff_not, decide_eq_false_iff_not]
      constructor
      · rintro rfl
        exact hother (by decide) (by decide) hc
      · rintro rfl
        exact hother (by decide) (by decide) hc
    have htrim : Text.trimBy isBrace cs = cs := by
      have hnone : ∀ c ∈ ([] : List Char), isBrace c = true := fun c hc => (List.not_mem_nil hc).elim
      have hends := Text.trimBy_append hnone hbrace hnone
      rwa [List.nil_append, List.append_nil] at hends
    have hurn : removeAll "urn:".toList cs = cs := removeAll_of_clean (hclean (by decide))
    have huuid : removeAll "uuid:".toList cs = cs := removeAll_of_clean (hclean (by decide))
    rw [digitsOf_ofList, hurn, huuid, htrim, same]
  | braced inside ih => rw [digitsOf_braced, ih]
  | prefixed inside ih => rw [digitsOf_prefixed, ih]

/-- However a UUID is written, the text spells it. -/
theorem Written.spelledBy (h : u.Written cs) : u.SpelledBy (String.ofList cs) := by
  have hlength : (Uuid.digitsOf (String.ofList cs)).length = 32 := by
    rw [← List.length_map Char.toLower, h.digitsOf, Text.length_hexText]
  exact ofText?_eq_some.mp (ofText?_iff.mpr
    ⟨hlength, Text.denotesHex_of_toLower (by decide) u.value.isLt h.digitsOf⟩)

/-! ## Printed texts -/

private theorem hexDigit_printed : ∀ d < 16, Text.hexDigit d ∈ "0123456789abcdef".toList ∧
    Text.hexDigit d ≠ '-' ∧ (Text.hexDigit d).toLower = Text.hexDigit d := by decide

private theorem exists_groups (u : Uuid) : ∃ groups : List (List Char),
    u.text.toList = ['-'].intercalate groups ∧ groups.map List.length = [8, 4, 4, 4, 12] ∧
      groups.flatten = Text.hexText 32 u.value.val := by
  have hlength := Text.length_hexText 32 u.value.val
  generalize hdigits : Text.hexText 32 u.value.val = digits at hlength
  refine ⟨[(digits.drop 0).take 8, (digits.drop 8).take 4, (digits.drop 12).take 4, (digits.drop 16).take 4,
    (digits.drop 20).take 12], ?_, by simp [hlength], ?_⟩
  · simp [text, hdigits, List.intercalate]
  · have hgroup (skip count : Nat) :
        (digits.drop skip).take count ++ digits.drop (skip + count) = digits.drop skip := by
      rw [← List.drop_drop, List.take_append_drop]
    have hlast : (digits.drop 20).take 12 = digits.drop 20 := List.take_of_length_le (by simp [hlength])
    simp only [List.flatten_cons, List.flatten_nil, List.append_nil]
    rw [hlast, hgroup 16 4, hgroup 12 4, hgroup 8 4, hgroup 0 8]
    rfl

private theorem mem_hexText {width n : Nat} {c : Char} (h : c ∈ Text.hexText width n) :
    c ∈ "0123456789abcdef".toList ∧ c ≠ '-' ∧ c.toLower = c := by
  obtain ⟨ds, htext, -, hsmall, -⟩ := Text.hexText_eq width n
  obtain ⟨d, hd, rfl⟩ := List.mem_map.mp (htext ▸ h)
  exact hexDigit_printed d (hsmall d hd)

/-- UUIDs are printed in lower case, in groups. -/
theorem canonical_text (u : Uuid) : Canonical u.text := by
  obtain ⟨groups, htext, hlengths, hdigits⟩ := u.exists_groups
  refine ⟨groups, htext, hlengths, fun group hgroup c hc => ?_⟩
  exact (mem_hexText (hdigits ▸ List.mem_flatten.mpr ⟨group, hgroup, hc⟩)).1

/-- The printed text is one of the ways of writing a UUID. -/
theorem written_text (u : Uuid) : u.Written u.text.toList := by
  obtain ⟨groups, htext, -, hdigits⟩ := u.exists_groups
  have hfilter : ∀ groups : List (List Char),
      (['-'].intercalate groups).filter (· ≠ '-') = groups.flatten.filter (· ≠ '-') := by
    intro groups
    induction groups with
    | nil => rfl
    | cons group rest ih =>
      cases rest with
      | nil => simp [List.intercalate]
      | cons next more =>
        rw [List.intercalate_cons_cons, List.filter_append, ih, List.flatten_cons, List.filter_append,
          List.filter_append]
        simp
  have hplain : ∀ c ∈ Text.hexText 32 u.value.val, c ≠ '-' ∧ c.toLower = c := fun c hc => (mem_hexText hc).2
  refine .digits ?_
  rw [htext, hfilter, hdigits, List.filter_eq_self.mpr fun c hc => decide_eq_true (hplain c hc).1,
    List.map_congr_left fun c hc => (hplain c hc).2]
  exact List.map_id _

/-- The printed text of a UUID spells it. -/
theorem ofText?_text (u : Uuid) : ofText? u.text = some u := by
  have hspelled := u.written_text.spelledBy
  rw [String.ofList_toList] at hspelled
  exact ofText?_eq_some.mpr hspelled

/-- UUIDs are printed apart. -/
theorem text_inj {u v : Uuid} (h : u.text = v.text) : u = v := by
  have hread := u.ofText?_text
  rw [h, v.ofText?_text] at hread
  exact (Option.some.inj hread).symm

end Uuid

/-- The printed text of a UUID names the flow of that UUID. -/
theorem Identifier.split?_text (u : Uuid) : split? (.value (.string u.text)) = some (.uuid u.text) := by
  rw [split?, Uuid.ofText?_text]

end DurableFlow
