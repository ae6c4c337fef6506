import DurableFlow.Proofs.Binary64.WrittenDecimals
import DurableFlow.Proofs.Json.AlikeValues
import DurableFlow.Proofs.Json.WrittenStrings

/-! Canonical texts. A text without spaces says which value was written and where it ends, so that two
values with one canonical text are alike. -/
namespace DurableFlow.Json
open Binary64 (InFormat)

/-! ## Words and numbers -/

private def wordTexts : List (String × Json) :=
  [("null", .null), ("true", .bool true), ("false", .bool false), ("NaN", .double .nan),
    ("Infinity", .double (.infinite false)), ("-Infinity", .double (.infinite true))]

private theorem words_inj : ∀ x ∈ wordTexts, ∀ y ∈ wordTexts, x.1 = y.1 → x.2 = y.2 := by
  decide

private def isNumeric (c : Char) : Bool := c.isDigit || c ∈ ['.', 'e', '+', '-']

private theorem words_alphabetic : ∀ x ∈ wordTexts, ∃ c ∈ x.1.toList, isNumeric c = false := by
  simp [wordTexts, isNumeric]

private inductive IsAtom : Json → Prop
  | word {t : String} {v : Json} (h : (t, v) ∈ wordTexts) : IsAtom v
  | int (n : Int) : IsAtom (.int n)
  | finite (s : Bool) {m : Nat} {e : Int} (h : InFormat m e) : IsAtom (.double (.finite s m e))

private theorem text_word : ∀ x ∈ wordTexts, text .compact x.2 = x.1 := by
  decide

private theorem int_numeric (n : Int) : ∀ c ∈ (toString n).toList, isNumeric c = true := by
  intro c hc
  obtain hdigit | rfl := Text.digit_or_sign n c hc
  · simp [isNumeric, hdigit]
  · rfl

private theorem finite_chars (s : Bool) {m : Nat} {e : Int} (h : InFormat m e) :
    (∃ c ∈ (Binary64.text (.finite s m e)).toList, c = '.' ∨ c = 'e') ∧
      ∀ c ∈ (Binary64.text (.finite s m e)).toList, isNumeric c = true := by
  obtain ⟨v, hv, -⟩ := Binary64.isDecimal_magnitudeText h
  obtain ⟨c, rest, hrest, hc, ⟨d, hd, hmark⟩, hall⟩ := hv.chars
  have hnumeric : ∀ d ∈ (Binary64.magnitudeText m e).toList, isNumeric d = true := by
    rw [hrest]
    intro d hd
    rcases List.mem_cons.mp hd with rfl | hd
    · simp [isNumeric, hc]
    · simpa [isNumeric] using hall d hd
  have hmarked : d ∈ (Binary64.magnitudeText m e).toList := hrest ▸ List.mem_cons_of_mem _ hd
  rw [Binary64.text_finite]
  cases s with
  | false => exact ⟨⟨d, hmarked, hmark⟩, hnumeric⟩
  | true =>
    rw [if_pos rfl, String.toList_append]
    refine ⟨⟨d, List.mem_append_right _ hmarked, hmark⟩, ?_⟩
    intro k hk
    rcases List.mem_append.mp hk with hk | hk
    · cases List.mem_singleton.mp hk
      rfl
    · exact hnumeric k hk

private theorem finite_inj {s s' : Bool} {m m' : Nat} {e e' : Int} (h : InFormat m e)
    (h' : InFormat m' e')
    (ht : Binary64.text (.finite s m e) = Binary64.text (.finite s' m' e')) :
    Binary64.finite s m e = .finite s' m' e' := by
  have hhead {m : Nat} {e : Int} (h : InFormat m e) (t : String) :
      Binary64.magnitudeText m e ≠ "-" ++ t := by
    intro heq
    obtain ⟨v, hv, -⟩ := Binary64.isDecimal_magnitudeText h
    obtain ⟨c, rest, hrest, hc, -⟩ := hv.chars
    rw [heq, String.toList_append] at hrest
    cases hrest
    cases hc
  rw [Binary64.text_finite, Binary64.text_finite] at ht
  cases s <;> cases s' <;> simp only [Bool.false_eq_true, if_true, if_false] at ht
  · obtain ⟨rfl, rfl⟩ := Binary64.magnitudeText_inj h h' ht
    rfl
  · exact absurd ht (hhead h _)
  · exact absurd ht.symm (hhead h' _)
  · have hbody := congrArg String.toList ht
    rw [String.toList_append, String.toList_append, List.append_cancel_left_eq] at hbody
    obtain ⟨rfl, rfl⟩ := Binary64.magnitudeText_inj h h' (String.toList_inj.mp hbody)
    rfl

private theorem IsAtom.text_inj {v w : Json} (hv : IsAtom v) (hw : IsAtom w)
    (h : text .compact v = text .compact w) : v = w := by
  have hword {x : String × Json} (hx : x ∈ wordTexts) {t : String}
      (ht : ∀ c ∈ t.toList, isNumeric c = true) : text .compact x.2 ≠ t := by
    rintro rfl
    rw [text_word x hx] at ht
    obtain ⟨c, hc, hother⟩ := words_alphabetic x hx
    rw [ht c hc] at hother
    cases hother
  have hwhole {n : Int} {s : Bool} {m : Nat} {e : Int} (hm : InFormat m e) :
      toString n ≠ Binary64.text (.finite s m e) := by
    intro heq
    obtain ⟨⟨c, hc, hmark⟩, -⟩ := finite_chars s hm
    rw [← heq] at hc
    obtain hdigit | rfl := Text.digit_or_sign n c hc
    · obtain rfl | rfl := hmark <;> cases hdigit
    · obtain hmark | hmark := hmark <;> cases hmark
  cases hv with
  | word hx =>
    cases hw with
    | word hy =>
      have htext := h
      rw [text_word _ hx, text_word _ hy] at htext
      exact words_inj _ hx _ hy htext
    | int n => exact absurd h (hword hx (int_numeric n))
    | finite s hm => exact absurd h (hword hx (finite_chars s hm).2)
  | int n =>
    cases hw with
    | word hy => exact absurd h.symm (hword hy (int_numeric n))
    | int n' => exact congrArg Json.int (Text.toString_inj h)
    | finite s hm => exact absurd h (hwhole hm)
  | finite s hm =>
    cases hw with
    | word hy => exact absurd h.symm (hword hy (finite_chars s hm).2)
    | int n => exact absurd h.symm (hwhole hm)
    | finite s' hm' => exact congrArg Json.double (finite_inj hm hm' h)

/-! ## Where a text ends -/

private def EndsValue (r : List Char) : Prop := ∀ c ∈ r.head?, c ∈ [',', ']', '\x7d']

private def Opens (cs : List Char) : Prop := ∃ c rest, cs = c :: rest ∧ c ∉ [']', '\x7d']

private def isMark (c : Char) : Bool := c ∈ ['"', '[', '\x7b', ':', ',', ']', '\x7d']

private theorem IsAtom.chars {v : Json} (h : IsAtom v) :
    (text .compact v).toList ≠ [] ∧ ∀ c ∈ (text .compact v).toList, isMark c = false := by
  have hwords : ∀ x ∈ wordTexts, x.1.toList ≠ [] ∧ ∀ c ∈ x.1.toList, isMark c = false := by
    simp [wordTexts, isMark]
  have hmarks : ∀ c ∈ ['"', '[', '\x7b', ':', ',', ']', '\x7d'], isNumeric c = false := by
    simp [isNumeric]
  have hnumeric (c : Char) (hc : isNumeric c = true) : isMark c = false := by
    by_contra hmark
    have hmem := of_decide_eq_true (Bool.eq_true_of_not_eq_false hmark)
    rw [hmarks c hmem] at hc
    cases hc
  cases h with
  | word hx =>
    rw [text_word _ hx]
    exact hwords _ hx
  | int n =>
    refine ⟨?_, fun c hc => hnumeric c ?_⟩
    · exact Text.toList_toString_ne_nil n
    · exact int_numeric n c hc
  | finite s hm =>
    obtain ⟨⟨c, hc, -⟩, hall⟩ := finite_chars s hm
    exact ⟨List.ne_nil_of_mem hc, fun c hc => hnumeric c (hall c hc)⟩

private theorem append_inj_of_ends {cs ds r r' : List Char} (hc : ∀ c ∈ cs, isMark c = false)
    (hd : ∀ c ∈ ds, isMark c = false) (hr : EndsValue r) (hr' : EndsValue r') (h : cs ++ r = ds ++ r') :
    cs = ds ∧ r = r' := by
  have htake {cs r : List Char} (hc : ∀ c ∈ cs, isMark c = false) (hr : EndsValue r) :
      (cs ++ r).takeWhile (fun c => !isMark c) = cs := by
    have hends : ∀ c ∈ [',', ']', '\x7d'], isMark c = true := by simp [isMark]
    have hnone : r.takeWhile (fun c => !isMark c) = [] := by
      cases r with
      | nil => rfl
      | cons c rest =>
        have hmark := hends c (hr c rfl)
        simp [hmark]
    rw [List.takeWhile_append_of_pos (by simpa using hc), hnone, List.append_nil]
  have hsame : cs = ds := by rw [← htake hc hr, h, htake hd hr']
  exact ⟨hsame, List.append_cancel_left (hsame ▸ h)⟩

/-! ## Lists of items and of members -/

section Lists
variable {α : Type} {p : α → List Char}

private theorem intercalate_cons (x : α) (xs : List α) :
    [','].intercalate ((x :: xs).map p) = p x ++ xs.flatMap fun y => ',' :: p y := by
  induction xs generalizing x with
  | nil => simp
  | cons y rest ih =>
    have hcons : [','].intercalate ((x :: y :: rest).map p) =
        p x ++ ',' :: [','].intercalate ((y :: rest).map p) := by
      simp [List.intercalate]
    rw [hcons, ih]
    rfl

private theorem intercalate_append_inj {close : Char} (hclose : close = ']' ∨ close = '\x7d')
    {xs ys : List α} (hxs : ∀ x ∈ xs, Opens (p x)) (hys : ∀ y ∈ ys, Opens (p y))
    (hp : ∀ x ∈ xs, ∀ y ∈ ys, ∀ r r', EndsValue r → EndsValue r' → p x ++ r = p y ++ r' → x = y ∧ r = r')
    {r r' : List Char}
    (h : [','].intercalate (xs.map p) ++ close :: r = [','].intercalate (ys.map p) ++ close :: r') :
    xs = ys ∧ r = r' := by
  have hne : ',' ≠ close := by
    obtain rfl | rfl := hclose <;> decide
  have hopens {cs r r' : List Char} (ho : Opens cs) : cs ++ r ≠ close :: r' := by
    intro heq
    obtain ⟨c, rest, rfl, hc⟩ := ho
    cases heq
    obtain rfl | rfl := hclose <;> exact hc (by decide)
  have hends (zs : List α) (r : List Char) :
      EndsValue ((zs.flatMap fun y => ',' :: p y) ++ close :: r) := by
    intro c hc
    cases zs with
    | nil =>
      cases hc
      obtain rfl | rfl := hclose <;> decide
    | cons z zs =>
      cases hc
      decide
  have hrest (xs ys : List α)
      (hp : ∀ x ∈ xs, ∀ y ∈ ys, ∀ r r', EndsValue r → EndsValue r' → p x ++ r = p y ++ r' → x = y ∧ r = r')
      (h : (xs.flatMap fun y => ',' :: p y) ++ close :: r =
        (ys.flatMap fun y => ',' :: p y) ++ close :: r') : xs = ys ∧ r = r' := by
    induction xs generalizing ys with
    | nil =>
      cases ys with
      | nil => exact ⟨rfl, (List.cons.inj h).2⟩
      | cons y ys => exact absurd (List.cons.inj h).1.symm hne
    | cons x xs ih =>
      cases ys with
      | nil => exact absurd (List.cons.inj h).1 hne
      | cons y ys =>
        rw [List.flatMap_cons, List.flatMap_cons, List.append_assoc, List.append_assoc] at h
        obtain ⟨rfl, h'⟩ := hp x List.mem_cons_self y List.mem_cons_self _ _ (hends xs r) (hends ys r')
          (List.cons.inj h).2
        obtain ⟨rfl, hr⟩ := ih ys (fun x hx y hy => hp x (List.mem_cons_of_mem _ hx) y
          (List.mem_cons_of_mem _ hy)) h'
        exact ⟨rfl, hr⟩
  cases xs with
  | nil =>
    cases ys with
    | nil => exact ⟨rfl, (List.cons.inj h).2⟩
    | cons y ys =>
      rw [intercalate_cons, List.append_assoc] at h
      exact absurd h.symm (hopens (hys y List.mem_cons_self))
  | cons x xs =>
    cases ys with
    | nil =>
      rw [intercalate_cons, List.append_assoc] at h
      exact absurd h (hopens (hxs x List.mem_cons_self))
    | cons y ys =>
      rw [intercalate_cons, intercalate_cons, List.append_assoc, List.append_assoc] at h
      obtain ⟨rfl, h'⟩ := hp x List.mem_cons_self y List.mem_cons_self _ _ (hends xs r) (hends ys r') h
      obtain ⟨rfl, hr⟩ := hrest xs ys (fun x hx y hy => hp x (List.mem_cons_of_mem _ hx) y
        (List.mem_cons_of_mem _ hy)) h'
      exact ⟨rfl, hr⟩

end Lists

/-! ## Values -/

/-- What holds of a list or an object if it holds of what stands in it, and of all else, holds. -/
@[elab_as_elim]
theorem induct {P : Json → Prop} (atom : ∀ v, v.isKey = true → P v)
    (array : ∀ xs, (∀ x ∈ xs, P x) → P (.array xs))
    (object : ∀ ms, (∀ m ∈ ms, P m.2) → P (.object ms)) : ∀ v, P v
  | .array xs => array xs fun x _hx => induct atom array object x
  | .object ms => object ms fun m _hm => induct atom array object m.2
  | .null => atom _ rfl
  | .bool _ => atom _ rfl
  | .int _ => atom _ rfl
  | .double _ => atom _ rfl
  | .string _ => atom _ rfl
termination_by v => v
decreasing_by
  · have hlt := List.sizeOf_lt_of_mem _hx
    rw [Json.array.sizeOf_spec]
    omega
  · have hlt := List.sizeOf_lt_of_mem _hm
    have hpair : sizeOf m = 1 + sizeOf m.1 + sizeOf m.2 := by
      cases m
      rfl
    rw [Json.object.sizeOf_spec]
    omega

mutual
def InFormat : Json → Prop
  | .double (.finite _ m e) => Binary64.InFormat m e
  | .array items => InFormatItems items
  | .object members => InFormatMembers members
  | _ => True
def InFormatItems : List Json → Prop
  | [] => True
  | a :: rest => InFormat a ∧ InFormatItems rest
def InFormatMembers : List (String × Json) → Prop
  | [] => True
  | (_, a) :: rest => InFormat a ∧ InFormatMembers rest
end

theorem inFormatItems_iff {xs : List Json} : InFormatItems xs ↔ ∀ x ∈ xs, InFormat x := by
  induction xs with
  | nil => simp [InFormatItems]
  | cons x rest ih => rw [InFormatItems, ih, List.forall_mem_cons]

theorem inFormatMembers_iff {ms : List (String × Json)} :
    InFormatMembers ms ↔ ∀ m ∈ ms, InFormat m.2 := by
  induction ms with
  | nil => simp [InFormatMembers]
  | cons m rest ih => rw [InFormatMembers, ih, List.forall_mem_cons]

theorem toList_array (items : List Json) : (text .compact (.array items)).toList =
    '[' :: ([','].intercalate (items.map fun x => (text .compact x).toList) ++ [']']) := by
  have hitems : itemTexts .compact items = items.map (text .compact) := by
    induction items with
    | nil => rfl
    | cons x rest ih => rw [itemTexts, ih, List.map_cons]
  rw [text, hitems]
  simp [Separators.compact, Function.comp_def]

private def memberChars (m : String × Json) : List Char :=
  (stringText m.1).toList ++ ':' :: (text .compact m.2).toList

theorem toList_object (members : List (String × Json)) : (text .compact (.object members)).toList =
    '\x7b' :: ([','].intercalate (members.map memberChars) ++ ['\x7d']) := by
  have hmembers : memberTexts .compact members =
      members.map fun m => stringText m.1 ++ ":" ++ text .compact m.2 := by
    induction members with
    | nil => rfl
    | cons m rest ih => rw [memberTexts, ih, List.map_cons]; rfl
  rw [text, hmembers]
  simp [Separators.compact, Function.comp_def]
  rfl

private theorem kinds {v : Json} (h : v.InFormat) : IsAtom v ∨ (∃ s, v = .string s) ∨
    (∃ xs, v = .array xs ∧ ∀ x ∈ xs, x.InFormat) ∨ ∃ ms, v = .object ms ∧ ∀ m ∈ ms, m.2.InFormat := by
  cases v with
  | null => exact .inl (.word (t := "null") (by decide))
  | bool b =>
    cases b with
    | true => exact .inl (.word (t := "true") (by decide))
    | false => exact .inl (.word (t := "false") (by decide))
  | int n => exact .inl (.int n)
  | double d =>
    cases d with
    | finite s m e => exact .inl (.finite s h)
    | infinite s =>
      cases s with
      | true => exact .inl (.word (t := "-Infinity") (by decide))
      | false => exact .inl (.word (t := "Infinity") (by decide))
    | nan => exact .inl (.word (t := "NaN") (by decide))
  | string s => exact .inr (.inl ⟨s, rfl⟩)
  | array xs => exact .inr (.inr (.inl ⟨xs, rfl, inFormatItems_iff.mp h⟩))
  | object ms => exact .inr (.inr (.inr ⟨ms, rfl, inFormatMembers_iff.mp h⟩))

private def mark? : Json → Option Char
  | .string _ => some '"'
  | .array _ => some '['
  | .object _ => some '\x7b'
  | _ => none

private theorem IsAtom.mark? {v : Json} (h : IsAtom v) : Json.mark? v = none := by
  cases h with
  | word hx =>
    have hwords : ∀ x ∈ wordTexts, Json.mark? x.2 = none := by decide
    exact hwords _ hx
  | _ => rfl

private theorem head_text {v : Json} (h : v.InFormat) : ∃ c rest,
    (text .compact v).toList = c :: rest ∧ mark? v = if isMark c then some c else none := by
  obtain hatom | ⟨s, rfl⟩ | ⟨xs, rfl, -⟩ | ⟨ms, rfl, -⟩ := kinds h
  · obtain ⟨hne, hall⟩ := hatom.chars
    obtain ⟨c, rest, hc⟩ := List.exists_cons_of_ne_nil hne
    have hnone : isMark c = false := hall c (hc ▸ List.mem_cons_self)
    refine ⟨c, rest, hc, ?_⟩
    rw [hnone]
    exact hatom.mark?
  · exact ⟨_, _, toList_stringText s, rfl⟩
  · exact ⟨_, _, toList_array xs, rfl⟩
  · exact ⟨_, _, toList_object ms, rfl⟩

private theorem mark?_eq {v w : Json} (hv : v.InFormat) (hw : w.InFormat) {r r' : List Char}
    (h : (text .compact v).toList ++ r = (text .compact w).toList ++ r') : mark? v = mark? w := by
  obtain ⟨c, rest, hc, hcmark⟩ := head_text hv
  obtain ⟨d, rest', hd, hdmark⟩ := head_text hw
  rw [hc, hd] at h
  rw [hcmark, hdmark, (List.cons.inj h).1]

private theorem opens_text {v : Json} (h : v.InFormat) : Opens (text .compact v).toList := by
  obtain ⟨c, rest, hc, hmark⟩ := head_text h
  refine ⟨c, rest, hc, fun hclose => ?_⟩
  have hclosing : ∀ c ∈ [']', '\x7d'], isMark c = true ∧ ∀ v : Json, mark? v ≠ some c := by
    intro c hc
    simp only [List.mem_cons, List.not_mem_nil, or_false] at hc
    obtain rfl | rfl := hc
    all_goals
      refine ⟨by decide, fun v hv => ?_⟩
      cases v <;> simp [mark?] at hv
  obtain ⟨hc', hnone⟩ := hclosing c hclose
  rw [if_pos hc'] at hmark
  exact hnone v hmark

private theorem text_append_inj {v w : Json} (hv : v.InFormat) (hw : w.InFormat) {r r' : List Char}
    (hr : EndsValue r) (hr' : EndsValue r')
    (h : (text .compact v).toList ++ r = (text .compact w).toList ++ r') : v = w ∧ r = r' := by
  induction v using induct generalizing w r r' with
  | atom v hkey =>
    have hmark := mark?_eq hv hw h
    obtain hva | ⟨s, rfl⟩ | ⟨xs, rfl, -⟩ | ⟨ms, rfl, -⟩ := kinds hv
    · have hwa : IsAtom w := by
        rw [hva.mark?] at hmark
        obtain hwa | ⟨t, rfl⟩ | ⟨ys, rfl, -⟩ | ⟨ns, rfl, -⟩ := kinds hw
        · exact hwa
        all_goals cases hmark
      obtain ⟨htext, hrest⟩ := append_inj_of_ends hva.chars.2 hwa.chars.2 hr hr' h
      exact ⟨hva.text_inj hwa (String.toList_inj.mp htext), hrest⟩
    · cases w with
      | string t =>
        obtain ⟨rfl, hrest⟩ := stringText_append_inj h
        exact ⟨rfl, hrest⟩
      | _ => cases hmark
    · cases hkey
    · cases hkey
  | array xs ih =>
    have hmark := mark?_eq hv hw h
    cases w with
    | array ys =>
      have hxs := inFormatItems_iff.mp hv
      have hys := inFormatItems_iff.mp hw
      rw [toList_array, toList_array] at h
      simp only [List.cons_append, List.append_assoc, List.nil_append, List.cons.injEq, true_and] at h
      obtain ⟨rfl, hrest⟩ := intercalate_append_inj (.inl rfl) (fun x hx => opens_text (hxs x hx))
        (fun y hy => opens_text (hys y hy))
        (fun x hx y hy r r' hr hr' h => ih x hx (hxs x hx) (hys y hy) hr hr' h) h
      exact ⟨rfl, hrest⟩
    | _ => cases hmark
  | object ms ih =>
    have hmark := mark?_eq hv hw h
    cases w with
    | object ns =>
      have hms := inFormatMembers_iff.mp hv
      have hns := inFormatMembers_iff.mp hw
      rw [toList_object, toList_object] at h
      simp only [List.cons_append, List.append_assoc, List.nil_append, List.cons.injEq, true_and] at h
      have hopens (m : String × Json) : Opens (memberChars m) := by
        rw [memberChars, toList_stringText]
        exact ⟨_, _, rfl, by decide⟩
      have hmember : ∀ m ∈ ms, ∀ n ∈ ns, ∀ r r', EndsValue r → EndsValue r' →
          memberChars m ++ r = memberChars n ++ r' → m = n ∧ r = r' := by
        intro m hm n hn r r' hr hr' h
        rw [memberChars, memberChars, List.append_assoc, List.append_assoc] at h
        obtain ⟨hkey, h⟩ := stringText_append_inj h
        obtain ⟨hvalue, hrest⟩ := ih m hm (hms m hm) (hns n hn) hr hr' (List.cons.inj h).2
        exact ⟨Prod.ext hkey hvalue, hrest⟩
      obtain ⟨rfl, hrest⟩ := intercalate_append_inj (.inr rfl) (fun m _ => hopens m)
        (fun n _ => hopens n) hmember h
      exact ⟨rfl, hrest⟩
    | _ => cases hmark

/-! ## Canonical texts -/

/-- Two values with one text are the same. -/
theorem text_inj {v w : Json} (hv : v.InFormat) (hw : w.InFormat)
    (h : text .compact v = text .compact w) : v = w := by
  have hends : EndsValue [] := by
    intro c hc
    cases hc
  have hchars : (text .compact v).toList ++ [] = (text .compact w).toList ++ [] := by rw [h]
  exact (text_append_inj hv hw hends hends hchars).1

theorem inFormat_sorted {v : Json} (h : v.InFormat) : v.sorted.InFormat := by
  induction v using induct with
  | atom v hkey =>
    cases v with
    | array xs => cases hkey
    | object ms => cases hkey
    | _ => exact h
  | array xs ih =>
    rw [sorted, sortedItems_eq_map]
    refine inFormatItems_iff.mpr ?_
    intro x hx
    obtain ⟨y, hy, rfl⟩ := List.mem_map.mp hx
    exact ih y hy (inFormatItems_iff.mp h y hy)
  | object ms ih =>
    rw [sorted, sortedMembers_eq_map]
    refine inFormatMembers_iff.mpr ?_
    intro m hm
    obtain ⟨n, hn, rfl⟩ := List.mem_map.mp (List.mem_mergeSort.mp hm)
    exact ih n hn (inFormatMembers_iff.mp h n hn)

/-- Two values with one canonical text are alike. -/
theorem alike_of_canonical {v w : Json} (hv : v.InFormat) (hw : w.InFormat)
    (h : canonical v = canonical w) : Alike v w :=
  text_inj (inFormat_sorted hv) (inFormat_sorted hw) h

end DurableFlow.Json
