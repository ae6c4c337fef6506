import Mathlib.Data.List.TakeWhile
import DurableFlow.Text.Numeral

/-! Numerals as a grammar of texts, and the readers of numerals against it: a text is read as an integer
just when it is one by the grammar, and as the same one. -/
namespace DurableFlow.Text

/-! ## The grammar -/

/-- Whether a character may stand around a numeral: the blanks of ASCII, and all blanks beyond it. -/
def isPad (c : Char) : Bool := isAsciiBlank c || (decide (128 ≤ c.toNat) && isBlank c)

inductive Sign : List Char → Bool → Prop
  | none : Sign [] false
  | plus : Sign ['+'] false
  | minus : Sign ['-'] true

inductive Spells (s : String) (negative : Bool) (body : List Char) : Prop
  | mk (before sign after : List Char) (text : s.toList = before ++ (sign ++ body) ++ after)
      (start : ∀ c ∈ before, isPad c = true) (signed : Sign sign negative)
      (finish : ∀ c ∈ after, isPad c = true) : Spells s negative body

/-- Digits of any script, with single underscores between some of them, and their values. -/
inductive Grouped : List Char → List Nat → Prop
  | one {c : Char} {d : Nat} (digit : digitValue? c = some d) : Grouped [c] [d]
  | next {c : Char} {d : Nat} {cs : List Char} {ds : List Nat} (digit : digitValue? c = some d)
      (rest : Grouped cs ds) : Grouped (c :: cs) (d :: ds)
  | apart {c : Char} {d : Nat} {cs : List Char} {ds : List Nat} (digit : digitValue? c = some d)
      (rest : Grouped cs ds) : Grouped (c :: '_' :: cs) (d :: ds)

def signedValue (negative : Bool) (n : Nat) : Int := if negative then -(n : Int) else n

def DenotesInteger (s : String) (n : Int) : Prop :=
  ∃ negative body ds, Spells s negative body ∧ Grouped body ds ∧ ds.length ≤ longestInteger ∧
    n = signedValue negative (digitsValue 10 ds)

/-! ## Characters -/

def plain (c : Char) : Char :=
  if c.toNat < 128 then c
  else if isBlank c then ' '
  else match digitValue? c with
    | some d => Char.ofNat (48 + d)
    | none => '?'

theorem plainNumeral_eq (cs : List Char) : plainNumeral cs = cs.map plain := by
  unfold plainNumeral
  split
  · rename_i h
    have hsame : ∀ c ∈ cs, plain c = id c := by
      intro c hc
      have hc := List.all_eq_true.mp h c hc
      exact if_pos (of_decide_eq_true hc)
    rw [List.map_congr_left hsame, List.map_id]
  · rfl

def asciiDigit (d : Nat) : Char := Char.ofNat (48 + d)

/-- A digit of a script beyond ASCII stands beyond ASCII, and no digit is a blank. -/
theorem digitValue?_eq_some {c : Char} {d : Nat} (h : digitValue? c = some d) :
    d < 10 ∧ isBlank c = false ∧ (c.toNat < 128 → c.toNat = 48 + d) := by
  have hlist : ∀ first ∈ digitZeros, (blankRanges.all fun range =>
      decide (range.2 < first) || decide (first + 10 ≤ range.1)) = true ∧ (first = 48 ∨ 128 ≤ first) := by
    decide
  obtain ⟨first, hfind, rfl⟩ := Option.map_eq_some_iff.mp h
  have hrange := List.find?_some hfind
  obtain ⟨hblank, hascii⟩ := hlist first (List.mem_of_find?_eq_some hfind)
  simp only [Bool.and_eq_true, decide_eq_true_eq] at hrange
  refine ⟨by omega, ?_, fun hsmall => by omega⟩
  rw [isBlank, inRanges, List.any_eq_false]
  rintro ⟨low, high⟩ hmem
  have hapart := List.all_eq_true.mp hblank _ hmem
  simp only [Bool.or_eq_true, decide_eq_true_eq, Bool.and_eq_true] at hapart ⊢
  omega

private theorem digitValue?_ascii_range {c : Char} (h : 48 ≤ c.toNat) (h' : c.toNat < 58) :
    digitValue? c = some (c.toNat - 48) := by
  unfold digitValue? digitZeros
  rw [List.find?_cons_of_pos (by simp; omega)]
  rfl

theorem toNat_asciiDigit {d : Nat} (h : d < 10) : (asciiDigit d).toNat = 48 + d := by
  have hall : ∀ d < 10, (asciiDigit d).toNat = 48 + d := by decide
  exact hall d h

theorem asciiDigit_sub {c : Char} {d : Nat} (h : c.toNat = 48 + d) : c = asciiDigit d := by
  rw [asciiDigit, ← h, Char.ofNat_toNat]

private theorem plain_cases (c : Char) : (c.toNat < 128 ∧ plain c = c) ∨
    128 ≤ c.toNat ∧ ((isBlank c = true ∧ plain c = ' ') ∨
      (isBlank c = false ∧ ((∃ d, digitValue? c = some d ∧ plain c = asciiDigit d) ∨
        digitValue? c = none ∧ plain c = '?'))) := by
  unfold plain asciiDigit
  by_cases hsmall : c.toNat < 128
  · exact .inl ⟨hsmall, if_pos hsmall⟩
  · refine .inr ⟨by omega, ?_⟩
    rw [if_neg hsmall]
    cases hblank : isBlank c with
    | true => exact .inl ⟨rfl, rfl⟩
    | false =>
      refine .inr ⟨rfl, ?_⟩
      cases hdigit : digitValue? c with
      | some d => exact .inl ⟨d, rfl, rfl⟩
      | none => exact .inr ⟨rfl, rfl⟩

theorem digitValue?_iff {c : Char} {d : Nat} : digitValue? c = some d ↔ d < 10 ∧ plain c = asciiDigit d := by
  constructor
  · intro h
    obtain ⟨hd, hblank, hascii⟩ := digitValue?_eq_some h
    refine ⟨hd, ?_⟩
    obtain ⟨hsmall, hplain⟩ | ⟨-, ⟨htrue, -⟩ | ⟨-, ⟨d', hd', hplain⟩ | ⟨hnone, -⟩⟩⟩ := plain_cases c
    · rw [hplain]
      exact asciiDigit_sub (hascii hsmall)
    · cases hblank.symm.trans htrue
    · cases h.symm.trans hd'
      exact hplain
    · cases h.symm.trans hnone
  · rintro ⟨hd, hdigit⟩
    have hnat := toNat_asciiDigit hd
    obtain ⟨-, hplain⟩ | ⟨-, ⟨-, hplain⟩ | ⟨-, ⟨d', hd', hplain⟩ | ⟨-, hplain⟩⟩⟩ := plain_cases c
    · rw [hplain] at hdigit
      rw [← hdigit] at hnat
      rw [digitValue?_ascii_range (by omega) (by omega), hnat]
      congr 1
      omega
    · rw [← hdigit, hplain] at hnat
      have h32 : (' ').toNat = 32 := rfl
      omega
    · have hnat' := toNat_asciiDigit (digitValue?_eq_some hd').1
      rw [← hplain, hdigit, hnat] at hnat'
      obtain rfl : d = d' := by omega
      exact hd'
    · rw [← hdigit, hplain] at hnat
      have h63 : ('?').toNat = 63 := rfl
      omega

/-- A mark of ASCII that is neither a digit nor made from other characters stands for itself alone. -/
theorem plain_eq_iff {c x : Char} (hsmall : x.toNat < 128) (hspace : x ≠ ' ') (hmark : x ≠ '?')
    (hdigit : ∀ d < 10, x ≠ asciiDigit d) : plain c = x ↔ c = x := by
  constructor
  · intro h
    obtain ⟨-, hplain⟩ | ⟨-, ⟨-, hplain⟩ | ⟨-, ⟨d, hd, hplain⟩ | ⟨-, hplain⟩⟩⟩ := plain_cases c
    · exact hplain.symm.trans h
    · exact absurd (h.symm.trans hplain) hspace
    · exact absurd (h.symm.trans hplain) (hdigit d (digitValue?_eq_some hd).1)
    · exact absurd (h.symm.trans hplain) hmark
  · rintro rfl
    exact if_pos hsmall

theorem isAsciiBlank_plain (c : Char) : isAsciiBlank (plain c) = isPad c := by
  have hhigh (h : 128 ≤ c.toNat) : isAsciiBlank c = false := by
    have hspace : c ≠ ' ' := by
      rintro rfl
      exact absurd h (by decide)
    simp [isAsciiBlank, hspace]
    omega
  unfold isPad
  obtain ⟨hsmall, hplain⟩ | ⟨hlarge, ⟨hblank, hplain⟩ | ⟨hblank, ⟨d, hd, hplain⟩ | ⟨-, hplain⟩⟩⟩ :=
    plain_cases c
  · rw [hplain, decide_eq_false (by omega), Bool.false_and, Bool.or_false]
  · rw [hplain, hhigh hlarge, hblank, decide_eq_true hlarge]
    rfl
  · have hnat := toNat_asciiDigit (digitValue?_eq_some hd).1
    have hspace : asciiDigit d ≠ ' ' := by
      intro h
      rw [h] at hnat
      have h32 : (' ').toNat = 32 := rfl
      omega
    rw [hplain, hhigh hlarge, hblank]
    simp [isAsciiBlank, hspace]
    omega
  · rw [hplain, hhigh hlarge, hblank, Bool.and_false]
    rfl

theorem hexValue?_iff {c : Char} {d : Nat} :
    (hexValue? c = some d ∧ d < 10) ↔ d < 10 ∧ c = asciiDigit d := by
  constructor
  · rintro ⟨h, hd⟩
    refine ⟨hd, asciiDigit_sub ?_⟩
    unfold hexValue? at h
    simp only [Char.le_def, UInt32.le_iff_toNat_le] at h
    change (if 48 ≤ c.toNat ∧ c.toNat ≤ 57 then _ else if 97 ≤ c.toNat ∧ c.toNat ≤ 102 then _ else
      if 65 ≤ c.toNat ∧ c.toNat ≤ 70 then _ else _) = _ at h
    split at h
    · cases h
      omega
    · split at h
      · cases h
        omega
      · split at h
        · cases h
          omega
        · cases h
  · rintro ⟨hd, rfl⟩
    have hall : ∀ d < 10, hexValue? (asciiDigit d) = some d := by decide
    exact ⟨hall d hd, hd⟩

theorem isDigit_iff {c : Char} : c.isDigit = true ↔ ∃ d < 10, c = asciiDigit d := by
  constructor
  · intro h
    have hrange : 48 ≤ c.toNat ∧ c.toNat ≤ 57 := by
      simpa [Char.isDigit, UInt32.le_iff_toNat_le] using h
    exact ⟨c.toNat - 48, by omega, asciiDigit_sub (by omega)⟩
  · rintro ⟨d, hd, rfl⟩
    have hall : ∀ d < 10, (asciiDigit d).isDigit = true := by decide
    exact hall d hd

/-! ## Blanks and signs -/

/-- Trimming takes the blanks off both ends, and nothing else. -/
theorem trimBy_append {drop : Char → Bool} {before mid after : List Char}
    (hbefore : ∀ c ∈ before, drop c = true) (hmid : ∀ c ∈ mid, drop c = false)
    (hafter : ∀ c ∈ after, drop c = true) : trimBy drop (before ++ mid ++ after) = mid := by
  have hkept {cs more : List Char} (hcs : ∀ c ∈ cs, drop c = false) (hmore : ∀ c ∈ more, drop c = true) :
      (cs ++ more).dropWhile drop = if cs = [] then [] else cs ++ more := by
    cases cs with
    | nil => simpa using List.dropWhile_eq_nil_iff.mpr hmore
    | cons c cs => simp [hcs c List.mem_cons_self]
  rw [trimBy, List.append_assoc, List.dropWhile_append_of_pos hbefore, hkept hmid hafter]
  split
  · rename_i hnil
    rw [hnil]
    rfl
  · rename_i hsome
    rw [List.reverse_append, List.dropWhile_append_of_pos (by simpa using hafter)]
    have hrest : (mid.reverse ++ []).dropWhile drop = if mid.reverse = [] then [] else mid.reverse ++ [] :=
      hkept (by simpa using hmid) (by simp)
    rw [List.append_nil, if_neg (by simpa using hsome)] at hrest
    rw [hrest, List.reverse_reverse]

theorem exists_trimBy (drop : Char → Bool) (cs : List Char) : ∃ before after,
    cs = before ++ trimBy drop cs ++ after ∧ (∀ c ∈ before, drop c = true) ∧
      ∀ c ∈ after, drop c = true := by
  refine ⟨cs.takeWhile drop, ((cs.dropWhile drop).reverse.takeWhile drop).reverse, ?_, ?_, ?_⟩
  · rw [trimBy, List.append_assoc, ← List.reverse_append, List.takeWhile_append_dropWhile,
      List.reverse_reverse, List.takeWhile_append_dropWhile]
  · exact fun c hc => List.mem_takeWhile_imp hc
  · exact fun c hc => List.mem_takeWhile_imp (List.mem_reverse.mp hc)

/-- The body of a numeral stands for the text without the blanks around it. -/
theorem numeralBody_eq (s : String) : numeralBody s = (trimBy isPad s.toList).map plain := by
  have hcomp : isAsciiBlank ∘ plain = isPad := funext isAsciiBlank_plain
  rw [numeralBody, plainNumeral_eq, trimBy, trimBy, List.dropWhile_map, ← List.map_reverse,
    List.dropWhile_map, List.map_reverse, hcomp]

theorem Sign.not_pad {sign : List Char} {negative : Bool} (h : Sign sign negative) :
    ∀ c ∈ sign, isPad c = false := by
  cases h with
  | none => simp
  | plus => simp [show isPad '+' = false by decide]
  | minus => simp [show isPad '-' = false by decide]

/-- A text spells a body just when the text without blanks around it is a sign and the body. -/
theorem spells_iff {s : String} {negative : Bool} {body : List Char} (h : ∀ c ∈ body, isPad c = false) :
    Spells s negative body ↔ ∃ sign, Sign sign negative ∧ trimBy isPad s.toList = sign ++ body := by
  constructor
  · rintro ⟨before, sign, after, text, start, signed, finish⟩
    refine ⟨sign, signed, ?_⟩
    rw [text, trimBy_append start (List.forall_mem_append.mpr ⟨signed.not_pad, h⟩) finish]
  · rintro ⟨sign, signed, htrim⟩
    obtain ⟨before, after, htext, start, finish⟩ := exists_trimBy isPad s.toList
    rw [htrim] at htext
    exact ⟨before, sign, after, htext, start, signed, finish⟩

def StartsSigned (cs : List Char) : Prop := cs.head? = some '-' ∨ cs.head? = some '+'

/-- A text is split into its sign and what comes after it, which a numeral does not start with a sign. -/
theorem splitSign_eq {cs rest : List Char} {negative : Bool} :
    splitSign cs = (negative, rest) → ∃ sign, Sign sign negative ∧ cs = sign ++ rest := by
  unfold splitSign
  split
  · rintro ⟨⟩
    exact ⟨_, .minus, rfl⟩
  · rintro ⟨⟩
    exact ⟨_, .plus, rfl⟩
  · rintro ⟨⟩
    exact ⟨_, .none, rfl⟩

theorem splitSign_append {sign rest : List Char} {negative : Bool} (h : Sign sign negative)
    (hrest : ¬ StartsSigned rest) : splitSign (sign ++ rest) = (negative, rest) := by
  cases h with
  | minus => rfl
  | plus => rfl
  | none =>
    rw [List.nil_append]
    unfold splitSign
    split
    · exact absurd (.inl rfl) hrest
    · exact absurd (.inr rfl) hrest
    · rfl

theorem plain_minus {c : Char} : plain c = '-' ↔ c = '-' :=
  plain_eq_iff (by decide) (by decide) (by decide) (by decide)

theorem plain_plus {c : Char} : plain c = '+' ↔ c = '+' :=
  plain_eq_iff (by decide) (by decide) (by decide) (by decide)

theorem plain_underscore {c : Char} : plain c = '_' ↔ c = '_' :=
  plain_eq_iff (by decide) (by decide) (by decide) (by decide)

/-! ## Groups of digits -/

/-- Characters that count as digits, with single underscores between some of them, and their values. -/
inductive GroupedBy (digit : Char → Nat → Prop) : List Char → List Nat → Prop
  | one {c : Char} {d : Nat} (value : digit c d) : GroupedBy digit [c] [d]
  | next {c : Char} {d : Nat} {cs : List Char} {ds : List Nat} (value : digit c d)
      (rest : GroupedBy digit cs ds) : GroupedBy digit (c :: cs) (d :: ds)
  | apart {c : Char} {d : Nat} {cs : List Char} {ds : List Nat} (value : digit c d)
      (rest : GroupedBy digit cs ds) : GroupedBy digit (c :: '_' :: cs) (d :: ds)

/-- Groups of digits start with a digit. -/
theorem GroupedBy.exists_cons {digit : Char → Nat → Prop} {cs : List Char} {ds : List Nat}
    (h : GroupedBy digit cs ds) : ∃ c rest d, cs = c :: rest ∧ digit c d := by
  cases h with
  | one value => exact ⟨_, _, _, rfl, value⟩
  | next value rest => exact ⟨_, _, _, rfl, value⟩
  | apart value rest => exact ⟨_, _, _, rfl, value⟩

/-- What holds of digits and of underscores holds of all characters of a group. -/
theorem GroupedBy.forall_mem {digit : Char → Nat → Prop} {p : Char → Prop} {cs : List Char} {ds : List Nat}
    (h : GroupedBy digit cs ds) (hdigit : ∀ c d, digit c d → p c) (hmark : p '_') : ∀ c ∈ cs, p c := by
  induction h with
  | one value => simpa using hdigit _ _ value
  | next value rest ih => simpa using ⟨hdigit _ _ value, ih⟩
  | apart value rest ih => simpa using ⟨hdigit _ _ value, hmark, ih⟩

/-- Digits are read in groups just as the grammar groups them. -/
theorem groupedDigits_eq_some_by {base : Nat} {digit : Char → Nat → Prop}
    (hdigit : ∀ {c d}, digit c d ↔ hexValue? (plain c) = some d ∧ d < base) {cs : List Char} {ds : List Nat} :
    groupedDigits base (cs.map plain) = some ds ↔ GroupedBy digit cs ds := by
  have hread (c : Char) (more : Option (List Nat)) (ds : List Nat) :
      (do let d ← hexValue? (plain c); if d < base then more.map (d :: ·) else none) = some ds ↔
        ∃ d rest, digit c d ∧ more = some rest ∧ ds = d :: rest := by
    simp only [hdigit, Option.bind_eq_bind, Option.bind_eq_some_iff, Option.ite_none_right_eq_some,
      Option.map_eq_some_iff]
    constructor
    · rintro ⟨d, hd, hsmall, rest, hrest, rfl⟩
      exact ⟨d, rest, ⟨hd, hsmall⟩, hrest, rfl⟩
    · rintro ⟨d, rest, ⟨hd, hsmall⟩, hrest, rfl⟩
      exact ⟨d, hd, hsmall, rest, hrest, rfl⟩
  induction cs using groupedDigits.induct generalizing ds with
  | case1 =>
    constructor
    · intro h
      cases h
    · intro h
      cases h
  | case2 c =>
    have hone : groupedDigits base ([c].map plain) = some ds ↔ ∃ d rest, digit c d ∧
        some [] = some rest ∧ ds = d :: rest := by
      rw [← hread]
      rfl
    rw [hone]
    constructor
    · rintro ⟨d, rest, hd, hrest, rfl⟩
      cases hrest
      exact .one hd
    · intro h
      cases h with
      | one value => exact ⟨_, [], value, rfl, rfl⟩
      | next value rest => cases rest
  | case3 c cs ih =>
    have hapart : groupedDigits base ((c :: '_' :: cs).map plain) = some ds ↔ ∃ d rest,
        digit c d ∧ groupedDigits base (cs.map plain) = some rest ∧ ds = d :: rest := by
      rw [← hread]
      rfl
    rw [hapart]
    constructor
    · rintro ⟨d, rest, hd, hrest, rfl⟩
      exact .apart hd (ih.mp hrest)
    · intro h
      cases h with
      | apart value rest => exact ⟨_, _, value, ih.mpr rest, rfl⟩
      | next value rest =>
        -- an underscore is no digit
        obtain ⟨_, _, d, hcs, hd⟩ := rest.exists_cons
        cases hcs
        cases (hdigit.mp hd).1
  | case4 c cs hnil hmark ih =>
    have hnext : groupedDigits base ((c :: cs).map plain) = some ds ↔ ∃ d rest,
        digit c d ∧ groupedDigits base (cs.map plain) = some rest ∧ ds = d :: rest := by
      rw [← hread, List.map_cons, groupedDigits]
      · exact fun h => hnil (List.map_eq_nil_iff.mp h)
      · intro more h
        obtain ⟨c', more', rfl, hc, -⟩ := List.map_eq_cons_iff.mp h
        rw [plain_underscore] at hc
        exact hmark more' (hc ▸ rfl)
    rw [hnext]
    constructor
    · rintro ⟨d, rest, hd, hrest, rfl⟩
      exact .next hd (ih.mp hrest)
    · intro h
      cases h with
      | one value => exact absurd rfl hnil
      | next value rest => exact ⟨_, _, value, ih.mpr rest, rfl⟩
      | apart value rest => exact absurd rfl (hmark _)

/-! ## Integers -/

/-- Groups of decimal digits are groups of digits. -/
theorem grouped_iff {cs : List Char} {ds : List Nat} :
    Grouped cs ds ↔ GroupedBy (fun c d => digitValue? c = some d) cs ds := by
  constructor
  · intro h
    induction h with
    | one digit => exact .one digit
    | next digit rest ih => exact .next digit ih
    | apart digit rest ih => exact .apart digit ih
  · intro h
    induction h with
    | one value => exact .one value
    | next value rest ih => exact .next value ih
    | apart value rest ih => exact .apart value ih

theorem Grouped.exists_cons {cs : List Char} {ds : List Nat} (h : Grouped cs ds) :
    ∃ c rest d, cs = c :: rest ∧ digitValue? c = some d := (grouped_iff.mp h).exists_cons

theorem groupedDigits_eq_some {cs : List Char} {ds : List Nat} :
    groupedDigits 10 (cs.map plain) = some ds ↔ Grouped cs ds := by
  rw [grouped_iff]
  exact groupedDigits_eq_some_by fun {c d} => digitValue?_iff.trans hexValue?_iff.symm

theorem isPad_of_digit {c : Char} {d : Nat} (h : digitValue? c = some d) : isPad c = false := by
  obtain ⟨hd, hplain⟩ := digitValue?_iff.mp h
  have hall : ∀ d < 10, isAsciiBlank (asciiDigit d) = false := by decide
  rw [← isAsciiBlank_plain, hplain, hall d hd]

theorem Grouped.not_pad {cs : List Char} {ds : List Nat} (h : Grouped cs ds) :
    ∀ c ∈ cs, isPad c = false :=
  (grouped_iff.mp h).forall_mem (fun _ _ => isPad_of_digit) rfl

/-- Digits do not start with a sign. -/
theorem Grouped.not_signed {cs : List Char} {ds : List Nat} (h : Grouped cs ds) :
    ¬ StartsSigned (cs.map plain) := by
  obtain ⟨c, rest, d, rfl, hd⟩ := h.exists_cons
  obtain ⟨hten, hplain⟩ := digitValue?_iff.mp hd
  have hall : ∀ d < 10, asciiDigit d ≠ '-' ∧ asciiDigit d ≠ '+' := by decide
  rw [StartsSigned, List.map_cons, List.head?_cons, hplain, Option.some.injEq, Option.some.injEq]
  exact not_or.mpr (hall d hten)

/-- Signs stand for themselves. -/
theorem Sign.map_plain {sign : List Char} {negative : Bool} (h : Sign sign negative) :
    sign.map plain = sign := by
  cases h <;> rfl

theorem map_plain_sign {sign rest mid : List Char} {negative : Bool} (h : Sign sign negative)
    (hmid : mid.map plain = sign ++ rest) : ∃ body, mid = sign ++ body ∧ body.map plain = rest := by
  obtain ⟨start, body, rfl, hstart, hbody⟩ := List.map_eq_append_iff.mp hmid
  refine ⟨body, ?_, hbody⟩
  cases h with
  | none =>
    rw [List.map_eq_nil_iff.mp hstart]
  | plus =>
    obtain ⟨c, rfl, hc⟩ := List.map_eq_singleton_iff.mp hstart
    rw [plain_plus.mp hc]
  | minus =>
    obtain ⟨c, rfl, hc⟩ := List.map_eq_singleton_iff.mp hstart
    rw [plain_minus.mp hc]

/-- A text is read as an integer just when it is a numeral of that integer. -/
theorem readInteger_eq_some {s : String} {n : Int} : readInteger s = some n ↔ DenotesInteger s n := by
  unfold readInteger
  rw [numeralBody_eq]
  constructor
  · intro h
    cases hsplit : splitSign ((trimBy isPad s.toList).map plain) with
    | mk negative rest =>
      rw [hsplit] at h
      dsimp only at h
      obtain ⟨sign, signed, hmid⟩ := splitSign_eq hsplit
      obtain ⟨body, htrim, rfl⟩ := map_plain_sign signed hmid
      cases hgroups : groupedDigits 10 (body.map plain) with
      | none =>
        rw [hgroups] at h
        cases h
      | some ds =>
        rw [hgroups] at h
        dsimp only at h
        split at h
        · cases h
        · rename_i hlength
          cases h
          have hgrouped := groupedDigits_eq_some.mp hgroups
          exact ⟨negative, body, ds, (spells_iff hgrouped.not_pad).mpr ⟨sign, signed, htrim⟩, hgrouped,
            by omega, rfl⟩
  · rintro ⟨negative, body, ds, hspells, hgrouped, hlength, rfl⟩
    obtain ⟨sign, signed, htrim⟩ := (spells_iff hgrouped.not_pad).mp hspells
    rw [htrim, List.map_append, signed.map_plain, splitSign_append signed hgrouped.not_signed]
    dsimp only
    rw [groupedDigits_eq_some.mpr hgrouped]
    dsimp only
    rw [if_neg (by omega)]
    rfl

end DurableFlow.Text
