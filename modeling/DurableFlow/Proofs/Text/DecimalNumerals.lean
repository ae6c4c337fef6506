import DurableFlow.Proofs.Text.Digits
import DurableFlow.Proofs.Text.Numerals

/-! Numerals of binary64 numbers: decimals with digits in groups, a point and an exponent, and the names of
the numbers that no decimal writes. A text is read as a number just when it is such a numeral. -/
namespace DurableFlow.Text

/-! ## The grammar -/

def MaybeGrouped (cs : List Char) (ds : List Nat) : Prop := cs = [] ∧ ds = [] ∨ Grouped cs ds

inductive Fraction : List Char → List Nat → Prop
  | none : Fraction [] []
  | point {cs : List Char} {ds : List Nat} (digits : MaybeGrouped cs ds) : Fraction ('.' :: cs) ds

inductive Exponent : List Char → Int → Prop
  | none : Exponent [] 0
  | given {mark : Char} {sign cs : List Char} {negative : Bool} {ds : List Nat}
      (marked : mark = 'e' ∨ mark = 'E') (signed : Sign sign negative) (digits : Grouped cs ds) :
      Exponent (mark :: (sign ++ cs)) (signedValue negative (digitsValue 10 ds))

def SpellsWord (word : String) (cs : List Char) : Prop := cs.map Char.toLower = word.toList

inductive Number (negative : Bool) : List Char → Binary64 → Prop
  | infinity {cs : List Char} (word : SpellsWord "inf" cs ∨ SpellsWord "infinity" cs) :
      Number negative cs (.infinite negative)
  | nan {cs : List Char} (word : SpellsWord "nan" cs) : Number negative cs .nan
  | decimal {whole fraction exponent : List Char} {ds fs : List Nat} {x : Int}
      (digits : MaybeGrouped whole ds) (more : Fraction fraction fs) (shift : Exponent exponent x)
      (given : ds ++ fs ≠ []) :
      Number negative (whole ++ (fraction ++ exponent))
        (Binary64.ofDecimal negative (digitsValue 10 (ds ++ fs)) (x - fs.length))

def DenotesNumber (s : String) (d : Binary64) : Prop :=
  ∃ negative body, Spells s negative body ∧ Number negative body d

/-! ## Underscores -/

variable {b : Bool} {cs out : List Char} {ds : List Nat}

private theorem dropUnderscores_cons {x : Char} (hx : x ≠ '_') (b : Bool) (cs : List Char) :
    dropUnderscores b (x :: cs) = (dropUnderscores x.isDigit cs).map (x :: ·) := by
  cases b <;> simp [dropUnderscores]

private theorem of_dropUnderscores_mark (h : dropUnderscores b ('_' :: cs) = some out) :
    b = true ∧ (∃ x rest, cs = x :: rest ∧ x.isDigit = true) ∧ dropUnderscores false cs = some out := by
  cases cs with
  | nil => cases b <;> simp [dropUnderscores] at h
  | cons x rest =>
    cases b with
    | false => simp [dropUnderscores] at h
    | true =>
      rw [dropUnderscores] at h
      simp only [Bool.true_and, Option.ite_none_right_eq_some] at h
      exact ⟨rfl, ⟨x, rest, rfl, h.1⟩, h.2⟩

private theorem head_of_dropUnderscores {x : Char} (hx : x ≠ '_')
    (h : dropUnderscores b (x :: cs) = some out) :
    ∃ rest, out = x :: rest ∧ dropUnderscores x.isDigit cs = some rest := by
  rw [dropUnderscores_cons hx] at h
  obtain ⟨rest, hrest, rfl⟩ := Option.map_eq_some_iff.mp h
  exact ⟨rest, rfl, hrest⟩

private theorem of_dropUnderscores_cons {x : Char} (hx : x.isDigit = false)
    (h : dropUnderscores b cs = some (x :: out)) :
    ∃ rest, cs = x :: rest ∧ dropUnderscores false rest = some out := by
  cases cs with
  | nil => cases b <;> simp [dropUnderscores] at h
  | cons y rest =>
    by_cases hy : y = '_'
    · subst hy
      obtain ⟨-, ⟨z, more, rfl, hz⟩, hdrop⟩ := of_dropUnderscores_mark h
      have hne : z ≠ '_' := by
        rintro rfl
        cases hz
      obtain ⟨_, heq, -⟩ := head_of_dropUnderscores hne hdrop
      cases heq
      cases hx.symm.trans hz
    · obtain ⟨_, heq, hdrop⟩ := head_of_dropUnderscores hy h
      cases heq
      rw [hx] at hdrop
      exact ⟨rest, rfl, hdrop⟩

private theorem of_dropUnderscores_nil (h : dropUnderscores b cs = some []) : cs = [] := by
  cases cs with
  | nil => rfl
  | cons y rest =>
    by_cases hy : y = '_'
    · subst hy
      obtain ⟨-, ⟨z, more, rfl, hz⟩, hdrop⟩ := of_dropUnderscores_mark h
      have hne : z ≠ '_' := by
        rintro rfl
        cases hz
      obtain ⟨_, heq, -⟩ := head_of_dropUnderscores hne hdrop
      cases heq
    · obtain ⟨_, heq, -⟩ := head_of_dropUnderscores hy h
      cases heq

def digitText (ds : List Nat) : List Char := ds.map asciiDigit

private theorem dropUnderscores_grouped (h : Grouped cs ds) (b : Bool) (rest : List Char) :
    dropUnderscores b (cs.map plain ++ rest) = (dropUnderscores true rest).map (digitText ds ++ ·) := by
  have hfirst {c : Char} {d : Nat} (digit : digitValue? c = some d) (b : Bool) (more : List Char) :
      dropUnderscores b (plain c :: more) = (dropUnderscores true more).map (asciiDigit d :: ·) := by
    obtain ⟨hd, hplain⟩ := digitValue?_iff.mp digit
    have hall : ∀ d < 10, asciiDigit d ≠ '_' ∧ (asciiDigit d).isDigit = true := by decide
    rw [hplain, dropUnderscores_cons (hall d hd).1, (hall d hd).2]
  induction h generalizing b with
  | one digit => exact hfirst digit b rest
  | next digit _ ih =>
    rw [List.map_cons, List.cons_append, hfirst digit, ih, Option.map_map]
    rfl
  | @apart c d cs ds digit grouped ih =>
    obtain ⟨x, more, hmore, hx⟩ : ∃ x more, cs.map plain ++ rest = x :: more ∧ x.isDigit = true := by
      obtain ⟨c, rest', d, rfl, hd⟩ := grouped.exists_cons
      obtain ⟨hten, hplain⟩ := digitValue?_iff.mp hd
      exact ⟨plain c, _, rfl, isDigit_iff.mpr ⟨d, hten, hplain⟩⟩
    have hmark : dropUnderscores true ('_' :: (cs.map plain ++ rest)) =
        dropUnderscores false (cs.map plain ++ rest) := by
      rw [hmore, dropUnderscores, hx]
      rfl
    have hplain : plain '_' = '_' := rfl
    rw [List.map_cons, List.map_cons, List.cons_append, List.cons_append, hfirst digit, hplain, hmark, ih,
      Option.map_map]
    rfl

private theorem grouped_of_dropUnderscores {xs rest : List Char} (hxs : AllDigits xs) (hne : xs ≠ [])
    (h : dropUnderscores false (cs.map plain) = some (xs ++ rest)) :
    ∃ run tail ds, cs = run ++ tail ∧ Grouped run ds ∧ xs = digitText ds ∧
      dropUnderscores true (tail.map plain) = some rest := by
  induction xs generalizing cs with
  | nil => exact absurd rfl hne
  | cons x xs ih =>
    obtain ⟨hx, hall⟩ := List.forall_mem_cons.mp hxs
    obtain ⟨c, cs', rfl⟩ : ∃ c cs', cs = c :: cs' := by
      cases cs with
      | nil => simp [dropUnderscores] at h
      | cons c cs' => exact ⟨c, cs', rfl⟩
    rw [List.map_cons] at h
    have hc : plain c ≠ '_' := by
      intro hmark
      rw [hmark] at h
      cases (of_dropUnderscores_mark h).1
    obtain ⟨_, heq, hdrop⟩ := head_of_dropUnderscores hc h
    cases heq
    rw [hx] at hdrop
    change dropUnderscores true (cs'.map plain) = some (xs ++ rest) at hdrop
    obtain ⟨d, hd, hplain⟩ := isDigit_iff.mp hx
    have hdigit : digitValue? c = some d := digitValue?_iff.mpr ⟨hd, hplain⟩
    cases hxs' : xs with
    | nil =>
      rw [hxs', List.nil_append] at hdrop
      exact ⟨[c], cs', [d], rfl, .one hdigit, by rw [hplain]; rfl, hdrop⟩
    | cons y ys =>
      have hsome : xs ≠ [] := by simp [hxs']
      by_cases hmark : ∃ more, cs' = '_' :: more
      · obtain ⟨more, rfl⟩ := hmark
        have hplain_mark : plain '_' = '_' := rfl
        rw [List.map_cons, hplain_mark] at hdrop
        obtain ⟨run, tail, ds, rfl, hrun, hds, htail⟩ := ih hall hsome (of_dropUnderscores_mark hdrop).2.2
        exact ⟨c :: '_' :: run, tail, d :: ds, rfl, .apart hdigit hrun,
          by rw [← hxs', hds, hplain]; rfl, htail⟩
      · have hsame : dropUnderscores false (cs'.map plain) = some (xs ++ rest) := by
          rw [← hdrop]
          cases cs' with
          | nil => simp [dropUnderscores]
          | cons c' cs' =>
            have hc' : plain c' ≠ '_' := fun h => hmark ⟨cs', by rw [plain_underscore.mp h]⟩
            rw [List.map_cons, dropUnderscores_cons hc', dropUnderscores_cons hc']
        obtain ⟨run, tail, ds, rfl, hrun, hds, htail⟩ := ih hall hsome hsame
        exact ⟨c :: run, tail, d :: ds, rfl, .next hdigit hrun, by rw [← hxs', hds, hplain]; rfl, htail⟩

private theorem maybeGrouped_of_dropUnderscores {xs rest : List Char} (hxs : AllDigits xs)
    (h : dropUnderscores false (cs.map plain) = some (xs ++ rest)) :
    ∃ run tail ds b, cs = run ++ tail ∧ MaybeGrouped run ds ∧ xs = digitText ds ∧
      dropUnderscores b (tail.map plain) = some rest := by
  by_cases hne : xs = []
  · subst hne
    exact ⟨[], cs, [], false, rfl, .inl ⟨rfl, rfl⟩, rfl, h⟩
  · obtain ⟨run, tail, ds, hcs, hrun, hds, htail⟩ := grouped_of_dropUnderscores hxs hne h
    exact ⟨run, tail, ds, true, hcs, .inr hrun, hds, htail⟩

private theorem dropUnderscores_maybeGrouped (h : MaybeGrouped cs ds) {rest more : List Char}
    (hrest : ∀ b, dropUnderscores b rest = some more) (b : Bool) :
    dropUnderscores b (cs.map plain ++ rest) = some (digitText ds ++ more) := by
  rcases h with ⟨rfl, rfl⟩ | h
  · exact hrest b
  · rw [dropUnderscores_grouped h, hrest]
    rfl

private theorem allDigits_digitText (h : ∀ d ∈ ds, d < 10) : AllDigits (digitText ds) := by
  intro c hc
  obtain ⟨d, hd, rfl⟩ := List.mem_map.mp hc
  exact isDigit_iff.mpr ⟨d, h d hd, rfl⟩

private theorem digitText_values (h : ∀ d ∈ ds, d < 10) :
    (digitText ds).map (fun c => c.toNat - 48) = ds := by
  rw [digitText, List.map_map]
  conv_rhs => rw [← List.map_id ds]
  refine List.map_congr_left fun d hd => ?_
  have hnat := toNat_asciiDigit (h d hd)
  simp only [Function.comp, hnat, id]
  omega

private theorem Grouped.lt_ten (h : Grouped cs ds) : ∀ d ∈ ds, d < 10 := by
  induction h with
  | one digit => simpa using (digitValue?_iff.mp digit).1
  | next digit _ ih => simpa using ⟨(digitValue?_iff.mp digit).1, ih⟩
  | apart digit _ ih => simpa using ⟨(digitValue?_iff.mp digit).1, ih⟩

private theorem Grouped.values_ne_nil (h : Grouped cs ds) : ds ≠ [] := by
  cases h <;> simp

private theorem MaybeGrouped.lt_ten (h : MaybeGrouped cs ds) : ∀ d ∈ ds, d < 10 := by
  rcases h with ⟨-, rfl⟩ | h
  · simp
  · exact h.lt_ten

private theorem sign_of_dropUnderscores {sign rest : List Char} {negative : Bool} (hs : Sign sign negative)
    (h : dropUnderscores false (cs.map plain) = some (sign ++ rest)) :
    ∃ body, cs = sign ++ body ∧ dropUnderscores false (body.map plain) = some rest := by
  cases hs with
  | none => exact ⟨cs, rfl, h⟩
  | plus =>
    obtain ⟨more, hcs, hdrop⟩ := of_dropUnderscores_cons rfl h
    obtain ⟨c, body, rfl, hc, rfl⟩ := List.map_eq_cons_iff.mp hcs
    exact ⟨body, by rw [plain_plus.mp hc]; rfl, hdrop⟩
  | minus =>
    obtain ⟨more, hcs, hdrop⟩ := of_dropUnderscores_cons rfl h
    obtain ⟨c, body, rfl, hc, rfl⟩ := List.map_eq_cons_iff.mp hcs
    exact ⟨body, by rw [plain_minus.mp hc]; rfl, hdrop⟩

private theorem dropUnderscores_sign {sign : List Char} {negative : Bool} (hs : Sign sign negative)
    (h : dropUnderscores false cs = some out) : dropUnderscores false (sign ++ cs) = some (sign ++ out) := by
  cases hs with
  | none => exact h
  | plus =>
    rw [List.singleton_append, dropUnderscores_cons (by decide), show '+'.isDigit = false from rfl, h]
    rfl
  | minus =>
    rw [List.singleton_append, dropUnderscores_cons (by decide), show '-'.isDigit = false from rfl, h]
    rfl

/-! ## Parts of a decimal -/

private inductive PlainExponent : List Char → Int → Prop
  | none : PlainExponent [] 0
  | given {mark : Char} {sign xs : List Char} {negative : Bool} (marked : mark = 'e' ∨ mark = 'E')
      (signed : Sign sign negative) (digits : AllDigits xs) (some : xs ≠ []) :
      PlainExponent (mark :: (sign ++ xs))
        (signedValue negative (digitsValue 10 (xs.map fun c => c.toNat - 48)))

private inductive PlainFraction : List Char → List Nat → Prop
  | none : PlainFraction [] []
  | point {xs : List Char} (digits : AllDigits xs) :
      PlainFraction ('.' :: xs) (xs.map fun c => c.toNat - 48)

private theorem not_signed_of_digits {xs : List Char} (h : AllDigits xs) : ¬ StartsSigned xs := by
  cases xs with
  | nil => simp [StartsSigned]
  | cons x xs =>
    have hx : x.isDigit = true := h x List.mem_cons_self
    rintro (hsign | hsign) <;> cases hsign <;> cases hx

private theorem exponentOf_eq_some {xs : List Char} {x : Int} : exponentOf xs = some x ↔
    ∃ sign ys negative, xs = sign ++ ys ∧ Sign sign negative ∧ AllDigits ys ∧ ys ≠ [] ∧
      x = signedValue negative (digitsValue 10 (ys.map fun c => c.toNat - 48)) := by
  unfold exponentOf
  constructor
  · intro h
    cases hsplit : splitSign xs with
    | mk negative ys =>
      rw [hsplit] at h
      obtain ⟨sign, signed, rfl⟩ := splitSign_eq hsplit
      dsimp only at h
      split at h
      · rename_i hys
        cases h
        exact ⟨sign, ys, negative, rfl, signed, List.all_eq_true.mp hys.2, hys.1, rfl⟩
      · cases h
  · rintro ⟨sign, ys, negative, rfl, signed, hys, hne, rfl⟩
    rw [splitSign_append signed (not_signed_of_digits hys)]
    dsimp only
    rw [if_pos ⟨hne, List.all_eq_true.mpr hys⟩]
    rfl

private theorem ending_eq_some {ws fs xs : List Char} {r : List Nat × List Nat × Int} :
    (if ws ++ fs = [] then none
      else match xs with
        | [] => some (ws.map fun c => c.toNat - 48, fs.map fun c => c.toNat - 48, (0 : Int))
        | e :: more =>
          if e = 'e' ∨ e = 'E' then
            (exponentOf more).map fun x =>
              (ws.map fun c => c.toNat - 48, fs.map fun c => c.toNat - 48, x)
          else none) = some r ↔
      ws ++ fs ≠ [] ∧ ∃ x, PlainExponent xs x ∧
        r = (ws.map fun c => c.toNat - 48, fs.map fun c => c.toNat - 48, x) := by
  rw [Option.ite_none_left_eq_some]
  refine and_congr_right fun _ => ?_
  cases xs with
  | nil =>
    constructor
    · rintro ⟨⟩
      exact ⟨0, .none, rfl⟩
    · rintro ⟨x, ⟨⟩, rfl⟩
      rfl
  | cons e more =>
    simp only [Option.ite_none_right_eq_some, Option.map_eq_some_iff, exponentOf_eq_some]
    constructor
    · rintro ⟨he, x, ⟨sign, ys, negative, rfl, signed, hys, hne, rfl⟩, rfl⟩
      exact ⟨_, .given he signed hys hne, rfl⟩
    · rintro ⟨x, ⟨⟩ | @⟨_, sign, ys, negative, marked, signed, digits, given⟩, rfl⟩
      exact ⟨marked, _, ⟨sign, ys, negative, rfl, signed, digits, given, rfl⟩, rfl⟩

private theorem PlainExponent.head {xs : List Char} {x : Int} (h : PlainExponent xs x) :
    ∀ c ∈ xs.head?, c.isDigit = false ∧ c ≠ '.' := by
  intro c hc
  cases h with
  | none => cases hc
  | given marked =>
    cases hc
    rcases marked with rfl | rfl <;> decide

private theorem decimalParts_eq_some {ws fs : List Nat} {x : Int} : decimalParts cs = some (ws, fs, x) ↔
    ∃ xs fraction exponent, cs = xs ++ (fraction ++ exponent) ∧ AllDigits xs ∧
      ws = (xs.map fun c => c.toNat - 48) ∧ PlainFraction fraction fs ∧ PlainExponent exponent x ∧
      ws ++ fs ≠ [] := by
  have hall (ys : List Char) : AllDigits (ys.takeWhile Char.isDigit) := fun c hc => List.mem_takeWhile_imp hc
  unfold decimalParts
  constructor
  · intro h
    refine ⟨cs.takeWhile Char.isDigit, ?_⟩
    have hcs := (List.takeWhile_append_dropWhile (p := Char.isDigit) (l := cs)).symm
    have hwhole := hall cs
    generalize cs.takeWhile Char.isDigit = whole at h hcs hwhole
    generalize cs.dropWhile Char.isDigit = rest at h hcs
    dsimp only at h
    split at h
    · rename_i more
      obtain ⟨hne, y, hexponent, heq⟩ := ending_eq_some.mp h
      cases heq
      refine ⟨'.' :: more.takeWhile Char.isDigit, more.dropWhile Char.isDigit, ?_, hwhole, rfl,
        .point (hall more), hexponent, by simpa using hne⟩
      rw [List.cons_append, List.takeWhile_append_dropWhile]
      exact hcs
    · obtain ⟨hne, y, hexponent, heq⟩ := ending_eq_some.mp h
      cases heq
      exact ⟨[], rest, hcs, hwhole, rfl, .none, hexponent, by simpa using hne⟩
  · rintro ⟨xs, fraction, exponent, rfl, hxs, rfl, hfraction, hexponent, hne⟩
    have hhead : ∀ c ∈ exponent.head?, c.isDigit = false := fun c hc => (hexponent.head c hc).1
    cases hfraction with
    | none =>
      obtain ⟨htake, hdrop⟩ := takeWhile_digits hxs hhead
      rw [List.nil_append, htake, hdrop]
      dsimp only
      split
      · exact absurd rfl (hexponent.head '.' rfl).2
      · exact ending_eq_some.mpr ⟨by simpa using hne, x, hexponent, rfl⟩
    | @point ys digits =>
      have hdot : ∀ c ∈ ('.' :: (ys ++ exponent)).head?, c.isDigit = false := by
        rintro c ⟨⟩
        rfl
      obtain ⟨htake, hdrop⟩ := takeWhile_digits hxs hdot
      obtain ⟨htake', hdrop'⟩ := takeWhile_digits digits hhead
      rw [List.cons_append, htake, hdrop]
      dsimp only
      split
      · rename_i more heq
        cases heq
        rw [htake', hdrop']
        exact ending_eq_some.mpr ⟨by simpa using hne, x, hexponent, rfl⟩
      · rename_i hother
        exact absurd rfl (hother _)

/-! ## Underscores in the parts of a decimal -/

theorem plain_point {c : Char} : plain c = '.' ↔ c = '.' :=
  plain_eq_iff (by decide) (by decide) (by decide) (by decide)

private theorem plain_marked {c mark : Char} (h : mark = 'e' ∨ mark = 'E') : plain c = mark ↔ c = mark := by
  rcases h with rfl | rfl
  · exact plain_eq_iff (by decide) (by decide) (by decide) (by decide)
  · exact plain_eq_iff (by decide) (by decide) (by decide) (by decide)

private theorem Exponent.read {exponent : List Char} {x : Int} (h : Exponent exponent x) :
    ∃ xs, PlainExponent xs x ∧ ∀ b, dropUnderscores b (exponent.map plain) = some xs := by
  cases h with
  | none => exact ⟨[], .none, fun b => by cases b <;> simp [dropUnderscores]⟩
  | @given mark sign cs negative ds marked signed digits =>
    have hmark : mark ≠ '_' ∧ mark.isDigit = false := by rcases marked with rfl | rfl <;> decide
    have hread : dropUnderscores false (cs.map plain) = some (digitText ds) := by
      have h := dropUnderscores_grouped digits false []
      simpa [dropUnderscores] using h
    refine ⟨mark :: (sign ++ digitText ds), ?_, fun b => ?_⟩
    · have hplain := PlainExponent.given marked signed (allDigits_digitText digits.lt_ten)
        (by simpa [digitText] using digits.values_ne_nil)
      rwa [digitText_values digits.lt_ten] at hplain
    · rw [List.map_cons, (plain_marked marked).mpr rfl, List.map_append, signed.map_plain,
        dropUnderscores_cons hmark.1, hmark.2, dropUnderscores_sign signed hread]
      rfl

private theorem PlainExponent.source {exponent xs : List Char} {x : Int} (h : PlainExponent xs x)
    (hdrop : dropUnderscores b (exponent.map plain) = some xs) : Exponent exponent x := by
  cases h with
  | none =>
    rw [List.map_eq_nil_iff.mp (of_dropUnderscores_nil hdrop)]
    exact .none
  | @given mark sign xs negative marked signed digits some =>
    have hmark : mark.isDigit = false := by rcases marked with rfl | rfl <;> decide
    obtain ⟨more, hcs, hmore⟩ := of_dropUnderscores_cons hmark hdrop
    obtain ⟨c, rest, rfl, hc, rfl⟩ := List.map_eq_cons_iff.mp hcs
    obtain ⟨body, rfl, hbody⟩ := sign_of_dropUnderscores signed hmore
    rw [← List.append_nil xs] at hbody
    obtain ⟨run, tail, ds, rfl, hrun, rfl, htail⟩ := grouped_of_dropUnderscores digits some hbody
    rw [List.map_eq_nil_iff.mp (of_dropUnderscores_nil htail), List.append_nil,
      digitText_values hrun.lt_ten, (plain_marked marked).mp hc]
    exact .given marked signed hrun

private theorem Fraction.read {fraction exponent : List Char} {fs : List Nat} {x : Int}
    (h : Fraction fraction fs) (hx : Exponent exponent x) : ∃ xs ys, PlainFraction xs fs ∧
      PlainExponent ys x ∧ ∀ b, dropUnderscores b ((fraction ++ exponent).map plain) = some (xs ++ ys) := by
  obtain ⟨ys, hys, hread⟩ := hx.read
  cases h with
  | none => exact ⟨[], ys, .none, hys, hread⟩
  | @point cs fs digits =>
    have hplain := PlainFraction.point (allDigits_digitText digits.lt_ten)
    rw [digitText_values digits.lt_ten] at hplain
    refine ⟨'.' :: digitText fs, ys, hplain, hys, fun b => ?_⟩
    rw [List.cons_append, List.map_cons, plain_point.mpr rfl, List.map_append,
      dropUnderscores_cons (by decide), dropUnderscores_maybeGrouped digits hread]
    rfl

private theorem PlainFraction.source {xs ys : List Char} {fs : List Nat} {x : Int}
    (h : PlainFraction xs fs) (hx : PlainExponent ys x)
    (hdrop : dropUnderscores b (cs.map plain) = some (xs ++ ys)) :
    ∃ fraction exponent, cs = fraction ++ exponent ∧ Fraction fraction fs ∧ Exponent exponent x := by
  cases h with
  | none => exact ⟨[], cs, rfl, .none, hx.source hdrop⟩
  | @point xs digits =>
    obtain ⟨more, hcs, hmore⟩ := of_dropUnderscores_cons rfl hdrop
    obtain ⟨c, rest, rfl, hc, rfl⟩ := List.map_eq_cons_iff.mp hcs
    obtain ⟨run, tail, ds, b, rfl, hrun, rfl, htail⟩ := maybeGrouped_of_dropUnderscores digits hmore
    rw [digitText_values hrun.lt_ten, plain_point.mp hc]
    exact ⟨'.' :: run, tail, rfl, .point hrun, hx.source htail⟩

/-! ## Words -/

private def Letters (cs : List Char) : Prop := ∀ c ∈ cs, c.isAlpha = true

private theorem SpellsWord.letters {word : String} (hword : ∀ c ∈ word.toList, c.isAlpha = true)
    (h : SpellsWord word cs) : Letters cs := by
  intro c hc
  have hlower := hword c.toLower (h ▸ List.mem_map_of_mem hc)
  unfold Char.toLower at hlower
  split at hlower
  · rename_i hrange
    have hupper : c.isUpper = true := decide_eq_true hrange
    exact Bool.or_eq_true_iff.mpr (.inl hupper)
  · exact hlower

private theorem isDigit_letter {c : Char} (h : c.isAlpha = true) : c.isDigit = false := by
  have hall : ∀ d < 10, (asciiDigit d).isAlpha = false := by decide
  by_contra hdigit
  obtain ⟨d, hd, rfl⟩ := isDigit_iff.mp (by simpa using hdigit)
  cases h.symm.trans (hall d hd)

private theorem toNat_letter {c : Char} (h : c.isAlpha = true) : 65 ≤ c.toNat ∧ c.toNat < 128 := by
  rcases Bool.or_eq_true_iff.mp h with hupper | hlower
  · obtain ⟨hlow, hhigh⟩ : 65 ≤ c.toNat ∧ c.toNat ≤ 90 := of_decide_eq_true hupper
    omega
  · obtain ⟨hlow, hhigh⟩ := Bool.and_eq_true_iff.mp hlower
    have hlow : 97 ≤ c.toNat := of_decide_eq_true hlow
    have hhigh : c.toNat ≤ 122 := of_decide_eq_true hhigh
    omega

private theorem plain_letter {c x : Char} (h : x.isAlpha = true) : plain c = x ↔ c = x := by
  have hdigit := isDigit_letter h
  refine plain_eq_iff (toNat_letter h).2 ?_ ?_ fun d hd => ?_
  · rintro rfl
    cases h
  · rintro rfl
    cases h
  · rintro rfl
    cases hdigit.symm.trans (isDigit_iff.mpr ⟨d, hd, rfl⟩)

private theorem isPad_letter {c : Char} (h : c.isAlpha = true) : isPad c = false := by
  obtain ⟨hlow, hhigh⟩ := toNat_letter h
  have hspace : c ≠ ' ' := by
    rintro rfl
    cases h
  simp [isPad, isAsciiBlank, hspace]
  omega

private theorem dropUnderscores_letters (h : Letters cs) (b : Bool) :
    dropUnderscores b (cs.map plain) = some cs := by
  induction cs generalizing b with
  | nil => cases b <;> simp [dropUnderscores]
  | cons c cs ih =>
    obtain ⟨hc, hcs⟩ := List.forall_mem_cons.mp h
    have hmark : c ≠ '_' := by
      rintro rfl
      cases hc
    rw [List.map_cons, (plain_letter hc).mpr rfl, dropUnderscores_cons hmark, ih hcs]
    rfl

private theorem letters_of_dropUnderscores (h : Letters out)
    (hdrop : dropUnderscores b (cs.map plain) = some out) : cs = out := by
  induction out generalizing b cs with
  | nil => exact List.map_eq_nil_iff.mp (of_dropUnderscores_nil hdrop)
  | cons x out ih =>
    obtain ⟨hx, hout⟩ := List.forall_mem_cons.mp h
    obtain ⟨more, hcs, hmore⟩ := of_dropUnderscores_cons (isDigit_letter hx) hdrop
    obtain ⟨c, rest, rfl, hc, rfl⟩ := List.map_eq_cons_iff.mp hcs
    rw [(plain_letter hx).mp hc, ih hout hmore]

/-! ## Numbers -/

def readUnsigned (negative : Bool) (cs : List Char) : Option Binary64 :=
  let word := String.ofList (cs.map Char.toLower)
  if word = "inf" ∨ word = "infinity" then some (.infinite negative)
  else if word = "nan" then some .nan
  else readDecimal negative cs

theorem readBinary64_eq (s : String) : readBinary64 s = (dropUnderscores false (numeralBody s)).bind
    fun body => readUnsigned (splitSign body).1 (splitSign body).2 := rfl

private theorem isWord_iff {word : String} : String.ofList (cs.map Char.toLower) = word ↔ SpellsWord word cs := by
  rw [SpellsWord, ← String.toList_inj, String.toList_ofList]

private theorem not_letters_of_decimalParts {r : List Nat × List Nat × Int}
    (h : decimalParts cs = some r) : ¬ Letters cs := by
  obtain ⟨ws, fs, x⟩ := r
  obtain ⟨xs, fraction, exponent, rfl, hxs, rfl, hfraction, -, hne⟩ := decimalParts_eq_some.mp h
  intro hletters
  cases xs with
  | cons c xs =>
    have hc : c.isDigit = true := hxs c List.mem_cons_self
    cases hc.symm.trans (isDigit_letter (hletters c (by simp)))
  | nil =>
    cases hfraction with
    | none => exact hne rfl
    | point => cases hletters '.' (by simp)

variable {negative : Bool} {d : Binary64} {body : List Char}

private inductive Named (negative : Bool) (cs : List Char) : Binary64 → Prop
  | infinity (word : SpellsWord "inf" cs ∨ SpellsWord "infinity" cs) : Named negative cs (.infinite negative)
  | nan (word : SpellsWord "nan" cs) : Named negative cs .nan

private theorem Named.letters (h : Named negative cs d) : Letters cs := by
  rcases h with (word | word) | word
  · exact word.letters (by simp)
  · exact word.letters (by simp)
  · exact word.letters (by simp)

private theorem Named.number (h : Named negative cs d) : Number negative cs d := by
  cases h with
  | infinity word => exact .infinity word
  | nan word => exact .nan word

private theorem readUnsigned_eq_some : readUnsigned negative cs = some d ↔
    Named negative cs d ∨ readDecimal negative cs = some d := by
  have hdecimal {d' : Binary64} (h : Named negative cs d') : readDecimal negative cs = none := by
    rw [readDecimal, Option.map_eq_none_iff]
    by_contra hsome
    obtain ⟨r, hr⟩ := Option.ne_none_iff_exists'.mp hsome
    exact not_letters_of_decimalParts hr h.letters
  unfold readUnsigned
  dsimp only
  split
  · rename_i hinf
    rw [isWord_iff, isWord_iff] at hinf
    rw [hdecimal (.infinity hinf)]
    constructor
    · rintro ⟨⟩
      exact .inl (.infinity hinf)
    · rintro ((word | hnan) | ⟨⟨⟩⟩)
      · rfl
      · rcases hinf with hinf | hinf <;> cases hinf.symm.trans hnan
  · rename_i hinf
    rw [isWord_iff, isWord_iff] at hinf
    split
    · rename_i hnan
      rw [isWord_iff] at hnan
      rw [hdecimal (.nan hnan)]
      constructor
      · rintro ⟨⟩
        exact .inl (.nan hnan)
      · rintro ((word | word) | ⟨⟨⟩⟩)
        · exact absurd word hinf
        · rfl
    · rename_i hnan
      rw [isWord_iff] at hnan
      refine (or_iff_right ?_).symm
      rintro (word | word)
      · exact hinf word
      · exact hnan word

private theorem number_iff : Number negative body d ↔
    ∃ out, dropUnderscores false (body.map plain) = some out ∧ readUnsigned negative out = some d := by
  have hnamed (h : Named negative body d) :
      ∃ out, dropUnderscores false (body.map plain) = some out ∧ readUnsigned negative out = some d :=
    ⟨body, dropUnderscores_letters h.letters false, readUnsigned_eq_some.mpr (.inl h)⟩
  constructor
  · rintro (word | word | @⟨whole, fraction, exponent, ds, fs, x, digits, more, shift, given⟩)
    · exact hnamed (.infinity word)
    · exact hnamed (.nan word)
    · obtain ⟨xs, ys, hxs, hys, hread⟩ := more.read shift
      have hparts : decimalParts (digitText ds ++ (xs ++ ys)) = some (ds, fs, x) :=
        decimalParts_eq_some.mpr ⟨digitText ds, xs, ys, rfl, allDigits_digitText digits.lt_ten,
          (digitText_values digits.lt_ten).symm, hxs, hys, given⟩
      refine ⟨digitText ds ++ (xs ++ ys), ?_, readUnsigned_eq_some.mpr (.inr ?_)⟩
      · rw [List.map_append]
        exact dropUnderscores_maybeGrouped digits hread false
      · rw [readDecimal, hparts]
        rfl
  · rintro ⟨out, hdrop, hread⟩
    rcases readUnsigned_eq_some.mp hread with hword | hdecimal
    · rw [letters_of_dropUnderscores hword.letters hdrop]
      exact hword.number
    · obtain ⟨⟨ds, fs, x⟩, hparts, rfl⟩ := Option.map_eq_some_iff.mp hdecimal
      obtain ⟨xs, fraction, exponent, rfl, hxs, rfl, hfraction, hexponent, hne⟩ :=
        decimalParts_eq_some.mp hparts
      obtain ⟨run, tail, ds, b, rfl, hrun, rfl, htail⟩ := maybeGrouped_of_dropUnderscores hxs hdrop
      obtain ⟨fraction, exponent, rfl, hfraction, hexponent⟩ := hfraction.source hexponent htail
      rw [digitText_values hrun.lt_ten] at hne ⊢
      exact .decimal hrun hfraction hexponent hne

private theorem not_signed_of_readUnsigned (h : readUnsigned negative cs = some d) : ¬ StartsSigned cs := by
  intro hsigned
  obtain ⟨c, rest, rfl, hc⟩ : ∃ c rest, cs = c :: rest ∧ (c = '-' ∨ c = '+') := by
    cases cs with
    | nil => simp [StartsSigned] at hsigned
    | cons c rest => exact ⟨c, rest, rfl, by simpa [StartsSigned] using hsigned⟩
  rcases readUnsigned_eq_some.mp h with hword | hdecimal
  · have halpha := hword.letters c List.mem_cons_self
    rcases hc with rfl | rfl <;> cases halpha
  · obtain ⟨⟨ds, fs, x⟩, hparts, -⟩ := Option.map_eq_some_iff.mp hdecimal
    obtain ⟨xs, fraction, exponent, hcs, hxs, rfl, hfraction, -, hne⟩ := decimalParts_eq_some.mp hparts
    cases xs with
    | cons x xs =>
      have hx : x.isDigit = true := hxs x List.mem_cons_self
      cases hcs
      rcases hc with rfl | rfl <;> cases hx
    | nil =>
      cases hfraction with
      | none => exact hne rfl
      | point =>
        cases hcs
        rcases hc with hc | hc <;> cases hc

private theorem MaybeGrouped.not_pad (h : MaybeGrouped cs ds) : ∀ c ∈ cs, isPad c = false := by
  rcases h with ⟨rfl, -⟩ | h
  · simp
  · exact h.not_pad

private theorem Fraction.not_pad (h : Fraction cs ds) : ∀ c ∈ cs, isPad c = false := by
  cases h with
  | none => simp
  | point digits => exact List.forall_mem_cons.mpr ⟨by decide, digits.not_pad⟩

private theorem Exponent.not_pad {x : Int} (h : Exponent cs x) : ∀ c ∈ cs, isPad c = false := by
  cases h with
  | none => simp
  | given marked signed digits =>
    rw [List.forall_mem_cons, List.forall_mem_append]
    refine ⟨?_, signed.not_pad, digits.not_pad⟩
    rcases marked with rfl | rfl <;> decide

private theorem Number.not_pad (h : Number negative body d) : ∀ c ∈ body, isPad c = false := by
  rcases h with word | word | ⟨digits, more, shift, -⟩
  · exact fun c hc => isPad_letter ((Named.infinity word : Named negative _ _).letters c hc)
  · exact fun c hc => isPad_letter ((Named.nan word : Named negative _ _).letters c hc)
  · rw [List.forall_mem_append, List.forall_mem_append]
    exact ⟨digits.not_pad, more.not_pad, shift.not_pad⟩

/-- A text is read as a binary64 number just when it is a numeral of that number. -/
theorem readBinary64_eq_some {s : String} : readBinary64 s = some d ↔ DenotesNumber s d := by
  rw [readBinary64_eq, numeralBody_eq, Option.bind_eq_some_iff]
  constructor
  · rintro ⟨out, hdrop, hread⟩
    have hsplit : splitSign out = ((splitSign out).1, (splitSign out).2) := rfl
    obtain ⟨sign, signed, hout⟩ := splitSign_eq hsplit
    rw [hout] at hdrop
    obtain ⟨body, htrim, hbody⟩ := sign_of_dropUnderscores signed hdrop
    have hnumber := number_iff.mpr ⟨_, hbody, hread⟩
    exact ⟨_, body, (spells_iff hnumber.not_pad).mpr ⟨sign, signed, htrim⟩, hnumber⟩
  · rintro ⟨negative, body, hspells, hnumber⟩
    obtain ⟨sign, signed, htrim⟩ := (spells_iff hnumber.not_pad).mp hspells
    obtain ⟨out, hdrop, hread⟩ := number_iff.mp hnumber
    refine ⟨sign ++ out, ?_, ?_⟩
    · rw [htrim, List.map_append, signed.map_plain, dropUnderscores_sign signed hdrop]
    · rw [splitSign_append signed (not_signed_of_readUnsigned hread)]
      exact hread

end DurableFlow.Text
