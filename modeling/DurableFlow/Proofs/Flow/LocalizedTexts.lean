import DurableFlow.Flow.Localization

/-! Localized texts. What a localization answers hangs on the texts that are found in it, and on what its
default language means. -/
namespace DurableFlow.Flow

/-! ## Answers -/

section Answers
variable {α β : Type} {x y : Except Failure α}

def SameAnswer (x y : Except Failure α) : Prop :=
  x.mapError Failure.message = y.mapError Failure.message

private theorem SameAnswer.bind {f g : α → Except Failure β} (h : SameAnswer x y)
    (hf : ∀ a, SameAnswer (f a) (g a)) : SameAnswer (x >>= f) (y >>= g) := by
  cases x with
  | ok a =>
    cases y with
    | ok b =>
      cases h
      exact hf a
    | error => cases h
  | error e =>
    cases y with
    | ok => cases h
    | error => exact congrArg Except.error (Except.error.inj h)

end Answers

/-! ## Localizations that answer alike -/

/-- Localizations that answer alike: they have the same texts, whatever their tables look like. -/
structure AlikeTexts (t t' : Localization) : Prop where
  languages : ∀ language, Option.Rel (fun texts texts' => ∀ key, Keyed.find? key texts = Keyed.find? key texts')
    (t.texts? language) (t'.texts? language)
  defaults : ∀ key, Keyed.find? key t.defaults = Keyed.find? key t'.defaults
  defaultLanguage : t.defaultLanguage.same t'.defaultLanguage = true

private theorem override?_alike {t t' : Localization} (h : AlikeTexts t t') (language key : Json) :
    t.override? language key = t'.override? language key := by
  have htexts := h.languages language
  unfold Localization.override? Localization.lookup?
  split
  · rfl
  split
  · generalize t.texts? language = found, t'.texts? language = found' at htexts
    cases htexts with
    | none => rfl
    | @some texts texts' hsame =>
      change (if key.isKey then Except.ok (Keyed.find? key texts) else _) =
        (if key.isKey then Except.ok (Keyed.find? key texts') else _)
      rw [hsame key]
  · rfl

private theorem same_shapes {v w : Json} (h : v.same w = true) : v = w ∨
    (v.place?.isSome = true ∧ w.place?.isSome = true) ∨
      (v.isKey = false ∧ w.isKey = false ∧ v.kindName = w.kindName) := by
  unfold Json.same at h
  split at h
  · exact .inl rfl
  · exact .inl (congrArg Json.string (of_decide_eq_true h))
  · exact .inr (.inr ⟨rfl, rfl, rfl⟩)
  · exact .inr (.inr ⟨rfl, rfl, rfl⟩)
  · split at h
    · rename_i hp hq
      exact .inr (.inl ⟨by rw [hp]; rfl, by rw [hq]; rfl⟩)
    · cases h

private theorem override?_same (t : Localization) {language language' : Json}
    (h : language.same language' = true) (key : Json) :
    SameAnswer (t.override? language key) (t.override? language' key) := by
  have hnumber {v : Json} (hv : v.place?.isSome = true) : t.override? v key = .ok none := by
    cases v with
    | bool | int | double => rfl
    | null | string | array | object => cases hv
  have hrefused {v : Json} (hv : v.isKey = false) : t.override? v key = .error (.notAKey v) := by
    cases v with
    | array | object => rfl
    | null | bool | int | double | string => cases hv
  obtain rfl | ⟨hv, hw⟩ | ⟨hv, hw, hkind⟩ := same_shapes h
  · rfl
  · rw [hnumber hv, hnumber hw]
    rfl
  · rw [hrefused hv, hrefused hw]
    have hmessage (v : Json) :
        (Failure.notAKey v).message = "unhashable type: '" ++ v.kindName ++ "'" := rfl
    refine congrArg Except.error ?_
    rw [hmessage, hmessage, hkind]

/-- Localizations that answer alike localize every key alike. -/
theorem AlikeTexts.localize {t t' : Localization} (h : AlikeTexts t t') (language key : Json) :
    SameAnswer (t.localize language key) (t'.localize language key) := by
  unfold Localization.localize
  rw [override?_alike h language key]
  refine SameAnswer.bind rfl fun found => ?_
  cases found with
  | some v => rfl
  | none =>
    have hdefault : SameAnswer (t.override? t.defaultLanguage key) (t'.override? t'.defaultLanguage key) := by
      rw [override?_alike h]
      exact override?_same t' h.defaultLanguage key
    refine SameAnswer.bind hdefault fun found => ?_
    cases found with
    | some v => rfl
    | none =>
      refine SameAnswer.bind ?_ fun found => rfl
      unfold Localization.lookup?
      dsimp only
      rw [h.defaults key]
      rfl

/-! ## Tables under texts -/

/-- The override of a language for a content key. -/
theorem Localization.override?_texts (t : Localization) (language key : String) :
    t.override? (.string language) (.string key) =
      .ok ((t.texts? (.string language)).bind (Keyed.find? (.string key))) := by
  unfold Localization.override? Localization.lookup?
  cases t.texts? (.string language) <;> rfl

def AnswerAlike {α : Type} (table table' : List (String × α)) : Prop :=
  ∀ key, Table.find? key table = Table.find? key table'

theorem find?_map_values {α β : Type} (f : α → β) (key : String) (table : List (String × α)) :
    Table.find? key (table.map fun (k, a) => (k, f a)) = (Table.find? key table).map f := by
  induction table with
  | nil => rfl
  | cons m rest ih =>
    obtain ⟨k, a⟩ := m
    by_cases hk : k = key <;> simp [Table.find?, hk, ih]

theorem find?_ofTexts_alike {α β : Type} (f : α → β) {table table' : List (String × α)}
    (h : AnswerAlike table table') (key : Json) :
    Keyed.find? key (Keyed.ofTexts f table) = Keyed.find? key (Keyed.ofTexts f table') := by
  have hnone (hkey : ∀ s, key ≠ .string s) (table : List (String × α)) :
      Keyed.find? key (Keyed.ofTexts f table) = none := by
    induction table with
    | nil => rfl
    | cons m rest ih =>
      have hother : (Json.string m.1).same key = false := by
        cases key with
        | string s => exact absurd rfl (hkey s)
        | _ => rfl
      rw [Keyed.ofTexts, List.map_cons, Keyed.find?, if_neg (by rw [hother]; exact Bool.false_ne_true)]
      exact ih
  by_cases hkey : ∃ s, key = .string s
  · obtain ⟨s, rfl⟩ := hkey
    rw [Keyed.find?_ofTexts, Keyed.find?_ofTexts, h s]
  · rw [hnone (not_exists.mp hkey), hnone (not_exists.mp hkey)]

theorem texts?_ofTexts {overrides overrides' : List (String × List (String × String))}
    (h : ∀ language, Option.Rel AnswerAlike (Table.find? language overrides)
      (Table.find? language overrides')) (defaults defaults' : Keyed Json) (own own' language : Json) :
    Option.Rel (fun texts texts' => ∀ key, Keyed.find? key texts = Keyed.find? key texts')
      (Localization.texts? ⟨overrides.map fun (l, texts) => (l, Keyed.ofTexts .string texts), defaults,
        own⟩ language)
      (Localization.texts? ⟨overrides'.map fun (l, texts) => (l, Keyed.ofTexts .string texts), defaults',
        own'⟩ language) := by
  cases language with
  | string l =>
    have hl := h l
    simp only [Localization.texts?, find?_map_values]
    generalize Table.find? l overrides = found, Table.find? l overrides' = found' at hl
    cases hl with
    | none => exact .none
    | some htexts => exact .some (find?_ofTexts_alike Json.string htexts)
  | _ => exact .none

end DurableFlow.Flow
