import DurableFlow.Proofs.Flow.ReorderedTexts

/-! Texts with fallbacks. What a compiled flow answers for a content key can be read off its document: the
text of the requested language, else that of the default language, else the default text, else the key. A
default language that can be no key is refused, unless the requested language has the text. -/
namespace DurableFlow.Flow
open Json (valuesAt valuesAt_cons_self valuesAt_cons_ne)
open Store (bind_eq_ok)

/-! ## Texts of documents -/

namespace Authored

def entries? (document : Json) (language : String) : Option (List (String × Json)) :=
  ((valuesAt language ((member "localization" document).members?.getD [])).filterMap Json.members?).head?

/-- The text that a language has under a content key: the last one that its entries give it. -/
def override? (document : Json) (language key : String) : Option String :=
  (entries? document language).bind fun entries => (valuesAt key (entries.flatMap entryWrites)).getLast?

def itemTexts (item : Json) : List (String × String) :=
  if (member "uuid" item).isGiven then
    (item.members?.getD []).flatMap fun m => if m.1 ∈ structuralFields then []
      else ((textOf? m.2).map fun s => (contentKey (member "uuid" item) (.string m.1), s)).toList
  else []

/-- The text under a content key that holds in every language: the last one in document order. -/
def default? (document : Json) (key : String) : Option String :=
  (valuesAt key ((nodes document).flatMap fun n => (texted n).flatMap itemTexts)).getLast?

/-- The language to fall back on: the flow's own unless it is empty, else the document's. -/
def defaultLanguage (d : Definition) (document : Json) : Json :=
  match d.language with
  | some "" | none => member "language" document
  | some l => .string l

/-- The text to show for a content key: in the requested language, else in the language to fall back
on, else the default text, else the key. -/
def shown (document : Json) (requested fallback : Option String) (key : String) : String :=
  let inLanguage (language : Option String) := language.bind fun l => override? document l key
  (((inLanguage requested).or (inLanguage fallback)).or (default? document key)).getD key

end Authored
open Authored (member)

variable {d : Definition} {document : Json} {g : Graph}

/-! ## Compiled texts -/

private theorem compile_override? (h : compile d document = .ok g) (language key : String) :
    g.localization.override? (.string language) (.string key) =
      .ok ((Authored.override? document language key).map .string) := by
  obtain ⟨members, _, nodes, defaults, overrides, rfl, -, -, -, hoverrides, rfl⟩ := compile_eq_ok.mp h
  have htexts : (graphOf d members nodes defaults overrides).localization.texts? (.string language) =
      (Authored.entries? (.object members) language).map fun entries =>
        Keyed.ofTexts .string (entryTexts entries) := by
    have hfound : (graphOf d members nodes defaults overrides).localization.texts? (.string language) =
        (Table.find? language overrides).map (Keyed.ofTexts .string) := find?_map_values _ _ _
    rw [hfound, flatten_eq_ok hoverrides, find?_blockTexts, Option.map_map]
    rfl
  rw [Localization.override?_texts, htexts, Authored.override?]
  cases Authored.entries? (.object members) language with
  | none => rfl
  | some entries =>
    change Except.ok (Keyed.find? _ (Keyed.ofTexts Json.string (entryTexts entries))) = _
    rw [Keyed.find?_ofTexts, entryTexts_eq_merge, find?_merge]
    simp [Table.find?]

/-! ## Collected texts -/

private def collected (texts : List (String × String)) : List (String × Json) :=
  texts.map fun (key, s) => (key, .string s)

private theorem valuesAt_collected (key : String) (texts : List (String × String)) :
    valuesAt key (collected texts) = (valuesAt key texts).map .string := by
  induction texts with
  | nil => rfl
  | cons m rest ih =>
    by_cases hm : m.1 = key
    · rw [valuesAt_cons_self hm, List.map_cons, ← ih]
      exact valuesAt_cons_self hm
    · rw [valuesAt_cons_ne hm, ← ih]
      exact valuesAt_cons_ne hm

private theorem collected_flatMap {α : Type} (f : α → List (String × String)) (xs : List α) :
    collected (xs.flatMap f) = xs.flatMap fun x => collected (f x) := List.map_flatMap

private theorem collected_append (texts texts' : List (String × String)) :
    collected (texts ++ texts') = collected texts ++ collected texts' := List.map_append

private theorem collected_field (uuid : Json) (m : String × Json) :
    collected (if m.1 ∈ structuralFields then []
      else ((textOf? m.2).map fun s => (contentKey uuid (.string m.1), s)).toList) =
    if m.1 ∈ structuralFields then []
      else ((textOf? m.2).map fun s => (contentKey uuid (.string m.1), Json.string s)).toList := by
  split
  · rfl
  · cases textOf? m.2 <;> rfl

private theorem itemWrites_eq (ms : List (String × Json)) :
    itemWrites ms = collected (Authored.itemTexts (.object ms)) := by
  by_cases hgiven : (Json.findD "uuid" ms).isGiven = true
  · have hmember : (member "uuid" (.object ms)).isGiven = true := hgiven
    rw [itemWrites, Authored.itemTexts, if_pos hmember, collected_flatMap]
    refine (if_pos hgiven).trans (congrArg (fun f => ms.flatMap f) (funext fun m => ?_))
    exact (collected_field _ m).symm
  · have hmember : ¬ (member "uuid" (.object ms)).isGiven = true := hgiven
    rw [itemWrites, Authored.itemTexts, if_neg hmember]
    exact if_neg hgiven

private theorem flatMap_filter {α β : Type} {p : α → Bool} {f : α → List β}
    (h : ∀ x, p x = false → f x = []) (xs : List α) : (xs.filter p).flatMap f = xs.flatMap f := by
  induction xs with
  | nil => rfl
  | cons x rest ih =>
    rw [List.filter_cons, List.flatMap_cons]
    split
    · rw [List.flatMap_cons, ih]
    · rename_i hx
      rw [h x (Bool.eq_false_iff.mpr hx), List.nil_append, ih]

private theorem itemWrites_readAction {fail : DocumentFault → Failure} {node x : Json} {a : Action}
    (h : readAction fail node x = .ok a) :
    itemWrites (("uuid", a.uuid) :: a.attributes) = collected (Authored.itemTexts x) := by
  cases x with
  | object ms =>
    cases h
    rw [← itemWrites_eq]
    by_cases hgiven : (Json.findD "uuid" ms).isGiven = true
    · have huuid : givenOr (.string "") "uuid" ms = Json.findD "uuid" ms := if_pos hgiven
      rw [huuid]
      refine (if_pos hgiven).trans (Eq.trans ?_ (if_pos hgiven).symm)
      rw [List.flatMap_cons]
      refine (List.nil_append _).trans (flatMap_filter (fun m hm => if_pos ?_) ms)
      have hset : m.1 = "uuid" ∨ m.1 = "type" := by
        by_contra hnot
        obtain ⟨huuid, htype⟩ := not_or.mp hnot
        simp [huuid, htype] at hm
      rcases hset with huuid | htype
      · simp [structuralFields, huuid]
      · simp [structuralFields, htype]
    · have huuid : givenOr (.string "") "uuid" ms = .string "" := if_neg hgiven
      rw [huuid]
      have hempty (fields : List (String × Json)) : itemWrites (("uuid", .string "") :: fields) = [] := by
        rfl
      exact (hempty _).trans (if_neg hgiven).symm
  | _ => cases h

private theorem flatMap_members (xs : List Json) :
    (xs.filterMap Json.members?).flatMap itemWrites = collected (xs.flatMap Authored.itemTexts) := by
  induction xs with
  | nil => rfl
  | cons x rest ih =>
    rw [List.flatMap_cons, collected_append, ← ih]
    cases x with
    | object ms => rw [← itemWrites_eq]; rfl
    | _ => rfl

private theorem nodeWrites_readNode {fail : DocumentFault → Failure} {position : Nat} {v : Json}
    {node : Node} (h : readNode fail position v = .ok node) (hread : ∃ items, textItems node = .ok items) :
    nodeWrites node = collected ((Authored.texted v).flatMap Authored.itemTexts) := by
  obtain ⟨-, -, raws, actions, _, exits, router, hraws, hactions, -, -, hrouter, rfl⟩ :=
    readNode_eq_ok.mp h
  have hobjects : ∀ x ∈ raws, ∃ members, x = .object members := by
    intro x hx
    have hsome := succeeds_readAction.mp (succeeds_mapM.mp ⟨actions, hactions⟩ x hx)
    cases x with
    | object members => exact ⟨members, rfl⟩
    | _ => cases hsome
  have hwritten : (actions.map fun a => ("uuid", a.uuid) :: a.attributes).flatMap itemWrites =
      collected (((member "actions" v).items?.getD []).flatMap Authored.itemTexts) := by
    rw [items_of_elements hraws hobjects, collected_flatMap, List.flatMap_map]
    refine (flatMap_eq_of_forall₂ (forall₂_of_mapM hactions) fun x a hread => ?_).symm
    exact (itemWrites_readAction hread).symm
  obtain ⟨items, hitems⟩ := hread
  rw [Authored.texted, List.flatMap_append, List.flatMap_append, collected_append, collected_append,
    ← hwritten, ← flatMap_members, ← flatMap_members]
  have hwrites : nodeWrites ⟨member "uuid" v, actions, exits, router⟩ = items.flatMap itemWrites := by
    rw [nodeWrites, hitems]
  rw [hwrites]
  unfold textItems at hitems
  cases router with
  | none =>
    cases hitems
    have hmember : member "router" v = .null := hrouter
    rw [hmember]
    exact (by simp [member, Json.items?])
  | some router =>
    have hmember : member "router" v = .object router := hrouter
    obtain ⟨cases, hcases, hitems⟩ := bind_eq_ok.mp hitems
    obtain ⟨categories, hcategories, hitems⟩ := bind_eq_ok.mp hitems
    cases hitems
    rw [hmember, List.flatMap_append, List.flatMap_append, filterMap_elements hcases,
      filterMap_elements hcategories]
    rfl

private theorem compile_default? (h : compile d document = .ok g) (key : String) :
    Keyed.find? (.string key) g.localization.defaults =
      (Authored.default? document key).map .string := by
  obtain ⟨members, values, nodes, defaults, overrides, rfl, hvalues, hread, -, -, rfl⟩ :=
    compile_eq_ok.mp h
  obtain ⟨new, -, hreads, hitems, rfl⟩ := readNodes_texts hread
  have hwrites : new.flatMap nodeWrites =
      collected (values.flatMap fun v => (Authored.texted v).flatMap Authored.itemTexts) := by
    rw [collected_flatMap]
    refine flatMap_eq_of_forall₂ ((List.forall₂_and_left _ _).mpr ⟨hitems, hreads.flip⟩) ?_
    rintro node v ⟨hread, _, hnode⟩
    exact nodeWrites_readNode hnode hread
  have hnodes : Authored.nodes (.object members) = values := by
    simp [Authored.nodes, member, hvalues, Json.items?]
  change Keyed.find? _ (Keyed.ofTexts id (Table.merge [] (new.flatMap nodeWrites))) = _
  rw [Keyed.find?_ofTexts, find?_merge, hwrites, valuesAt_collected, List.getLast?_map,
    Authored.default?, hnodes]
  simp [Table.find?]

/-! ## Answers -/

private theorem override?_eq (h : compile d document = .ok g) (language : Json) (key : String) :
    g.localization.override? language (.string key) =
      if language.isKey = true then
        .ok ((language.string?.bind fun l => Authored.override? document l key).map .string)
      else .error (.notAKey language) := by
  cases language with
  | string l => exact compile_override? h l key
  | null | bool | int | double | array | object => rfl

/-- The answer of a compiled flow for any content key, in any requested language or in none, is the text of
that language, else that of the language to fall back on, else the default text that the document gives,
else the key. It is refused if the requested language lacks the text and the language to fall back on is a
list or an object. -/
theorem localize_eq_shown (h : compile d document = .ok g) (requested : Option String) (key : String) :
    let fallback := Authored.defaultLanguage d document
    g.localization.localize (textOrNull requested) (.string key) =
      if fallback.isKey = true ∨ (requested.bind fun l => Authored.override? document l key) ≠ none then
        .ok (.string (Authored.shown document requested fallback.string? key))
      else .error (.notAKey fallback) := by
  intro fallback
  have hlanguage : g.localization.defaultLanguage = fallback := by
    obtain ⟨members, _, _, _, _, rfl, -, -, -, -, rfl⟩ := compile_eq_ok.mp h
    rfl
  have hrequested : g.localization.override? (textOrNull requested) (.string key) =
      .ok ((requested.bind fun l => Authored.override? document l key).map .string) := by
    rw [override?_eq h]
    cases requested <;> rfl
  have hdefault : Localization.lookup? (.string key) (fun k => Keyed.find? k g.localization.defaults) =
      .ok ((Authored.default? document key).map .string) := congrArg Except.ok (compile_default? h key)
  unfold Localization.localize Authored.shown
  rw [hrequested, hlanguage, override?_eq h, hdefault]
  dsimp only
  generalize (requested.bind fun l => Authored.override? document l key) = own
  generalize (fallback.string?.bind fun l => Authored.override? document l key) = other
  cases own with
  | some s =>
    have hfound : fallback.isKey = true ∨ some s ≠ none := .inr (Option.some_ne_none s)
    rw [if_pos hfound]
    rfl
  | none =>
    by_cases hkey : fallback.isKey = true
    · rw [if_pos hkey, if_pos (Or.inl hkey)]
      cases other with
      | some s => rfl
      | none => cases Authored.default? document key <;> rfl
    · rw [if_neg hkey, if_neg (not_or.mpr ⟨hkey, fun hne => hne rfl⟩)]
      rfl

/-! ## A translated flow -/

private def translated : List (String × Json) :=
  [("nodes", .array [.object [("uuid", .string "n1"), ("actions", .array [
      .object [("uuid", .string "a1"), ("type", .string "send_msg"), ("text", .string "hello")]])]]),
    ("language", .string "en"),
    ("localization", .object [
      ("hi", .object [("a1", .object [("text", .array [.string "namaste"])])]),
      ("en", .object [("title", .string "Greeting")])])]

private def translatedFlow : Definition :=
  { id := some 1, uuid := none, shortcode := none, name := none, language := none, kind := .message,
    format := none, revisions := [] }

private def translatedNodes : List Node :=
  [⟨.string "n1", [⟨.string "a1", .string "send_msg", [("text", .string "hello")]⟩], [], none⟩]

/-- The greeting is found in Hindi, and in French by default; the title is found in the language of the flow,
and a key without any text stands for itself. -/
theorem localize_eq_shown_translated : ∃ g, compile translatedFlow (.object translated) = .ok g ∧
    g.localization.localize (.string "hi") (.string "a1.text") = .ok (.string "namaste") ∧
    g.localization.localize (.string "fr") (.string "a1.text") = .ok (.string "hello") ∧
    g.localization.localize (.string "hi") (.string "title") = .ok (.string "Greeting") ∧
    g.localization.localize .null (.string "a2.text") = .ok (.string "a2.text") := by
  have hg : compile translatedFlow (.object translated) = .ok (graphOf translatedFlow translated
      translatedNodes [("a1.text", .string "hello")]
      [("hi", [("a1.text", "namaste")]), ("en", [("title", "Greeting")])]) := by
    refine compile_eq_ok.mpr ⟨translated, _, _, _, _, rfl, rfl, ?_, ?_, ?_, rfl⟩
    · decide
    · decide
    · decide
  have hanswer (requested : Option String) (key text : String)
      (htext : Authored.shown (.object translated) requested (some "en") key = text) :
      (graphOf translatedFlow translated translatedNodes [("a1.text", .string "hello")]
        [("hi", [("a1.text", "namaste")]), ("en", [("title", "Greeting")])]).localization.localize
          (textOrNull requested) (.string key) = .ok (.string text) := by
    rw [localize_eq_shown hg, ← htext]
    exact if_pos (.inl rfl)
  exact ⟨_, hg, hanswer (some "hi") "a1.text" "namaste" (by decide),
    hanswer (some "fr") "a1.text" "hello" (by decide),
    hanswer (some "hi") "title" "Greeting" (by decide),
    hanswer none "a2.text" "a2.text" (by decide)⟩

/-- A document that gives its language as a list compiles, and then a key without an override is refused. -/
theorem listed_language_refuses_texts :
    let d := { translatedFlow with language := some "" }
    let members := [("nodes", .array []), ("language", .array [.string "en"])]
    ∃ g, compile d (.object members) = .ok g ∧
      g.localization.localize .null (.string "greeting") = .error (.notAKey (.array [.string "en"])) := by
  intro d members
  refine ⟨graphOf d members [] [] [], compile_eq_ok.mpr ⟨_, _, _, _, _, rfl, rfl, ?_, ?_, ?_, rfl⟩, rfl⟩
  · decide
  · decide
  · decide

end DurableFlow.Flow
