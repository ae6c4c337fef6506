import DurableFlow.Proofs.Flow.LocalizedTexts
import DurableFlow.Proofs.Flow.WrittenTexts
import DurableFlow.Proofs.Store.Ledgers

/-! Flattened texts. A localization block may group the texts of a language by item or give them flat. Either
way the last text under a content key is kept, so a block that has been flattened is flat already, and a
document says the same with it. -/
namespace DurableFlow

/-! ## Tables without repeated keys -/

namespace Table
variable {κ α : Type} [DecidableEq κ] {table entries : List (κ × α)}

theorem nodup_keys_merge (h : (table.map Prod.fst).Nodup) (entries : List (κ × α)) :
    ((merge table entries).map Prod.fst).Nodup := by
  induction entries generalizing table with
  | nil => exact h
  | cons e rest ih => exact ih (nodup_keys_put h)

/-- Entries under new keys come last, as they are. -/
theorem merge_eq_append (h : ((table ++ entries).map Prod.fst).Nodup) : merge table entries = table ++ entries := by
  induction entries generalizing table with
  | nil => exact (List.append_nil table).symm
  | cons e rest ih =>
    have hnew : e.1 ∉ table.map Prod.fst := by
      rw [List.map_append, List.nodup_append] at h
      exact fun hmem => h.2.2 _ hmem _ List.mem_cons_self rfl
    have happend : table ++ e :: rest = (table ++ [e]) ++ rest := by simp
    have hput : merge table (e :: rest) = merge (put e.1 e.2 table) rest := rfl
    rw [hput, put_eq_append hnew, happend]
    exact ih (happend ▸ h)

end Table

namespace Flow
open Json (valuesAt)

variable {entries : List (String × Json)} {key s : String}

/-! ## The forms of a block -/

def blockOf (table : List (String × List (String × String))) : Json :=
  .object (table.map fun (language, texts) =>
    (language, .object (texts.map fun (key, s) => (key, .string s))))

def localizedBy (block : Json) (members : List (String × Json)) : List (String × Json) :=
  Table.put "localization" block members

/-- What the entries of a language give, in document order, each under its content key: an item has fields
with content keys of their own, and anything else stands under its own name. -/
def keyedEntries (entries : List (String × Json)) : List (String × Json) :=
  entries.flatMap fun (name, v) =>
    match v with
    | .object fields => fields.map fun (field, x) => (contentKey (.string name) (.string field), x)
    | v => [(name, v)]

/-- The text of the last entry that has a content key and carries a text. -/
inductive LastText (entries : List (String × Json)) (key s : String) : Prop
  | mk (before after : List (String × Json)) (v : Json)
      (order : keyedEntries entries = before ++ (key, v) :: after) (text : textOf? v = some s)
      (last : ∀ x ∈ after, x.1 = key → textOf? x.2 = none) : LastText entries key s

def textAt? (table : List (String × List (String × String))) (language key : String) : Option String :=
  (Table.find? language table).bind (Table.find? key)

/-! ## The last text -/

private def textUnder (key : String) (x : String × Json) : Option String :=
  if x.1 = key then textOf? x.2 else none

private theorem valuesAt_entryWrites (key : String) (entries : List (String × Json)) :
    valuesAt key (entries.flatMap entryWrites) = (keyedEntries entries).filterMap (textUnder key) := by
  have hone (name : String) (v : Json) :
      valuesAt key ((textOf? v).map fun s => (name, s)).toList = (textUnder key (name, v)).toList := by
    unfold textUnder
    by_cases hname : name = key
    · cases textOf? v <;> simp [valuesAt, hname]
    · cases textOf? v <;> simp [valuesAt, hname]
  have hlist (x : String × Json) : [x].filterMap (textUnder key) = (textUnder key x).toList := by
    cases h : textUnder key x <;> simp [h]
  rw [valuesAt_flatMap, keyedEntries, List.filterMap_flatMap]
  refine congrArg (fun f => entries.flatMap f) (funext fun m => ?_)
  obtain ⟨name, v⟩ := m
  cases v with
  | object fields =>
    change valuesAt key (groupWrites name fields) = _
    rw [groupWrites, valuesAt_flatMap, List.filterMap_map, List.filterMap_eq_flatMap_toList]
    exact congrArg (fun f => fields.flatMap f) (funext fun m => hone _ _)
  | _ =>
    simp only [entryWrites]
    exact (hone name _).trans (hlist _).symm

private theorem getLast?_filterMap {α β : Type} {f : α → Option β} {xs : List α} {b : β} :
    (xs.filterMap f).getLast? = some b ↔
      ∃ before x after, xs = before ++ x :: after ∧ f x = some b ∧ ∀ y ∈ after, f y = none := by
  rw [List.getLast?_eq_head?_reverse, ← List.filterMap_reverse, List.head?_filterMap,
    List.findSome?_eq_some_iff]
  constructor
  · rintro ⟨after, x, before, hreverse, hx, hafter⟩
    refine ⟨before.reverse, x, after.reverse, ?_, hx, fun y hy => hafter y (List.mem_reverse.mp hy)⟩
    rw [← List.reverse_inj, hreverse]
    simp
  · rintro ⟨before, x, after, rfl, hx, hafter⟩
    exact ⟨after.reverse, x, before.reverse, by simp, hx, fun y hy => hafter y (List.mem_reverse.mp hy)⟩

/-- The texts of a language are the last ones of its entries. -/
theorem find?_entryTexts : Table.find? key (entryTexts entries) = some s ↔ LastText entries key s := by
  have hlast : Table.find? key (entryTexts entries) =
      ((keyedEntries entries).filterMap (textUnder key)).getLast? := by
    rw [entryTexts_eq_merge, find?_merge, valuesAt_entryWrites]
    exact Option.or_none
  rw [hlast, getLast?_filterMap]
  constructor
  · rintro ⟨before, ⟨k, v⟩, after, order, hx, hafter⟩
    obtain ⟨rfl, text⟩ := Option.ite_none_right_eq_some.mp hx
    exact ⟨before, after, v, order, text, fun y hy hk => (if_pos hk).symm.trans (hafter y hy)⟩
  · rintro ⟨before, after, v, order, text, last⟩
    refine ⟨before, (key, v), after, order, (if_pos rfl).trans text, fun y hy => ?_⟩
    by_cases hk : y.1 = key
    · exact (if_pos hk).trans (last y hy hk)
    · exact if_neg hk

variable {languages : List (String × Json)} {table : List (String × List (String × String))}

private theorem mem_blockTexts {language : String} {texts : List (String × String)} :
    (language, texts) ∈ blockTexts languages ↔
      ∃ entries, (language, .object entries) ∈ languages ∧ texts = entryTexts entries := by
  rw [blockTexts, List.mem_filterMap]
  constructor
  · rintro ⟨⟨l, v⟩, hmem, htexts⟩
    cases v with
    | object entries =>
      cases htexts
      exact ⟨entries, hmem, rfl⟩
    | _ => cases htexts
  · rintro ⟨entries, hmem, rfl⟩
    exact ⟨(language, .object entries), hmem, rfl⟩

private theorem names_blockTexts_sublist (languages : List (String × Json)) :
    ((blockTexts languages).map Prod.fst).Sublist (languages.map Prod.fst) := by
  induction languages with
  | nil => exact .slnil
  | cons m rest ih =>
    obtain ⟨language, v⟩ := m
    cases v with
    | object entries => exact ih.cons_cons language
    | _ => exact ih.cons language

private theorem textAt?_blockTexts (h : (languages.map Prod.fst).Nodup) {language : String} :
    textAt? (blockTexts languages) language key = some s ↔
      ∃ entries, (language, .object entries) ∈ languages ∧ LastText entries key s := by
  rw [textAt?, Option.bind_eq_some_iff]
  constructor
  · rintro ⟨texts, hfound, htext⟩
    obtain ⟨entries, hmem, rfl⟩ := mem_blockTexts.mp (Table.mem_of_find?_eq_some hfound)
    exact ⟨entries, hmem, find?_entryTexts.mp htext⟩
  · rintro ⟨entries, hmem, hlast⟩
    have hnames := h.sublist (names_blockTexts_sublist languages)
    exact ⟨entryTexts entries, Table.find?_eq_some_of_mem hnames (mem_blockTexts.mpr ⟨entries, hmem, rfl⟩),
      find?_entryTexts.mpr hlast⟩

/-! ## Flat blocks -/

private theorem entryTexts_flat {texts : List (String × String)} (h : (texts.map Prod.fst).Nodup) :
    entryTexts (texts.map fun (key, s) => (key, .string s)) = texts := by
  have hwrites : (texts.map fun (key, s) => (key, Json.string s)).flatMap entryWrites = texts := by
    rw [List.flatMap_map]
    exact List.flatMap_singleton' texts
  rw [entryTexts_eq_merge, hwrites]
  exact Table.merge_eq_append h

private theorem flatten_object (languages : List (String × Json)) :
    flatten (.object languages) = .ok (blockTexts languages) := by
  cases languages <;> rfl

private theorem flatten_blockOf (h : ∀ m ∈ table, (m.2.map Prod.fst).Nodup) :
    flatten (blockOf table) = .ok table := by
  have hkept : blockTexts (table.map fun (language, texts) =>
      (language, .object (texts.map fun (key, s) => (key, .string s)))) = table := by
    rw [blockTexts, List.filterMap_map]
    refine (List.filterMap_congr fun m hm => ?_).trans List.filterMap_some
    exact congrArg some (congrArg (m.1, ·) (entryTexts_flat (h m hm)))
  rw [blockOf, flatten_object, hkept]

private theorem flatten_flatten {v : Json} (h : flatten v = .ok table) : flatten (blockOf table) = .ok table := by
  rw [flatten_eq_ok h]
  refine flatten_blockOf fun m hm => ?_
  obtain ⟨entries, -, htexts⟩ := mem_blockTexts.mp hm
  have hnone : (([] : List (String × String)).map Prod.fst).Nodup := List.nodup_nil
  rw [htexts, entryTexts_eq_merge]
  exact Table.nodup_keys_merge hnone _

/-! ## Documents with flattened blocks -/

variable {members : List (String × Json)}

private theorem findD_localizedBy {name : String} (h : name ≠ "localization") (block : Json) :
    Json.findD name (localizedBy block members) = Json.findD name members := by
  rw [Json.findD, Json.find?, localizedBy, Table.find?_put, if_neg h.symm]
  rfl

private theorem localize_of_textAt? {language : String} (h : textAt? table language key = some s)
    (defaults : Keyed Json) (own : Json) :
    Localization.localize ⟨table.map fun (l, texts) => (l, Keyed.ofTexts .string texts), defaults, own⟩
      (.string language) (.string key) = .ok (.string s) := by
  obtain ⟨texts, hfound, htext⟩ := Option.bind_eq_some_iff.mp h
  have hkey : Keyed.find? (.string key) (Keyed.ofTexts Json.string texts) = some (.string s) := by
    rw [Keyed.find?_ofTexts, htext]
    rfl
  rw [Localization.localize, Localization.override?_texts, Localization.texts?, find?_map_values, hfound,
    Option.map_some, Option.bind_some, hkey]
  rfl

private theorem bind_eq_map {α β : Type} {x : Except Failure α} {f f' : α → Except Failure β} {k : β → β}
    (h : ∀ a, f a = (f' a).map k) : x >>= f = (x >>= f').map k := by
  cases x with
  | ok a => exact h a
  | error => rfl

private theorem compile_localizedBy (d : Definition)
    (h : flatten (Json.findD "localization" members) = .ok table) :
    let flat := Json.object (localizedBy (blockOf table) members)
    compile d flat = (compile d (.object members)).map fun g => { g with checksum := flat.checksum } := by
  intro flat
  have hlanguage : languageOf d (localizedBy (blockOf table) members) = languageOf d members := by
    unfold languageOf
    rw [findD_localizedBy (by decide)]
  have hblock : Json.findD "localization" (localizedBy (blockOf table) members) = blockOf table := by
    rw [Json.findD, Json.find?, localizedBy, Table.find?_put, if_pos rfl]
    rfl
  simp only [compile, flat]
  rw [findD_localizedBy (by decide), hlanguage, hblock, flatten_flatten h, h]
  cases Json.findD "nodes" members with
  | array values => exact bind_eq_map fun read => bind_eq_map fun _ => rfl
  | _ => rfl

/-- Both forms of a localization block mean the same. A block that is flattened is an object that flattening
keeps, and the text that it has in a language under a content key is the last one that the entries of the
language have there. A document is compiled with its block flattened just as it is without, but for the
checksum, and all its texts stay. -/
theorem flattened_alike :
    (∀ languages, ∃ table, flatten (.object languages) = .ok table ∧ flatten (blockOf table) = .ok table ∧
      ((languages.map Prod.fst).Nodup → ∀ language key s, textAt? table language key = some s ↔
        ∃ entries, (language, .object entries) ∈ languages ∧ LastText entries key s)) ∧
    (∀ d members table, flatten (Json.findD "localization" members) = .ok table →
      let flat := Json.object (localizedBy (blockOf table) members)
      compile d flat = (compile d (.object members)).map fun g => { g with checksum := flat.checksum }) ∧
    ∀ d members g, compile d (.object members) = .ok g →
      ∃ table g', flatten (Json.findD "localization" members) = .ok table ∧
        compile d (.object (localizedBy (blockOf table) members)) = .ok g' ∧
        (∀ language key, g'.localization.localize language key = g.localization.localize language key) ∧
        ∀ language key s, textAt? table language key = some s →
          g.localization.localize (.string language) (.string key) = .ok (.string s) := by
  refine ⟨fun languages => ?_, fun d members table h => compile_localizedBy d h, fun d members g hg => ?_⟩
  · have hflatten := flatten_object languages
    exact ⟨_, hflatten, flatten_flatten hflatten, fun hnames _ _ _ => textAt?_blockTexts hnames⟩
  · obtain ⟨_, _, _, _, table, hmembers, -, -, -, htable, rfl⟩ := compile_eq_ok.mp hg
    cases hmembers
    exact ⟨table, _, htable, (compile_localizedBy d htable).trans (congrArg _ hg), fun _ _ => rfl,
      fun _ _ _ htext => localize_of_textAt? htext _ _⟩

/-- Of two texts for one content key the later is kept, though it is given flat and the other is grouped,
and though no text comes after it. A language without texts is kept, and what is no object is not. -/
theorem flattened_alike_mixed :
    let languages : List (String × Json) :=
      [("es", .object [("n1", .object [("text", .array [.string "Hola"]), ("hint", .int 3)]),
        ("n1.text", .string "Buenas"), ("n1.hint", .null)]), ("fr", .string "broken"), ("de", .object [])]
    let table := [("es", [("n1.text", "Buenas")]), ("de", [])]
    let members := [("nodes", .array []), ("localization", .object languages)]
    let d : Definition := ⟨none, none, none, none, .message, none, some 1, []⟩
    ((languages.map Prod.fst).Nodup ∧ flatten (.object languages) = .ok table) ∧
      flatten (blockOf table) = .ok table ∧ textAt? table "es" "n1.text" = some "Buenas" ∧
      ∃ g g', compile d (.object members) = .ok g ∧
        compile d (.object (localizedBy (blockOf table) members)) = .ok g' ∧
        g'.checksum = (Json.object (localizedBy (blockOf table) members)).checksum ∧
        g.localization.localize (.string "es") (.string "n1.text") = .ok (.string "Buenas") ∧
        g'.localization.localize (.string "es") (.string "n1.text") = .ok (.string "Buenas") := by
  intro languages table members d
  have hnames : (languages.map Prod.fst).Nodup := by decide
  have htable : flatten (.object languages) = .ok table := by decide
  have hlast : LastText [("n1", .object [("text", .array [.string "Hola"]), ("hint", .int 3)]),
      ("n1.text", .string "Buenas"), ("n1.hint", .null)] "n1.text" "Buenas" :=
    ⟨[("n1.text", .array [.string "Hola"]), ("n1.hint", .int 3)], [("n1.hint", .null)], .string "Buenas",
      by decide, rfl, by decide⟩
  have hg : compile d (.object members) = .ok (graphOf d members [] [] table) :=
    compile_eq_ok.mpr ⟨members, [], [], [], table, rfl, rfl, rfl, fun _ hn => (List.not_mem_nil hn).elim,
      htable, rfl⟩
  obtain ⟨hblocks, hcompile, hdocuments⟩ := flattened_alike
  obtain ⟨_, hflatten, hflat, htexts⟩ := hblocks languages
  cases hflatten.symm.trans htable
  have htext := (htexts hnames "es" "n1.text" "Buenas").mpr ⟨_, List.mem_cons_self, hlast⟩
  obtain ⟨_, g', hflatten, hg', hsame, hshown⟩ := hdocuments d members _ hg
  cases hflatten.symm.trans htable
  have hchecksum : g'.checksum = (Json.object (localizedBy (blockOf table) members)).checksum := by
    have hequal := hcompile d members table htable
    dsimp only at hequal
    rw [hg, hg'] at hequal
    cases hequal
    rfl
  have hes := hshown "es" "n1.text" "Buenas" htext
  exact ⟨⟨hnames, htable⟩, hflat, htext, _, g', hg, hg', hchecksum, hes, (hsame _ _).trans hes⟩

end Flow
end DurableFlow
