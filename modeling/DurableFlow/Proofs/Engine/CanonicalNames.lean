import DurableFlow.Proofs.Engine.RegistryEntries
import DurableFlow.Proofs.Text.SpelledUuids

/-! Canonical names. Whatever names a UUID has the text in which the UUID is printed for its class, and nothing
else has it. So a registry finds the same flow under all spellings of its UUID. -/
namespace DurableFlow

/-! ## Names of UUIDs -/

/-- The identifier names the UUID: it is the UUID or a text that spells it. -/
inductive Identifier.Names (u : Uuid) : Identifier → Prop
  | uuid : Names u (.uuid u)
  | text {s : String} (spelled : u.SpelledBy s) : Names u (.value (.string s))

namespace Identifier

variable {u : Uuid} {i : Identifier}

/-- A text is a shortcode unless it spells a UUID. -/
theorem split?_string (s : String) : split? (.value (.string s)) = some (.shortcode s) ∨
    ∃ u : Uuid, u.SpelledBy s ∧ split? (.value (.string s)) = some (.uuid u.text) := by
  rw [split?]
  cases hread : Uuid.ofText? s with
  | none => exact .inl rfl
  | some u => exact .inr ⟨u, Uuid.ofText?_eq_some.mp hread, rfl⟩

/-- Only what names a UUID has the class of one. -/
theorem exists_names {t : String} (h : i.split? = some (.uuid t)) : ∃ u, i.Names u ∧ t = u.text := by
  have htext {u : Uuid} (h : some (FlowKey.uuid u.text) = some (.uuid t)) : t = u.text :=
    (FlowKey.uuid.inj (Option.some.inj h)).symm
  cases i with
  | uuid u => exact ⟨u, .uuid, htext h⟩
  | value v =>
    cases v with
    | string s =>
      obtain hcode | ⟨u, hspelled, huuid⟩ := split?_string s
      · cases hcode.symm.trans h
      · exact ⟨u, .text hspelled, htext (huuid.symm.trans h)⟩
    | null | bool | int | double | array | object => cases h

/-- The class of an identifier is that of a UUID just when it names the UUID. -/
theorem split?_eq_uuid_iff : i.split? = some (.uuid u.text) ↔ i.Names u := by
  constructor
  · intro h
    obtain ⟨v, hnames, htext⟩ := exists_names h
    exact Uuid.text_inj htext ▸ hnames
  · intro h
    cases h with
    | uuid => rfl
    | text spelled => rw [split?, Uuid.ofText?_eq_some.mpr spelled]

end Identifier

/-! ## Registries -/

namespace Registry

variable {r : Registry} {u : Uuid} {i : Identifier} {c : Compilation} {s : String}

/-- All names of a UUID are filed under one entry. -/
theorem entryOf_names (h : i.Names u) : entryOf i = some (.string u.text) := by
  rw [entryOf, Identifier.split?_eq_uuid_iff.mpr h]
  rfl

/-- A flow that is filed is found under all names of its UUID, in whichever way that is spelled. -/
theorem get?_insert_names (huuid : c.graph.uuid = some s) (hs : u.SpelledBy s) (h : i.Names u) :
    (r.insert c).get? i = some c := by
  have hentry : entryOf i ∈ entriesOf c.graph := by
    have hspelled : entryOf (.value (Flow.textOrNull c.graph.uuid)) = entryOf i := by
      rw [huuid, entryOf_names h]
      exact entryOf_names (.text hs)
    rw [← hspelled]
    simp [entriesOf]
  have hfiled (table : List (Option Json × Compilation)) :
      Table.find? (entryOf i) (filed c (entriesOf c.graph) table) = some c := by
    rw [find?_filed, if_pos hentry]
  exact hfiled _

end Registry

namespace Identifier

/-- Identifiers are normalized to a canonical form. A text is its own shortcode or has the class of a UUID, and
then in the form in which UUIDs are printed, which is normalized to itself. What names a UUID, however it is
written, has the text of that UUID for its class, and only that has it, so that two identifiers are
normalized to one text only if they name one UUID. Hence a registry finds the same flow, and the one that was
filed last with the UUID in any spelling, under all names of a UUID. -/
theorem split?_canonical :
    (∀ s, split? (.value (.string s)) = some (.shortcode s) ∨
      ∃ t, split? (.value (.string s)) = some (.uuid t) ∧ Uuid.Canonical t ∧
        split? (.value (.string t)) = some (.uuid t)) ∧
    (∀ u : Uuid, (∀ i : Identifier, i.split? = some (.uuid u.text) ↔ i.Names u) ∧
      ∀ cs, u.Written cs → Names u (.value (.string (String.ofList cs)))) ∧
    (∀ (i j : Identifier) t, i.split? = some (.uuid t) → j.split? = some (.uuid t) →
      ∃ u, i.Names u ∧ j.Names u) ∧
    ∀ (r : Registry) u (i j : Identifier), i.Names u → j.Names u → r.get? i = r.get? j ∧
      ∀ c s, c.graph.uuid = some s → u.SpelledBy s → (r.insert c).get? i = some c := by
  refine ⟨fun s => ?_, fun u => ⟨fun i => split?_eq_uuid_iff, fun cs h => .text h.spelledBy⟩,
    fun i j t hi hj => ?_, fun r u i j hi hj => ⟨?_, fun c s huuid hs => ?_⟩⟩
  · exact (split?_string s).imp_right fun ⟨u, _, huuid⟩ => ⟨u.text, huuid, u.canonical_text, split?_text u⟩
  · obtain ⟨u, hu, rfl⟩ := exists_names hi
    exact ⟨u, hu, split?_eq_uuid_iff.mp hj⟩
  · rw [Registry.get?, Registry.get?, Registry.entryOf_names hi, Registry.entryOf_names hj]
  · exact Registry.get?_insert_names huuid hs hi

/-- A flow whose UUID is saved in capitals and without hyphens is found under the UUID, and under a spelling in
braces and after the prefix. A text with a digit too many names no UUID. -/
theorem split?_canonical_capitals :
    let u : Uuid := ⟨⟨0x0123456789abcdef0123456789abcdef, by decide⟩⟩
    let capitals : Identifier := .value (.string "0123456789ABCDEF0123456789ABCDEF")
    let dressed : Identifier := .value (.string "urn:uuid:\x7b01234567-89ab-CDEF-0123-456789abcdef\x7d")
    let longer : Identifier := .value (.string "0123456789ABCDEF0123456789ABCDEF0")
    let g : Flow.Graph := ⟨some 1, some "0123456789ABCDEF0123456789ABCDEF", none, none, .null, .message, none,
      ⟨[]⟩, ⟨[], [], .null⟩, 0⟩
    let r := Registry.empty.insert ⟨0, g⟩
    (capitals.Names u ∧ dressed.Names u ∧ Names u (.uuid u)) ∧
      dressed.split? = some (.uuid "01234567-89ab-cdef-0123-456789abcdef") ∧
      longer.split? = some (.shortcode "0123456789ABCDEF0123456789ABCDEF0") ∧
      r.get? dressed = some ⟨0, g⟩ ∧ r.get? dressed = r.get? (.uuid u) := by
  intro u capitals dressed longer g r
  obtain ⟨-, huuids, -, hregistry⟩ := split?_canonical
  obtain ⟨hclass, hwritten⟩ := huuids u
  have hdigits : ("0123456789ABCDEF0123456789ABCDEF".toList.filter (· ≠ '-')).map Char.toLower =
      Text.hexText 32 u.value.val := by decide
  have hhyphens : ("01234567-89ab-CDEF-0123-456789abcdef".toList.filter (· ≠ '-')).map Char.toLower =
      Text.hexText 32 u.value.val := by decide
  have hcapitals : capitals.Names u := hwritten _ (.digits hdigits)
  have hdressed : dressed.Names u := hwritten _ (.prefixed (.braced (.digits hhyphens)))
  have htext : u.text = "01234567-89ab-cdef-0123-456789abcdef" := by decide
  have hspelled : u.SpelledBy "0123456789ABCDEF0123456789ABCDEF" := Uuid.Written.spelledBy (.digits hdigits)
  have hlonger : longer.split? = some (.shortcode "0123456789ABCDEF0123456789ABCDEF0") := by decide
  obtain ⟨-, hfound⟩ := hregistry .empty u dressed capitals hdressed hcapitals
  obtain ⟨hsame, -⟩ := hregistry r u dressed (.uuid u) hdressed .uuid
  exact ⟨⟨hcapitals, hdressed, .uuid⟩, htext ▸ (hclass dressed).mpr hdressed, hlonger,
    hfound ⟨0, g⟩ _ rfl hspelled, hsame⟩

end Identifier
end DurableFlow
