import DurableFlow.Proofs.Engine.CanonicalNames
import DurableFlow.Proofs.Engine.RefreshedRegistries
import DurableFlow.Proofs.Store.NamedFlows

/-! Names under which a registry files a flow: its number, its UUID and its shortcode. Where UUIDs are
spelled as they are printed, and shortcodes spell none, they are the names by which a store reads it. -/
namespace DurableFlow.Engine
open DurableFlow.Flow (Definition)
open DurableFlow.Store (Memory)

/-- A flow whose UUID is spelled as it is printed, and whose shortcode spells no UUID. -/
structure WellNamed (d : Definition) : Prop where
  uuid : ∃ u : Uuid, d.uuid = some u.text
  shortcode : ∃ code, d.shortcode = some code ∧ Uuid.ofText? code = none

def entriesOf (d : Definition) : List (Option Json) :=
  [Flow.intOrNull d.id, Flow.textOrNull d.uuid, Flow.textOrNull d.shortcode].map fun v =>
    Registry.entryOf (.value v)

variable {d d' : Definition} {key : FlowKey} {i : Identifier} {n : Int} {s : Store}
  {previous r r' : Registry} {rows : List (Definition × Json)}

/-! ## Names and entries -/

private theorem unspelled_of_split? {t : String} (h : i.split? = some (.shortcode t)) :
    Uuid.ofText? t = none := by
  cases i with
  | uuid u => cases h
  | value v =>
    cases v with
    | string text =>
      simp only [Identifier.split?] at h
      split at h
      · cases h
      · rename_i hnone
        cases h
        exact hnone
    | null | bool | int | double | array | object => cases h

private theorem WellNamed.entries (h : WellNamed d) (hid : d.id = some n) : ∃ (u : Uuid) (code : String),
    d.uuid = some u.text ∧ d.shortcode = some code ∧ Uuid.ofText? code = none ∧
      entriesOf d = [some (.int n), some (.string u.text), some (.string code)] := by
  obtain ⟨u, hu⟩ := h.uuid
  obtain ⟨code, hcode, hnone⟩ := h.shortcode
  have hspelled : Registry.entryOf (.value (.string u.text)) = some (.string u.text) := by
    rw [Registry.entryOf, Identifier.split?_text]
    rfl
  have hother : Registry.entryOf (.value (.string code)) = some (.string code) := by
    rw [Registry.entryOf, Identifier.split?, hnone]
    rfl
  refine ⟨u, code, hu, hcode, hnone, ?_⟩
  rw [entriesOf, hid, hu, hcode, ← hspelled, ← hother]
  rfl

/-- A flow is filed under the entry of a name if and only if it carries the name. -/
theorem WellNamed.entry_iff (h : WellNamed d) (hid : d.id = some n) (hi : i.split? = some key) :
    some key.entry ∈ entriesOf d ↔ Memory.answersTo key d = true := by
  obtain ⟨u, code, hu, hcode, hnone, hentries⟩ := h.entries hid
  rw [hentries]
  cases key with
  | id m => simp [FlowKey.entry, Memory.answersTo, hid, eq_comm (a := n)]
  | uuid t =>
    obtain ⟨w, -, rfl⟩ := Identifier.exists_names hi
    have hne : w.text ≠ code := by
      rintro rfl
      cases w.ofText?_text.symm.trans hnone
    simp [FlowKey.entry, Memory.answersTo, hu, hne, eq_comm (a := u.text)]
  | shortcode t =>
    have hne : t ≠ u.text := by
      rintro rfl
      cases u.ofText?_text.symm.trans (unspelled_of_split? hi)
    simp [FlowKey.entry, Memory.answersTo, hcode, hne, eq_comm (a := code)]

/-- Every entry of a flow is that of a name. -/
theorem WellNamed.named (h : WellNamed d) (hid : d.id = some n) {entry : Option Json}
    (he : entry ∈ entriesOf d) : ∃ i key, Identifier.split? i = some key ∧ entry = some key.entry := by
  obtain ⟨u, code, -, -, hnone, hentries⟩ := h.entries hid
  rw [hentries] at he
  simp only [List.mem_cons, List.not_mem_nil, or_false] at he
  rcases he with rfl | rfl | rfl
  · exact ⟨(n : Identifier), .id n, rfl, rfl⟩
  · exact ⟨.uuid u, .uuid u.text, rfl, rfl⟩
  · refine ⟨.value (.string code), .shortcode code, ?_, rfl⟩
    rw [Identifier.split?, hnone]

/-! ## Loads -/

/-- What stands for a row has the names of its flow. -/
theorem StandsFor.names {body : List (String × Json)} {c : Compilation} (h : StandsFor previous d body c) :
    c.graph.uuid = d.uuid ∧ c.graph.shortcode = d.shortcode := by
  obtain ⟨-, hcurrent⟩ | hcompile := h
  · simp only [Registry.isCurrent, Bool.and_eq_true, decide_eq_true_eq] at hcurrent
    exact ⟨hcurrent.1.1.1.1.1.2, hcurrent.1.1.1.1.2⟩
  · obtain ⟨_, _, _, _, _, -, -, -, -, -, hgraph⟩ := Flow.compile_eq_ok.mp hcompile
    rw [hgraph]
    exact ⟨rfl, rfl⟩

private theorem StandsFor.entries {body : List (String × Json)} {c : Compilation}
    (h : StandsFor previous d body c) : Registry.entriesOf c.graph = entriesOf d := by
  rw [Registry.entriesOf, entriesOf, h.id, h.names.1, h.names.2]

def NoSharedEntries (rows : List (Definition × Json)) : Prop :=
  rows.Pairwise fun x y => ∀ entry ∈ entriesOf x.1, entry ∉ entriesOf y.1

/-- A load files each row under all its entries, or under none, and touches no other entry. -/
theorem Loads.finds (h : Loads previous rows r r') (hawaited : FreshRows rows r) (hapart : NoSharedEntries rows) :
    (∀ entry, (∀ row ∈ rows, entry ∉ entriesOf row.1) →
      Table.find? entry r'.entries = Table.find? entry r.entries) ∧
    ∀ row ∈ rows, ∃ body, Flow.clean row.2 = .ok body ∧
      ((∃ c, StandsFor previous row.1 body c ∧
        ∀ entry ∈ entriesOf row.1, Table.find? entry r'.entries = some c) ∨
      ((∀ g, Flow.compile row.1 (.object body) ≠ .ok g) ∧
        ∀ entry ∈ entriesOf row.1, Table.find? entry r'.entries = Table.find? entry r.entries)) := by
  induction h with
  | done r =>
    refine ⟨fun _ _ => rfl, ?_⟩
    intro row hrow
    cases hrow
  | @filed d raw rest r r' body c cleaned stands next ih =>
    obtain ⟨m, hm⟩ := hawaited.numbered _ List.mem_cons_self
    obtain ⟨hnone, -⟩ := hawaited.free _ List.mem_cons_self m hm
    obtain ⟨hfirst, hrest⟩ := List.pairwise_cons.mp hapart
    obtain ⟨hothers, hrows⟩ := ih (hawaited.next_filed stands.id) hrest
    have hfiled (entry : Option Json) :
        Table.find? entry ((r.insert c).mend (d.id.getD 0)).entries =
          if entry ∈ entriesOf d then some c else Table.find? entry r.entries :=
      stands.entries ▸ Registry.find?_insert (stands.id.trans hm) hnone entry
    constructor
    · intro entry hentry
      obtain ⟨hd, hentries⟩ := List.forall_mem_cons.mp hentry
      exact (hothers entry hentries).trans ((hfiled entry).trans (if_neg hd))
    · intro row hrow
      rcases List.mem_cons.mp hrow with rfl | hmem
      · refine ⟨body, cleaned, .inl ⟨c, stands, fun entry hentry => ?_⟩⟩
        have huntouched := hothers entry fun row hrow => hfirst row hrow entry hentry
        exact huntouched.trans ((hfiled entry).trans (if_pos hentry))
      · obtain ⟨body', cleaned', hfound | ⟨hfailed, hmissed⟩⟩ := hrows row hmem
        · exact ⟨body', cleaned', .inl hfound⟩
        · refine ⟨body', cleaned', .inr ⟨hfailed, fun entry hentry => ?_⟩⟩
          have hnot : entry ∉ entriesOf d := fun hd => hfirst row hmem entry hd hentry
          exact (hmissed entry hentry).trans ((hfiled entry).trans (if_neg hnot))
  | @refused d raw rest r r' body fault cleaned failed next ih =>
    obtain ⟨hfirst, hrest⟩ := List.pairwise_cons.mp hapart
    obtain ⟨hothers, hrows⟩ := ih (hawaited.next_refused _) hrest
    constructor
    · intro entry hentry
      exact hothers entry (List.forall_mem_cons.mp hentry).2
    · intro row hrow
      rcases List.mem_cons.mp hrow with rfl | hmem
      · refine ⟨body, cleaned, .inr ⟨fun g hg => ?_, fun entry hentry => ?_⟩⟩
        · cases hg.symm.trans failed
        · exact hothers entry fun row hrow => hfirst row hrow entry hentry
      · exact hrows row hmem

/-- The rows of a load are apart, for no two flows of a store carry one name. -/
theorem apart_of_named (h : s.Identified) (hnamed : ∀ n e, s.flowAt n = some e → WellNamed e)
    (hrows : s.activeFlows none = .ok rows) (honce : (rows.map fun row => row.1.id).Nodup) :
    NoSharedEntries rows := by
  refine (List.pairwise_map.mp honce).imp_of_mem ?_
  intro x y hx hy hne entry hentry hentry'
  obtain ⟨m, d, hd, hid, hxd⟩ := h.activeFlows hrows x hx
  obtain ⟨n, e, he, hid', hye⟩ := h.activeFlows hrows y hy
  have hentries : entry ∈ entriesOf d := by
    rw [hxd] at hentry
    exact hentry
  have hentries' : entry ∈ entriesOf e := by
    rw [hye] at hentry'
    exact hentry'
  obtain ⟨i, key, hi, rfl⟩ := (hnamed m d hd).named hid hentries
  have hm := ((hnamed m d hd).entry_iff hid hi).mp hentries
  have hn := ((hnamed n e he).entry_iff hid' hi).mp hentries'
  have hmn : m = n := h.eq_of_answers hd he hm hn
  rw [hxd, hye] at hne
  exact hne (hid.trans (hmn ▸ hid'.symm))

end DurableFlow.Engine
