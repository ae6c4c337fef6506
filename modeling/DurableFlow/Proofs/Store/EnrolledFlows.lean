import DurableFlow.Proofs.Store.PublishedRevisions

/-! Flows with numbers, UUIDs and shortcodes of their own. A flow that is saved in memory or in tables
takes its place under its number; the counters of these stores stay ahead of all numbers. -/
namespace DurableFlow.Store
open DurableFlow.Flow (Definition)

def flowIds : Store → List Int
  | .memory m => m.flows.map Prod.fst
  | .rows r => r.flows.map FlowRow.id
  | .keys k =>
    match k.server.numbers (k.key ["flows"]) with
    | .ok set => set.map Prod.fst
    | .error _ => []

def flowAt (n : Int) : Store → Option Definition
  | .memory m => Table.find? n m.flows
  | .rows r => (r.flows.find? (·.id = n)).map FlowRow.definition
  | .keys k =>
    match Table.find? (k.flowKey n) k.server with
    | some (.flow row) => some row.definition
    | _ => none

def revisionsAt (n : Int) : Store → List Flow.Revision
  | .memory m => m.revisionsOf n
  | .rows r => r.revisionsOf n
  | .keys k =>
    match k.server.snapshots (k.revisionsKey n) with
    | .ok items => items.mapIdx fun number x => x.revision n number
    | .error _ => []

def numbered (d : Definition) (n : Int) : Definition := { d with id := some n, revisions := [] }

def Keys.Owns (k : Keys) (name : FlowRow → String) (table : List (String × Int)) : Prop :=
  ∀ u n, Table.find? u table = some n ↔
    ∃ row, Table.find? (k.flowKey n) k.server = some (.flow row) ∧ name row = u

/-- What a store keeps beside its flows: a counter ahead of their numbers, or the owners of their
names. Numbers in tables fit their column. -/
def Bookkept : Store → Prop
  | .memory m => ∀ n ∈ m.flows.map Prod.fst, n < m.nextFlow
  | .rows r => r.connected = true ∧ 0 ≤ r.sequence ∧
      ∀ n ∈ r.flows.map FlowRow.id, n ≤ r.sequence ∧ Rows.checkSize n = .ok ()
  | .keys k => k.connected = true ∧
      (∀ n e, Table.find? (k.flowKey n) k.server = some e → ∃ row, e = .flow row) ∧
      (∀ n, ∃ items, k.server.snapshots (k.revisionsKey n) = .ok items) ∧
      (∃ set, k.server.numbers (k.key ["flows"]) = .ok set) ∧
      (∃ table, k.server.owners (k.key ["flow_by_uuid"]) = .ok table ∧ k.Owns FlowRow.uuid table) ∧
      ∃ table, k.server.owners (k.key ["flow_by_shortcode"]) = .ok table ∧
        k.Owns FlowRow.shortcode table

/-- A store whose flows have numbers, UUIDs and shortcodes of their own. -/
structure Identified (s : Store) : Prop where
  once : s.flowIds.Nodup
  listed : ∀ n, n ∈ s.flowIds ↔ (s.flowAt n).isSome
  own : ∀ n d, s.flowAt n = some d → d.id = some n
  unique : ∀ m n d e, s.flowAt m = some d → s.flowAt n = some e →
    d.uuid = e.uuid ∨ d.shortcode = e.shortcode → m = n
  bookkept : s.Bookkept

/-- A flow has taken its place under a number, its own or a new one, and no other flow of the store
has changed or has one of its names. -/
structure Enrolled (s : Store) (d : Definition) (n : Int) (t : Store) : Prop where
  kind : t.kind = s.kind
  given : ∀ m, d.id = some m → n = m
  flowAt : ∀ m, t.flowAt m = if m = n then some (numbered d n) else s.flowAt m
  revisionsAt : ∀ m, m ≠ n → t.revisionsAt m = s.revisionsAt m
  once : s.flowIds.Nodup → t.flowIds.Nodup
  listed : ∀ m, m ∈ t.flowIds ↔ m = n ∨ m ∈ s.flowIds
  free : ∀ m e, s.flowAt m = some e → e.uuid = d.uuid ∨ e.shortcode = d.shortcode → m = n
  bookkept : t.Bookkept

/-- Whether a save that draws a number draws one that no flow has. Only a server relies on it: the
counters of the other stores stay ahead of all numbers. -/
def drawsFree (s : Store) (d : Definition) : Bool :=
  match s, d.id with
  | .keys k, none =>
    match k.server.counter (k.key ["flow_seq"]) with
    | .ok count => decide (count + 1 ∉ s.flowIds)
    | .error _ => true
  | _, _ => true

/-- A store stays as it should be when a flow takes its place. -/
theorem Identified.enroll {s t : Store} {d : Definition} {n : Int} (h : s.Identified)
    (he : Enrolled s d n t) : t.Identified := by
  refine ⟨he.once h.once, ?_, ?_, ?_, he.bookkept⟩
  · intro m
    rw [he.listed, he.flowAt, h.listed]
    split <;> simp_all
  · intro m e hm
    rw [he.flowAt] at hm
    split at hm
    · rename_i hmn
      cases hm
      exact hmn ▸ rfl
    · exact h.own m e hm
  · intro m m' e e' hm hm' hnames
    rw [he.flowAt] at hm hm'
    split at hm
    · rename_i hmn
      split at hm'
      · rename_i hmn'
        exact hmn.trans hmn'.symm
      · cases hm
        have hsame := he.free m' e' hm' (hnames.imp Eq.symm Eq.symm)
        exact hmn.trans hsame.symm
    · split at hm'
      · rename_i hmn'
        cases hm'
        exact (he.free m e hm hnames).trans hmn'.symm
      · exact h.unique m m' e e' hm hm' hnames

/-! ## In memory -/

namespace Memory
variable {m m' : Memory} {d d' : Definition}

private theorem eq_of_not_taken (h : (Store.memory m).Identified) (ht : ¬ m.isTaken d = true)
    {k : Int} {f : Definition} (hf : Table.find? k m.flows = some f)
    (hnames : f.uuid = d.uuid ∨ f.shortcode = d.shortcode) : d.id = some k := by
  by_contra hid
  apply ht
  refine List.any_eq_true.mpr ⟨(k, f), Table.mem_of_find?_eq_some hf, ?_⟩
  have hown : f.id = some k := h.own k f hf
  simp [hown, Ne.symm hid, hnames]

theorem saveFlow_enrolled (h : (Store.memory m).Identified)
    (ho : m.saveFlow d = .ok (d', m')) : ∃ n, d' = { d with id := some n } ∧
      Enrolled (.memory m) d n (.memory m') ∧ (d.id = none → n ∉ (Store.memory m).flowIds) := by
  unfold saveFlow at ho
  split at ho
  · cases ho
  rename_i ht
  cases ho
  refine ⟨d.id.getD m.nextFlow, rfl, ?_, ?_⟩
  · constructor
    · rfl
    · intro k hk
      simp [hk]
    · intro k
      simp only [Store.flowAt, Table.find?_put, eq_comm (a := k), numbered]
    · intro k hk
      simp only [Store.revisionsAt, revisionsOf]
      split
      · rfl
      · rw [Table.find?_put, if_neg hk.symm]
    · exact Table.nodup_keys_put
    · intro k
      exact Table.mem_keys_put
    · intro k f hf hnames
      simp [eq_of_not_taken h ht hf hnames]
    · intro k hk
      rcases Table.mem_keys_put.mp hk with rfl | hold
      · exact Int.lt_of_lt_of_le (Int.lt_succ _) (Int.le_max_right _ _)
      · exact Int.lt_of_lt_of_le (h.bookkept k hold) (Int.le_max_left _ _)
  · intro hnone hmem
    rw [hnone] at hmem
    exact Int.lt_irrefl _ (h.bookkept _ hmem)

theorem getFlow_id (hown : ∀ x ∈ m.flows, x.2.id = some x.1) (n : Int) :
    m.getFlow (.id n) = (Table.find? n m.flows).map fun d =>
      { d with revisions := m.revisionsOf n } := by
  have hfind : m.flows.find? (fun x => answersTo (.id n) x.2) =
      (Table.find? n m.flows).map fun d => (n, d) := by
    generalize m.flows = flows at hown ⊢
    induction flows with
    | nil => rfl
    | cons x rest ih =>
      obtain ⟨hx, hrest⟩ := List.forall_mem_cons.mp hown
      by_cases hn : x.1 = n
      · simp [answersTo, Table.find?, hx, ← hn]
      · simp [answersTo, Table.find?, hx, hn, ← ih hrest]
  rw [getFlow, hfind, Option.map_map]
  cases hf : Table.find? n m.flows with
  | none => rfl
  | some d =>
    have hid : d.id = some n := hown (n, d) (Table.mem_of_find?_eq_some hf)
    simp [withRevisions, hid]

end Memory

/-! ## In tables -/

namespace Rows
variable {r r' : Rows} {d d' : Definition}

private theorem require_eq_ok {column s : String} {v : Option String} :
    require column v = .ok s ↔ v = some s := by
  cases v <;> simp [require]

theorem definition_flowRow {id : Int} {row : FlowRow} (h : flowRow id d = .ok row) :
    row.id = id ∧ row.definition = numbered d id := by
  simp only [flowRow, bind_eq_ok, require_eq_ok] at h
  obtain ⟨uuid, hu, shortcode, hs, name, hn, language, hl, format, hf, hrow⟩ := h
  cases hrow
  refine ⟨rfl, ?_⟩
  simp only [FlowRow.definition, numbered, hu, hs, hn, hl, hf]

def byId (flows : List FlowRow) : List (Int × FlowRow) := flows.map fun f => (f.id, f)

theorem byId_putFlow (row : FlowRow) (flows : List FlowRow) :
    byId (putFlow row flows) = Table.put row.id row (byId flows) := by
  induction flows with
  | nil => rfl
  | cons f rest ih =>
    by_cases hf : f.id = row.id
    · simp [byId, putFlow, Table.put, hf]
    · simpa [byId, putFlow, Table.put, hf] using ih

theorem find?_byId (flows : List FlowRow) (n : Int) :
    flows.find? (·.id = n) = Table.find? n (byId flows) := by
  induction flows with
  | nil => rfl
  | cons f rest ih =>
    by_cases hf : f.id = n
    · simp [byId, Table.find?, hf]
    · simpa [byId, Table.find?, hf] using ih

theorem map_id_byId (flows : List FlowRow) :
    flows.map FlowRow.id = (byId flows).map Prod.fst := by
  simp [byId]

private theorem eq_of_unique {row f : FlowRow} {flows : List FlowRow}
    (h : checkUnique row flows = .ok ()) (hf : f ∈ flows)
    (hnames : f.uuid = row.uuid ∨ f.shortcode = row.shortcode) : f.id = row.id := by
  by_contra hid
  unfold checkUnique at h
  split at h
  · cases h
  · rename_i hshortcode
    split at h
    · cases h
    · rename_i huuid
      rcases hnames with hu | hs
      · exact huuid (List.any_eq_true.mpr ⟨f, hf, by simp [hid, hu]⟩)
      · exact hshortcode (List.any_eq_true.mpr ⟨f, hf, by simp [hid, hs]⟩)

theorem saveFlow_eq_ok (h : r.saveFlow d = .ok (d', r')) :
    ∃ id row, r.connected = true ∧ d' = { d with id := some id } ∧ flowRow id d = .ok row ∧
      checkUnique row r.flows = .ok () ∧ (∀ m, d.id = some m → id = m ∧ checkSize id = .ok ()) ∧
      (d.id = none → id = r.sequence + 1 ∧ r.sequence < largest) ∧
      r' = { r with sequence := max r.sequence id, flows := putFlow row r.flows } := by
  obtain ⟨_, hc, h⟩ := bind_eq_ok.mp h
  split at h
  all_goals
    rename_i hgiven
    obtain ⟨id, hid, h⟩ := bind_eq_ok.mp h
    dsimp only at h
    split at h
    · cases h
    rename_i row hrow
    split at h
    · cases h
    rename_i hunique
    cases h
    refine ⟨id, row, checkConnected_eq_ok.mp hc, rfl, hrow, hunique, ?_, ?_, rfl⟩
  · intro m hm
    rw [Option.some.inj (hgiven.symm.trans hm)] at hid
    cases hsize : checkSize m with
    | error f =>
      rw [hsize] at hid
      cases hid
    | ok _ =>
      rw [hsize] at hid
      have hmid : m = id := Except.ok.inj hid
      exact ⟨hmid.symm, hmid ▸ hsize⟩
  · intro hnone
    cases hgiven.symm.trans hnone
  · intro m hm
    cases hgiven.symm.trans hm
  · intro _
    unfold nextNumber at hid
    split at hid
    · cases hid
    · cases hid
      exact ⟨rfl, by omega⟩

theorem saveFlow_enrolled (h : (Store.rows r).Identified)
    (ho : r.saveFlow d = .ok (d', r')) : ∃ n, d' = { d with id := some n } ∧
      Enrolled (.rows r) d n (.rows r') ∧ (d.id = none → n ∉ (Store.rows r).flowIds) := by
  obtain ⟨n, row, hc, rfl, hrow, hunique, hgiven, hdrawn, rfl⟩ := saveFlow_eq_ok ho
  obtain ⟨hid, hdef⟩ := definition_flowRow hrow
  subst hid
  obtain ⟨_, hpositive, hbelow⟩ := h.bookkept
  have hsize : checkSize row.id = .ok () := by
    cases hd : d.id with
    | some m => exact (hgiven m hd).2
    | none =>
      have hnext := hdrawn hd
      refine if_pos ⟨?_, ?_⟩
      · have hlargest : largest = 9223372036854775807 := rfl
        omega
      · omega
  refine ⟨row.id, rfl, ?_, ?_⟩
  · constructor
    · rfl
    · exact fun m hm => (hgiven m hm).1
    · intro m
      simp only [Store.flowAt, find?_byId, byId_putFlow, Table.find?_put, eq_comm (a := m)]
      split
      · simp [hdef]
      · rfl
    · intro m _
      rfl
    · intro hnodup
      simp only [flowIds, map_id_byId, byId_putFlow] at hnodup ⊢
      exact Table.nodup_keys_put hnodup
    · intro m
      simp only [flowIds, map_id_byId, byId_putFlow]
      exact Table.mem_keys_put
    · intro m f hf hnames
      obtain ⟨g, hg, rfl⟩ := Option.map_eq_some_iff.mp hf
      have hm : g.id = m := by simpa using List.find?_some hg
      have hnumbered : numbered d row.id = row.definition := hdef.symm
      have huuid : d.uuid = some row.uuid := congrArg Definition.uuid hnumbered
      have hshortcode : d.shortcode = some row.shortcode := congrArg Definition.shortcode hnumbered
      have hsame : g.uuid = row.uuid ∨ g.shortcode = row.shortcode := by
        simpa [FlowRow.definition, huuid, hshortcode] using hnames
      exact hm ▸ eq_of_unique hunique (List.mem_of_find?_eq_some hg) hsame
    · refine ⟨hc, Int.le_trans hpositive (Int.le_max_left _ _), ?_⟩
      intro m hm
      simp only [map_id_byId, byId_putFlow] at hm
      rcases Table.mem_keys_put.mp hm with rfl | hold
      · exact ⟨Int.le_max_right _ _, hsize⟩
      · have hkept := hbelow m (map_id_byId r.flows ▸ hold)
        exact ⟨Int.le_trans hkept.1 (Int.le_max_left _ _), hkept.2⟩
  · intro hnone hmem
    have hle := (hbelow _ hmem).1
    have hnext := hdrawn hnone
    omega

end Rows

end DurableFlow.Store
