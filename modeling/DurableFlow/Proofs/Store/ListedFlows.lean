import DurableFlow.Proofs.Store.FlowIdentities

/-! Listed flows. A load goes through the flows that have a live revision, each of them once; what it
reads is what the reads of single flows give. -/
namespace DurableFlow.Store
open DurableFlow.Action (Ensures)
open DurableFlow.Flow (Definition Publishing Revision)

def IsLive (s : Store) (n : Int) (document : Json) : Prop :=
  (∃ d, s.getFlow n = .ok (some d)) ∧
    ∃ r, s.liveRevision n = .ok (some r) ∧ r.document = document

/-- The rows of a load are those of the flows with a live revision, one for each. -/
structure Lists (s : Store) (rows : List (Definition × Json)) : Prop where
  numbered : ∀ row ∈ rows, ∃ n, row.1.id = some n
  once : (rows.map fun row => row.1.id).Nodup
  live : ∀ n document, (∃ d, d.id = some n ∧ (d, document) ∈ rows) ↔ s.IsLive n document

/-- Every flow stands once under its own number and can be read, and every revision has one of the
documents. -/
def Listed (documents : List Json) : Store → Prop
  | .memory m => (m.flows.map Prod.fst).Nodup ∧ (∀ x ∈ m.flows, x.2.id = some x.1) ∧
      ∀ n, ∀ r ∈ m.revisionsOf n, r.document ∈ documents
  | .rows r => r.connected = true ∧ 0 ≤ r.sequence ∧ (r.flows.map FlowRow.id).Nodup ∧
      (∀ f ∈ r.flows, Rows.checkSize f.id = .ok ()) ∧
      ∀ x ∈ r.revisions, x.snapshot.document ∈ documents
  | .keys k => k.connected = true ∧
      (∀ n e, Table.find? (k.flowKey n) k.server = some e → ∃ row, e = .flow row ∧ row.id = n) ∧
      (∃ set, k.server.numbers (k.key ["flows"]) = .ok set ∧ (set.map Prod.fst).Nodup ∧
        ∀ n, n ∈ set.map Prod.fst ↔ (Table.find? (k.flowKey n) k.server).isSome) ∧
      ∀ n, ∃ items, k.server.snapshots (k.revisionsKey n) = .ok items ∧
        ∀ x ∈ items, x.document ∈ documents

variable {s s' : Store} {documents : List Json} {d d' : Definition} {n : Int} {document : Json}

/-! ## Rows of a load -/

private theorem sublist_filterMap {α β γ : Type} {f : α → Option β} {g : β → γ} {e : α → γ}
    {xs : List α} (h : ∀ x ∈ xs, ∀ y, f x = some y → g y = e x) :
    ((xs.filterMap f).map g).Sublist (xs.map e) := by
  induction xs with
  | nil => exact .slnil
  | cons x rest ih =>
    obtain ⟨hx, hrest⟩ := List.forall_mem_cons.mp h
    rw [List.filterMap_cons]
    split
    · exact (ih hrest).cons _
    · rename_i y hy
      rw [List.map_cons, List.map_cons, hx y hy]
      exact (ih hrest).cons_cons _

private theorem exists_filterMapM {α β : Type} {f : α → Except Failure (Option β)} {xs : List α}
    (h : ∀ x ∈ xs, ∃ y, f x = .ok y) : ∃ ys, xs.filterMapM f = .ok ys := by
  induction xs with
  | nil => exact ⟨[], rfl⟩
  | cons x rest ih =>
    obtain ⟨⟨y, hy⟩, hrest⟩ := List.forall_mem_cons.mp h
    obtain ⟨ys, hys⟩ := ih hrest
    rw [List.filterMapM_cons, hy]
    cases y with
    | none => exact ⟨ys, hys⟩
    | some y =>
      have hcons : (do return y :: (← rest.filterMapM f)) = Except.ok (y :: ys) :=
        bind_eq_ok.mpr ⟨ys, hys, rfl⟩
      exact ⟨y :: ys, hcons⟩

private theorem memory_lists {m : Memory} (h : (Store.memory m).Listed documents) :
    (Store.memory m).Lists (m.activeFlows none) := by
  obtain ⟨hnodup, hown, -⟩ := h
  have hmem (d : Definition) (document : Json) : (d, document) ∈ m.activeFlows none ↔
      ∃ n f r, (n, f) ∈ m.flows ∧ m.liveRevision n = some r ∧ m.withRevisions f = d ∧
        r.document = document := by
    simp only [Memory.activeFlows, List.mem_filterMap, List.mem_filter, List.mem_mergeSort,
      Option.all_none, and_true, Option.map_eq_some_iff, Prod.mk.injEq, Prod.exists]
    constructor
    · rintro ⟨n, f, hf, r, hr, hd, hdocument⟩
      exact ⟨n, f, r, hf, hr, hd, hdocument⟩
    · rintro ⟨n, f, r, hf, hr, hd, hdocument⟩
      exact ⟨n, f, hf, r, hr, hd, hdocument⟩
  refine ⟨?_, ?_, ?_⟩
  · rintro ⟨d, document⟩ hrow
    obtain ⟨n, f, r, hf, -, rfl, -⟩ := (hmem d document).mp hrow
    exact ⟨n, hown _ hf⟩
  · have hperm := (List.mergeSort_perm m.flows fun a b => decide (a.1 ≤ b.1)).map Prod.fst
    refine (nodup_map_some (hperm.nodup_iff.mpr hnodup)).sublist ?_
    rw [List.map_map]
    refine (sublist_filterMap ?_).trans (List.filter_sublist.map _)
    intro x hx row hrow
    obtain ⟨r, -, rfl⟩ := Option.map_eq_some_iff.mp hrow
    exact hown x (List.mem_mergeSort.mp (List.mem_filter.mp hx).1)
  · intro n document
    have hget : (Store.memory m).getFlow n = .ok (m.getFlow (.id n)) := rfl
    simp only [IsLive, hget, Memory.getFlow_id hown, Store.liveRevision, Except.ok.injEq,
      Option.map_eq_some_iff, hmem]
    constructor
    · rintro ⟨_, hid, k, f, r, hf, hr, rfl, hdocument⟩
      have hfk : f.id = some k := hown _ hf
      have hk : k = n := Option.some.inj (hfk.symm.trans hid)
      subst hk
      exact ⟨⟨_, f, Table.find?_eq_some_of_mem hnodup hf, rfl⟩, r, hr, hdocument⟩
    · rintro ⟨⟨_, f, hf, _⟩, r, hr, hdocument⟩
      have hmem := Table.mem_of_find?_eq_some hf
      exact ⟨m.withRevisions f, hown _ hmem, n, f, r, hmem, hr, rfl, hdocument⟩

private theorem rows_isLive {r : Rows} (hc : r.connected = true) :
    (Store.rows r).IsLive n document ↔ Rows.checkSize n = .ok () ∧ (∃ f ∈ r.flows, f.id = n) ∧
      ∃ x, r.revisions.find? (fun x => x.flow = n && x.number = 0) = some x ∧
        x.snapshot.document = document := by
  have hconnected : r.checkConnected = .ok () := Rows.checkConnected_eq_ok.mpr hc
  constructor
  · rintro ⟨⟨d, hd⟩, live, hlive, rfl⟩
    simp only [Store.getFlow, Rows.getFlow, bind_eq_ok] at hd
    obtain ⟨_, -, _, ⟨⟩, hd⟩ := hd
    obtain ⟨_, -, hd⟩ := bind_eq_ok.mp hd
    obtain ⟨f, hfound, -⟩ := Option.map_eq_some_iff.mp (Except.ok.inj hd)
    simp only [Store.liveRevision, Rows.liveRevision, bind_eq_ok] at hlive
    obtain ⟨_, -, _, hsize, hlive⟩ := hlive
    obtain ⟨x, hx, rfl⟩ := Option.map_eq_some_iff.mp (Except.ok.inj hlive)
    exact ⟨hsize, ⟨f, List.mem_of_find?_eq_some hfound, by simpa [Rows.answersTo] using List.find?_some hfound⟩,
      x, hx, rfl⟩
  · rintro ⟨hsize, ⟨f, hf, hid⟩, x, hx, rfl⟩
    constructor
    · have hsome : (r.flows.find? (Rows.answersTo (.id n))).isSome :=
        List.find?_isSome.mpr ⟨f, hf, by simpa [Rows.answersTo] using hid⟩
      obtain ⟨g, hg⟩ := Option.isSome_iff_exists.mp hsome
      refine ⟨{ g.definition with revisions := r.revisionsOf g.id }, bind_eq_ok.mpr ⟨(), hconnected,
        bind_eq_ok.mpr ⟨.id n, rfl, bind_eq_ok.mpr ⟨(), hsize, ?_⟩⟩⟩⟩
      rw [hg]
      rfl
    · refine ⟨x.snapshot.revision x.flow x.number, bind_eq_ok.mpr ⟨(), hconnected,
        bind_eq_ok.mpr ⟨(), hsize, ?_⟩⟩, rfl⟩
      rw [hx]
      rfl

private theorem rows_lists {r : Rows} (h : (Store.rows r).Listed documents) :
    ∃ rows, r.activeFlows none = .ok rows ∧ (Store.rows r).Lists rows := by
  obtain ⟨hc, -, hnodup, hsize, -⟩ := h
  refine ⟨_, bind_eq_ok.mpr ⟨(), Rows.checkConnected_eq_ok.mpr hc, rfl⟩, ?_⟩
  generalize hrows : List.filterMap _ _ = rows
  have hmem (d : Definition) (document : Json) : (d, document) ∈ rows ↔
      ∃ f ∈ r.flows, ∃ x, r.revisions.find? (fun x => x.flow = f.id && x.number = 0) = some x ∧
        f.definition = d ∧ x.snapshot.document = document := by
    simp only [← hrows, List.mem_filterMap, List.mem_filter, List.mem_mergeSort, Option.all_none,
      and_true, Option.map_eq_some_iff, Prod.mk.injEq]
  refine ⟨?_, ?_, ?_⟩
  · rintro ⟨d, document⟩ hrow
    obtain ⟨f, -, -, -, rfl, -⟩ := (hmem d document).mp hrow
    exact ⟨f.id, rfl⟩
  · let chosen := r.flows.filter fun f => (none : Option Int).all (· = f.id)
    have hperm := (List.mergeSort_perm chosen fun a b => decide (a.id ≤ b.id)).map FlowRow.id
    have hchosen : (chosen.map FlowRow.id).Nodup := hnodup.sublist (List.filter_sublist.map _)
    refine (nodup_map_some (hperm.nodup_iff.mpr hchosen)).sublist ?_
    rw [← hrows, List.map_map]
    refine sublist_filterMap ?_
    intro f _ row hrow
    obtain ⟨x, -, rfl⟩ := Option.map_eq_some_iff.mp hrow
    rfl
  · intro n document
    rw [rows_isLive hc]
    constructor
    · rintro ⟨d, hid, hrow⟩
      obtain ⟨f, hf, x, hx, rfl, rfl⟩ := (hmem d document).mp hrow
      have hn : f.id = n := Option.some.inj hid
      subst hn
      exact ⟨hsize f hf, ⟨f, hf, rfl⟩, x, hx, rfl⟩
    · rintro ⟨-, ⟨f, hf, rfl⟩, x, hx, rfl⟩
      exact ⟨f.definition, rfl, (hmem _ _).mpr ⟨f, hf, x, hx, rfl, rfl⟩⟩

private theorem keys_isLive {k : Keys} (hc : k.connected = true)
    (hflows : ∀ n e, Table.find? (k.flowKey n) k.server = some e → ∃ row, e = .flow row ∧ row.id = n)
    {items : List Snapshot} (hitems : k.server.snapshots (k.revisionsKey n) = .ok items) :
    (Store.keys k).IsLive n document ↔ (Table.find? (k.flowKey n) k.server).isSome ∧
      ∃ x, items.head? = some x ∧ x.document = document := by
  have hconnected : k.checkConnected = .ok () := Keys.checkConnected_eq_ok.mpr hc
  constructor
  · rintro ⟨⟨d, hd⟩, live, hlive, rfl⟩
    simp only [Store.getFlow, Keys.getFlow, bind_eq_ok] at hd
    obtain ⟨_, -, found, hresolved, hd⟩ := hd
    cases hresolved
    obtain ⟨row, hrow, hd⟩ := bind_eq_ok.mp hd
    simp only [Store.liveRevision, Keys.liveRevision, bind_eq_ok, hitems] at hlive
    obtain ⟨_, -, _, ⟨⟩, hlive⟩ := hlive
    obtain ⟨x, hx, rfl⟩ := Option.map_eq_some_iff.mp (Except.ok.inj hlive)
    refine ⟨?_, x, hx, rfl⟩
    cases row with
    | none => cases hd
    | some row =>
      rw [(Keys.find?_of_flow? hrow row).mpr rfl]
      rfl
  · rintro ⟨hsome, x, hx, rfl⟩
    obtain ⟨e, he⟩ := Option.isSome_iff_exists.mp hsome
    obtain ⟨row, rfl, -⟩ := hflows n e he
    constructor
    · refine ⟨{ row.definition with revisions := items.mapIdx fun number s => s.revision n number },
        bind_eq_ok.mpr ⟨(), hconnected, bind_eq_ok.mpr ⟨some n, rfl, ?_⟩⟩⟩
      refine bind_eq_ok.mpr ⟨some row, by rw [Server.flow?, he], bind_eq_ok.mpr ⟨items, hitems, rfl⟩⟩
    · refine ⟨x.revision n 0, bind_eq_ok.mpr ⟨(), hconnected, bind_eq_ok.mpr ⟨items, hitems, ?_⟩⟩, rfl⟩
      rw [hx]
      rfl

private theorem keys_lists {k : Keys} (h : (Store.keys k).Listed documents) :
    ∃ rows, k.activeFlows none = .ok rows ∧ (Store.keys k).Lists rows := by
  obtain ⟨hc, hflows, ⟨set, hset, hnodup, hlisted⟩, hsnapshots⟩ := h
  have hconnected : k.checkConnected = .ok () := Keys.checkConnected_eq_ok.mpr hc
  obtain ⟨read, hactive, hread, hnumber⟩ : ∃ read : Int → Except Failure (Option (Definition × Json)),
      (∀ rows, (set.map Prod.fst).filterMapM read = .ok rows → k.activeFlows none = .ok rows) ∧
      (∀ n ∈ set.map Prod.fst, ∃ (row : FlowRow) (items : List Snapshot), row.id = n ∧
        k.server.snapshots (k.revisionsKey n) = .ok items ∧
        read n = .ok (items.head?.map fun s => (row.definition, s.document))) ∧
      ∀ n row, read n = .ok (some row) → row.1.id = some n := by
    refine ⟨_, fun rows hrows => bind_eq_ok.mpr ⟨(), hconnected,
      bind_eq_ok.mpr ⟨set.map Prod.fst, ?_, hrows⟩⟩, ?_, ?_⟩
    · rw [hset]
      rfl
    · intro n hn
      obtain ⟨e, he⟩ := Option.isSome_iff_exists.mp ((hlisted n).mp hn)
      obtain ⟨row, rfl, hid⟩ := hflows n e he
      obtain ⟨items, hitems, -⟩ := hsnapshots n
      refine ⟨row, items, hid, hitems, ?_⟩
      exact bind_eq_ok.mpr ⟨some row, by rw [Server.flow?, he], bind_eq_ok.mpr ⟨items, hitems, rfl⟩⟩
    · intro n row ho
      obtain ⟨found, hfound, ho⟩ := bind_eq_ok.mp ho
      cases found with
      | none => cases ho
      | some found =>
        obtain ⟨items, -, ho⟩ := bind_eq_ok.mp ho
        obtain ⟨x, -, rfl⟩ := Option.map_eq_some_iff.mp (Except.ok.inj ho)
        obtain ⟨_, heq, hid⟩ := hflows n _ ((Keys.find?_of_flow? hfound found).mpr rfl)
        cases heq
        exact congrArg some hid
  have hreads : ∀ n ∈ set.map Prod.fst, ∃ row, read n = .ok row := by
    intro n hn
    obtain ⟨row, items, -, -, ho⟩ := hread n hn
    exact ⟨_, ho⟩
  obtain ⟨rows, hrows⟩ := exists_filterMapM hreads
  refine ⟨rows, hactive rows hrows, ?_, ?_, ?_⟩
  · rintro row hrow
    obtain ⟨n, hn, ho⟩ := of_mem_filterMapM hrows hrow
    obtain ⟨found, items, hid, -, ho'⟩ := hread n hn
    obtain ⟨x, -, rfl⟩ := Option.map_eq_some_iff.mp (Except.ok.inj (ho'.symm.trans ho))
    exact ⟨found.id, rfl⟩
  · refine (nodup_map_some hnodup).sublist ?_
    exact sublist_filterMapM hrows hnumber
  · intro n document
    obtain ⟨items, hitems, -⟩ := hsnapshots n
    rw [keys_isLive hc hflows hitems]
    constructor
    · rintro ⟨d, hid, hrow⟩
      obtain ⟨m, hm, ho⟩ := of_mem_filterMapM hrows hrow
      obtain ⟨found, items', hfound, hitems', ho'⟩ := hread m hm
      obtain ⟨x, hx, heq⟩ := Option.map_eq_some_iff.mp (Except.ok.inj (ho'.symm.trans ho))
      cases heq
      have hmn : m = n := hfound.symm.trans (Option.some.inj hid)
      subst hmn
      cases hitems.symm.trans hitems'
      exact ⟨(hlisted m).mp hm, x, hx, rfl⟩
    · rintro ⟨hsome, x, hx, rfl⟩
      have hn := (hlisted n).mpr hsome
      obtain ⟨row, items', hid, hitems', ho⟩ := hread n hn
      cases hitems.symm.trans hitems'
      rw [hx] at ho
      rcases mem_filterMapM hrows hn with hnone | ⟨y, hy, hy'⟩
      · cases ho.symm.trans hnone
      · cases ho.symm.trans hy'
        exact ⟨row.definition, congrArg some hid, hy⟩

namespace Listed

/-- A store gives the rows of its flows that have a live revision. -/
theorem lists (h : s.Listed documents) : ∃ rows, s.activeFlows none = .ok rows ∧ s.Lists rows := by
  cases s with
  | memory m => exact ⟨_, rfl, memory_lists h⟩
  | rows r => exact rows_lists h
  | keys k => exact keys_lists h

theorem liveRevision (h : s.Listed documents) {r : Revision}
    (hr : s.liveRevision n = .ok (some r)) : r.document ∈ documents := by
  cases s with
  | memory m => exact h.2.2 n r (List.mem_of_find?_eq_some (Except.ok.inj hr))
  | rows t =>
    simp only [Store.liveRevision, Rows.liveRevision, bind_eq_ok] at hr
    obtain ⟨_, -, _, -, hr⟩ := hr
    obtain ⟨x, hx, rfl⟩ := Option.map_eq_some_iff.mp (Except.ok.inj hr)
    exact h.2.2.2.2 x (List.mem_of_find?_eq_some hx)
  | keys k =>
    obtain ⟨items, hitems, hdocuments⟩ := h.2.2.2 n
    simp only [Store.liveRevision, Keys.liveRevision, bind_eq_ok, hitems] at hr
    obtain ⟨_, -, _, ⟨⟩, hr⟩ := hr
    obtain ⟨x, hx, rfl⟩ := Option.map_eq_some_iff.mp (Except.ok.inj hr)
    exact hdocuments x (List.mem_of_head? hx)

theorem active (h : s.Listed documents) {only : Option Int} {rows : List (Definition × Json)}
    (hr : s.activeFlows only = .ok rows) : ∀ row ∈ rows, row.2 ∈ documents := by
  intro row hrow
  cases s with
  | memory m =>
    cases hr
    obtain ⟨x, -, hx⟩ := List.mem_filterMap.mp hrow
    obtain ⟨r, hr, rfl⟩ := Option.map_eq_some_iff.mp hx
    exact h.2.2 x.1 r (List.mem_of_find?_eq_some hr)
  | rows t =>
    have hchosen (hmem : row ∈
        ((t.flows.filter fun f => only.all (· = f.id)).mergeSort fun a b =>
          decide (a.id ≤ b.id)).filterMap fun f =>
            (t.revisions.find? fun x => x.flow = f.id && x.number = 0).map fun x =>
              (f.definition, x.snapshot.document)) : row.2 ∈ documents := by
      obtain ⟨f, -, hf⟩ := List.mem_filterMap.mp hmem
      obtain ⟨x, hx, rfl⟩ := Option.map_eq_some_iff.mp hf
      exact h.2.2.2.2 x (List.mem_of_find?_eq_some hx)
    obtain ⟨_, -, hr⟩ := bind_eq_ok.mp hr
    split at hr
    · obtain ⟨_, -, hr⟩ := bind_eq_ok.mp hr
      cases hr
      exact hchosen hrow
    · cases hr
      exact hchosen hrow
  | keys k =>
    obtain ⟨_, -, hr⟩ := bind_eq_ok.mp hr
    split at hr
    all_goals
      obtain ⟨flows, -, hr⟩ := bind_eq_ok.mp hr
      obtain ⟨n, -, ho⟩ := of_mem_filterMapM hr hrow
      obtain ⟨found, -, ho⟩ := bind_eq_ok.mp ho
      cases found with
      | none => cases ho
      | some found =>
        obtain ⟨items, hitems, ho⟩ := bind_eq_ok.mp ho
        obtain ⟨x, hx, rfl⟩ := Option.map_eq_some_iff.mp (Except.ok.inj ho)
        obtain ⟨_, hall, hdocuments⟩ := h.2.2.2 n
        cases hitems.symm.trans hall
        exact hdocuments x (List.mem_of_head? hx)

/-- The rows of a load have numbers, whether it is of all flows or of one. -/
theorem active_numbered (h : s.Listed documents) {only : Option Int} {rows : List (Definition × Json)}
    (hr : s.activeFlows only = .ok rows) : ∀ row ∈ rows, ∃ n, row.1.id = some n := by
  intro row hrow
  cases s with
  | memory m =>
    cases hr
    obtain ⟨x, hx, hfound⟩ := List.mem_filterMap.mp hrow
    obtain ⟨r, -, rfl⟩ := Option.map_eq_some_iff.mp hfound
    exact ⟨x.1, h.2.1 x (List.mem_mergeSort.mp (List.mem_filter.mp hx).1)⟩
  | rows t =>
    have hchosen {chosen : List FlowRow} (hmem : row ∈ chosen.filterMap fun f =>
        (t.revisions.find? fun x => x.flow = f.id && x.number = 0).map fun x =>
          (f.definition, x.snapshot.document)) : ∃ n, row.1.id = some n := by
      obtain ⟨f, -, hf⟩ := List.mem_filterMap.mp hmem
      obtain ⟨x, -, rfl⟩ := Option.map_eq_some_iff.mp hf
      exact ⟨f.id, rfl⟩
    obtain ⟨_, -, hr⟩ := bind_eq_ok.mp hr
    split at hr
    · obtain ⟨_, -, hr⟩ := bind_eq_ok.mp hr
      cases hr
      exact hchosen hrow
    · cases hr
      exact hchosen hrow
  | keys k =>
    obtain ⟨_, -, hr⟩ := bind_eq_ok.mp hr
    split at hr
    all_goals
      obtain ⟨flows, -, hr⟩ := bind_eq_ok.mp hr
      obtain ⟨n, -, ho⟩ := of_mem_filterMapM hr hrow
      obtain ⟨found, -, ho⟩ := bind_eq_ok.mp ho
      cases found with
      | none => cases ho
      | some found =>
        obtain ⟨items, -, ho⟩ := bind_eq_ok.mp ho
        obtain ⟨x, -, rfl⟩ := Option.map_eq_some_iff.mp (Except.ok.inj ho)
        exact ⟨found.id, rfl⟩

/-- A flow that is found has a number. -/
theorem getFlow_numbered (h : s.Listed documents) {flow : Identifier}
    (hd : s.getFlow flow = .ok (some d)) : ∃ n, d.id = some n := by
  cases s with
  | memory m =>
    change flow.key.map m.getFlow = _ at hd
    cases hkey : flow.key with
    | error f =>
      rw [hkey] at hd
      cases hd
    | ok key =>
      rw [hkey] at hd
      obtain ⟨x, hx, rfl⟩ := Option.map_eq_some_iff.mp (Except.ok.inj hd)
      exact ⟨x.1, h.2.1 x (List.mem_of_find?_eq_some hx)⟩
  | rows t =>
    obtain ⟨_, -, hd⟩ := bind_eq_ok.mp hd
    obtain ⟨key, -, hd⟩ := bind_eq_ok.mp hd
    have hfound : ((t.flows.find? (Rows.answersTo key)).map fun f =>
        { f.definition with revisions := t.revisionsOf f.id }) = some d := by
      split at hd
      · obtain ⟨_, -, hd⟩ := bind_eq_ok.mp hd
        exact Except.ok.inj hd
      · exact Except.ok.inj hd
    obtain ⟨f, -, rfl⟩ := Option.map_eq_some_iff.mp hfound
    exact ⟨f.id, rfl⟩
  | keys k =>
    obtain ⟨_, -, hd⟩ := bind_eq_ok.mp hd
    obtain ⟨resolved, -, hd⟩ := bind_eq_ok.mp hd
    cases resolved with
    | none => cases hd
    | some flow =>
      obtain ⟨found, -, hd⟩ := bind_eq_ok.mp hd
      cases found with
      | none => cases hd
      | some row =>
        obtain ⟨items, -, hd⟩ := bind_eq_ok.mp hd
        cases hd
        exact ⟨row.id, rfl⟩

/-! ## Saves -/

private theorem saveFlow_memory {m m' : Memory} (h : (Store.memory m).Listed documents)
    (ho : m.saveFlow d = .ok (d', m')) : (Store.memory m').Listed documents := by
  obtain ⟨hnodup, hown, hdocuments⟩ := h
  unfold Memory.saveFlow at ho
  split at ho
  · cases ho
  cases ho
  refine ⟨Table.nodup_keys_put hnodup, ?_, ?_⟩
  · intro x hx
    rcases Table.mem_put hx with rfl | hold
    · rfl
    · exact hown x hold
  · intro n r hr
    refine hdocuments n r ?_
    simp only [Memory.revisionsOf] at hr ⊢
    split at hr
    · exact hr
    · rw [Table.find?_put] at hr
      split at hr
      · cases hr
      · exact hr

private theorem saveFlow_rows {r r' : Rows} (h : (Store.rows r).Listed documents)
    (ho : r.saveFlow d = .ok (d', r')) : (Store.rows r').Listed documents := by
  obtain ⟨hc, hsequence, hnodup, hsize, hdocuments⟩ := h
  obtain ⟨n, row, -, rfl, hrow, -, hgiven, hdrawn, rfl⟩ := Rows.saveFlow_eq_ok ho
  obtain ⟨hid, -⟩ := Rows.definition_flowRow hrow
  subst hid
  have hrowSize : Rows.checkSize row.id = .ok () := by
    cases hd : d.id with
    | some m => exact (hgiven m hd).2
    | none =>
      have hnext := hdrawn hd
      have hlargest : Rows.largest = 9223372036854775807 := rfl
      exact if_pos ⟨by omega, by omega⟩
  refine ⟨hc, Int.le_trans hsequence (Int.le_max_left _ _), ?_, ?_, hdocuments⟩
  · rw [Rows.map_id_byId] at hnodup ⊢
    rw [Rows.byId_putFlow]
    exact Table.nodup_keys_put hnodup
  · intro f hf
    have hmem : (f.id, f) ∈ Rows.byId (Rows.putFlow row r.flows) := List.mem_map_of_mem hf
    rw [Rows.byId_putFlow] at hmem
    rcases Table.mem_put hmem with heq | hold
    · exact (Prod.mk.inj heq).2 ▸ hrowSize
    · obtain ⟨g, hg, heq⟩ := List.mem_map.mp hold
      exact (Prod.mk.inj heq).2 ▸ hsize g hg

private theorem of_server {k : Keys} (h : (Store.keys k).Listed documents) {server : Server}
    (hsame : ∀ m, Table.find? (k.flowKey m) server = Table.find? (k.flowKey m) k.server)
    (hnumbers : server.numbers (k.key ["flows"]) = k.server.numbers (k.key ["flows"]))
    (hsnapshots : ∀ m, ∃ items, server.snapshots (k.revisionsKey m) = .ok items ∧
      ∀ x ∈ items, x.document ∈ documents) : (Store.keys { k with server }).Listed documents := by
  obtain ⟨hc, hflows, ⟨set, hset, hnodup, hlisted⟩, -⟩ := h
  refine ⟨hc, ?_, ⟨set, hnumbers.trans hset, hnodup, ?_⟩, hsnapshots⟩
  · intro n e he
    exact hflows n e ((hsame n).symm.trans he)
  · intro n
    rw [hlisted n, ← hsame n]
    rfl

protected theorem counted {k : Keys} (h : (Store.keys k).Listed documents) (count : Int) :
    (Store.keys (k.counted count)).Listed documents := by
  refine h.of_server (k.flow_counted count) (k.numbers_counted count) ?_
  intro n
  obtain ⟨items, hitems, hdocuments⟩ := h.2.2.2 n
  exact ⟨items, (k.snapshots_counted count n).trans hitems, hdocuments⟩

private theorem fileFlow {k : Keys} (h : (Store.keys k).Listed documents)
    {previous : Option FlowRow} {server : Server} (hf : k.fileFlow n d previous = .ok server) :
    (Store.keys { k with server }).Listed documents := by
  obtain ⟨hc, hflows, ⟨set, hset, hnodup, hlisted⟩, hsnapshots⟩ := h
  obtain ⟨row, hfiles⟩ := Keys.fileFlow_files hf
  refine ⟨hc, ?_, ⟨_, hfiles.numbers set hset, Scored.nodup_names_add _ _ _ hnodup, ?_⟩, ?_⟩
  · intro m e he
    rw [show ({ k with server } : Keys).flowKey m = k.flowKey m from rfl, hfiles.flows] at he
    split at he
    · rename_i hm
      cases he
      exact ⟨row, rfl, hfiles.id.trans hm.symm⟩
    · exact hflows m e he
  · intro m
    rw [Scored.mem_names_add, show ({ k with server } : Keys).flowKey m = k.flowKey m from rfl,
      hfiles.flows, hlisted]
    split <;> simp_all
  · intro m
    obtain ⟨items, hitems, hdocuments⟩ := hsnapshots m
    refine ⟨items, ?_, hdocuments⟩
    rw [← hitems]
    have hkey : ({ k with server } : Keys).revisionsKey m = k.revisionsKey m := rfl
    simp only [Server.snapshots, hkey, hfiles.revisions]

private theorem saveFlow_keys {k : Keys} (h : (Store.keys k).Listed documents) (d : Definition) :
    Ensures Keys.saveFlow ⟨k, d⟩ (fun _ g => (Store.keys g.state).Listed documents)
      (fun _ g => (Store.keys g.state).Listed documents) := by
  have hchecked {α : Type} {r : Except Failure α} {k : Keys}
      (h : (Store.keys k).Listed documents) {d : Definition} :
      Ensures (Action.ofExcept r) (⟨k, d⟩ : Holding Keys Definition)
        (fun a g => g = ⟨k, d⟩ ∧ r = .ok a) (fun _ g => (Store.keys g.state).Listed documents) :=
    Ensures.ofExcept (fun _ ha => ⟨rfl, ha⟩) (fun _ _ => h)
  unfold Keys.saveFlow
  apply Ensures.bind
  apply Ensures.get
  apply Ensures.bind
  apply Ensures.held
  apply Ensures.bind
  refine (hchecked h).mono ?_ (fun _ _ hf => hf)
  rintro _ _ ⟨rfl, -⟩
  apply Ensures.bind
  refine (hchecked h).mono ?_ (fun _ _ hf => hf)
  rintro _ _ ⟨rfl, -⟩
  apply Ensures.bind
  refine (hchecked h).mono ?_ (fun _ _ hf => hf)
  rintro _ _ ⟨rfl, -⟩
  split
  · apply Ensures.bind
    refine (hchecked h).mono ?_ (fun _ _ hf => hf)
    rintro previous _ ⟨rfl, -⟩
    apply Ensures.bind
    refine (hchecked h).mono ?_ (fun _ _ hf => hf)
    rintro server _ ⟨rfl, hserver⟩
    exact Ensures.modify (h.fileFlow hserver)
  · apply Ensures.bind
    refine (hchecked h).mono ?_ (fun _ _ hf => hf)
    rintro count _ ⟨rfl, -⟩
    apply Ensures.bind
    apply Ensures.set
    apply Ensures.bind
    refine (hchecked (h.counted (count + 1))).mono ?_ (fun _ _ hf => hf)
    rintro server _ ⟨rfl, hserver⟩
    exact Ensures.modify ((h.counted (count + 1)).fileFlow hserver)

/-- Saves of flows keep them listed. -/
protected theorem saveFlow (h : s.Listed documents) (d : Definition) :
    Ensures Store.saveFlow ⟨s, d⟩ (fun _ g => g.state.Listed documents)
      (fun _ g => g.state.Listed documents) := by
  unfold Store.saveFlow
  apply Ensures.bind
  apply Ensures.held
  apply Ensures.bind
  apply Ensures.get
  cases s with
  | memory m =>
    dsimp only
    unfold Ensures Store.keepHeld Store.wrapped
    cases ho : m.saveFlow d with
    | ok saved => exact saveFlow_memory h ho
    | error f => exact h
  | rows r =>
    dsimp only
    unfold Ensures Store.keepHeld Store.wrapped
    cases ho : r.saveFlow d with
    | ok saved => exact saveFlow_rows h ho
    | error f => exact h
  | keys k =>
    have hsave := saveFlow_keys h d
    dsimp only
    unfold Ensures Store.within
    cases ho : Keys.saveFlow ⟨k, d⟩ with
    | ok _ g => exact hsave.of_eq_ok ho
    | error f g => exact hsave.of_eq_error ho

/-- So do saves of revisions with one of the documents. -/
protected theorem saveRevision (h : s.Listed documents) {time : Moment} {trigger : Option String}
    {status : Publishing} {revision : Revision} (hd : document ∈ documents)
    (hs : s.saveRevision time trigger n document status = .ok (revision, s')) :
    s'.Listed documents := by
  cases s with
  | memory m =>
    obtain ⟨m', ho, rfl⟩ := wrapped_eq_ok.mp hs
    obtain ⟨hnodup, hown, hdocuments⟩ := h
    unfold Memory.saveRevision at ho
    split at ho
    · cases ho
    cases ho
    refine ⟨hnodup, hown, ?_⟩
    intro k r hr
    simp only [Memory.revisionsOf, Table.find?_put] at hr
    split at hr
    · rcases List.mem_cons.mp hr with rfl | hold
      · exact hd
      · obtain ⟨older, holder, rfl⟩ := List.mem_map.mp hold
        exact hdocuments n older holder
    · exact hdocuments k r hr
  | rows t =>
    obtain ⟨t', ho, rfl⟩ := wrapped_eq_ok.mp hs
    obtain ⟨hc, hsequence, hnodup, hsize, hdocuments⟩ := h
    simp only [Rows.saveRevision, bind_eq_ok] at ho
    obtain ⟨_, -, _, -, ho⟩ := ho
    split at ho
    · cases ho
    split at ho
    · cases ho
    cases ho
    refine ⟨hc, hsequence, hnodup, hsize, ?_⟩
    intro x hx
    rcases List.mem_append.mp hx with hold | hnew
    · obtain ⟨y, hy, rfl⟩ := List.mem_map.mp hold
      have hdocument := hdocuments y hy
      split <;> exact hdocument
    · exact List.mem_singleton.mp hnew ▸ hd
  | keys k =>
    obtain ⟨k', ho, rfl⟩ := wrapped_eq_ok.mp hs
    simp only [Keys.saveRevision, bind_eq_ok] at ho
    obtain ⟨_, -, ho⟩ := ho
    split at ho
    · cases ho
    obtain ⟨older, holder, ho⟩ := bind_eq_ok.mp ho
    cases ho
    have hnumbers : k.revisionsKey n ≠ k.key ["flows"] := k.revisionsKey_ne n (by decide)
    refine h.of_server ?_ ?_ ?_
    · intro m
      rw [Table.find?_put, if_neg (k.revisionsKey_ne_flowKey n m)]
    · rw [Server.numbers, Table.find?_put, if_neg hnumbers, Server.numbers]
    · intro m
      rw [Server.snapshots, Table.find?_put]
      by_cases hm : k.revisionsKey n = k.revisionsKey m
      · obtain ⟨items, hitems, hdocuments⟩ := h.2.2.2 n
        cases hitems.symm.trans holder
        rw [if_pos hm]
        refine ⟨_, rfl, ?_⟩
        intro x hx
        rcases List.mem_cons.mp hx with rfl | hold
        · exact hd
        · exact hdocuments x hold
      · rw [if_neg hm]
        exact h.2.2.2 m

/-- And so does the loss of a live revision. -/
protected theorem dropLive (h : s.Listed documents) (n : Int) : (s.dropLive n).Listed documents := by
  cases s with
  | memory m =>
    obtain ⟨hnodup, hown, hdocuments⟩ := h
    refine ⟨hnodup, hown, ?_⟩
    intro k r hr
    simp only [Memory.dropLive, Memory.revisionsOf, Table.find?_put] at hr
    split at hr
    · exact hdocuments n r (List.mem_filter.mp hr).1
    · exact hdocuments k r hr
  | rows t =>
    obtain ⟨hc, hsequence, hnodup, hsize, hdocuments⟩ := h
    exact ⟨hc, hsequence, hnodup, hsize, fun x hx => hdocuments x (List.mem_filter.mp hx).1⟩
  | keys k => exact h

end Listed

/-- A store that has just been opened lists nothing. -/
theorem Opened.listed (h : s.Opened) (documents : List Json) : s.Listed documents := by
  cases s with
  | memory m =>
    cases h
    refine ⟨List.nodup_nil, ?_, ?_⟩
    · intro x hx
      cases hx
    · intro n r hr
      cases hr
  | rows r =>
    have hflows : r.flows = [] := congrArg Rows.flows h
    have hrevisions : r.revisions = [] := congrArg Rows.revisions h
    refine ⟨congrArg Rows.connected h, Int.le_of_eq (congrArg Rows.sequence h).symm, ?_, ?_, ?_⟩
    · rw [hflows]
      exact List.nodup_nil
    · intro f hf
      rw [hflows] at hf
      cases hf
    · intro x hx
      rw [hrevisions] at hx
      cases hx
  | keys k =>
    obtain ⟨hc, hserver⟩ := h
    have hfind (key : String) : Table.find? key k.server = none := by
      rw [hserver]
      rfl
    refine ⟨hc, ?_, ⟨[], by rw [Server.numbers, hfind], List.nodup_nil, ?_⟩, ?_⟩
    · intro n e he
      cases (hfind _).symm.trans he
    · intro n
      simp [hfind]
    · intro n
      exact ⟨[], by rw [Server.snapshots, hfind], fun x hx => by cases hx⟩

end DurableFlow.Store
