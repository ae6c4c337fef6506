import DurableFlow.Proofs.Store.SavedRevisions

/-! Reads of revisions. A store in which histories stand gives them by age, the newest as the live
revision, and the flows that have one in the order of their numbers. -/
namespace DurableFlow.Store
open DurableFlow.Flow (Definition Publishing Revision)

variable {s t : Store} {documents : List Json} {n : Int} {history : List (Json × Publishing)}
  {revisions : List Revision}

/-! ## Reads of one flow -/

theorem Listed.readable (h : s.Listed documents) : s.Readable := by
  cases s with
  | memory m => exact h.2.1
  | rows r => exact h.1
  | keys k =>
    obtain ⟨hc, hflows, -, hsnapshots⟩ := h
    refine ⟨hc, ?_, ?_⟩
    · intro n e he
      obtain ⟨row, hrow, -⟩ := hflows n e he
      exact ⟨row, hrow⟩
    · intro n
      obtain ⟨items, hitems, -⟩ := hsnapshots n
      exact ⟨items, hitems⟩

theorem Listed.mem_flowIds (h : s.Listed documents) : n ∈ s.flowIds ↔ (s.flowAt n).isSome := by
  cases s with
  | memory m =>
    rw [Option.isSome_iff_exists]
    constructor
    · intro hn
      obtain ⟨⟨_, d⟩, hd, rfl⟩ := List.mem_map.mp hn
      exact ⟨d, Table.find?_eq_some_of_mem h.1 hd⟩
    · rintro ⟨d, hd⟩
      exact List.mem_map.mpr ⟨(n, d), Table.mem_of_find?_eq_some hd, rfl⟩
  | rows r => simp [flowIds, flowAt]
  | keys k =>
    obtain ⟨-, hflows, ⟨set, hset, -, hlisted⟩, -⟩ := h
    simp only [flowIds, hset, hlisted, flowAt]
    cases hfound : Table.find? (k.flowKey n) k.server with
    | none => rfl
    | some e =>
      obtain ⟨row, rfl, -⟩ := hflows n e hfound
      rfl

private theorem Listed.flowAt_id (h : s.Listed documents) {d : Definition} (hd : s.flowAt n = some d) :
    d.id = some n := by
  cases s with
  | memory m => exact h.2.1 (n, d) (Table.mem_of_find?_eq_some hd)
  | rows r =>
    obtain ⟨f, hf, rfl⟩ := Option.map_eq_some_iff.mp hd
    simpa [FlowRow.definition] using List.find?_some hf
  | keys k =>
    obtain ⟨row, hrow, rfl⟩ := Keys.flowAt_eq_some.mp hd
    obtain ⟨_, ⟨⟩, hid⟩ := h.2.1 n _ hrow
    exact congrArg some hid

theorem checkNumber_small (s : Store) (hn : n.natAbs < 2 ^ 53) : s.checkNumber n = .ok () := by
  cases s with
  | memory m => rfl
  | rows r =>
    have hlargest : Rows.largest = 9223372036854775807 := rfl
    exact if_pos ⟨by omega, by omega⟩
  | keys k => rfl

theorem Listed.getFlow_small (h : s.Listed documents) (hn : n.natAbs < 2 ^ 53) :
    s.getFlow n = .ok ((s.flowAt n).map fun d => { d with revisions := s.revisionsAt n }) := by
  rw [getFlow_eq h.readable, checkNumber_small s hn]
  rfl

/-- A flow that is found by any of its names is the one that is read under its number. -/
theorem Listed.getFlow_number (h : s.Listed documents) {name : Identifier} {d : Definition}
    (hd : s.getFlow name = .ok (some d)) : ∃ n : Int, d.id = some n ∧ s.getFlow n = .ok (some d) := by
  cases s with
  | memory m =>
    change name.key.map m.getFlow = _ at hd
    cases hkey : name.key with
    | error f =>
      rw [hkey] at hd
      cases hd
    | ok key =>
      rw [hkey] at hd
      obtain ⟨⟨n, e⟩, hfound, rfl⟩ := Option.map_eq_some_iff.mp (Except.ok.inj hd)
      have hmem := List.mem_of_find?_eq_some hfound
      have hid : e.id = some n := h.2.1 _ hmem
      refine ⟨n, hid, ?_⟩
      rw [getFlow_eq h.readable]
      simp [checkNumber, flowAt, Table.find?_eq_some_of_mem h.1 hmem, Memory.withRevisions, hid,
        revisionsAt, Except.map]
  | rows r =>
    obtain ⟨_, -, hd⟩ := bind_eq_ok.mp hd
    obtain ⟨key, -, hd⟩ := bind_eq_ok.mp hd
    have hfound : ((r.flows.find? (Rows.answersTo key)).map fun f =>
        { f.definition with revisions := r.revisionsOf f.id }) = some d := by
      split at hd
      · obtain ⟨_, -, hd⟩ := bind_eq_ok.mp hd
        exact Except.ok.inj hd
      · exact Except.ok.inj hd
    obtain ⟨f, hf, rfl⟩ := Option.map_eq_some_iff.mp hfound
    have hreadable := h.readable
    obtain ⟨-, -, hnodup, hsize, -⟩ := h
    have hmem := List.mem_of_find?_eq_some hf
    have hat : r.flows.find? (·.id = f.id) = some f := by
      rw [Rows.find?_byId]
      rw [Rows.map_id_byId] at hnodup
      exact Table.find?_eq_some_of_mem hnodup (List.mem_map_of_mem hmem)
    refine ⟨f.id, rfl, ?_⟩
    rw [getFlow_eq hreadable, checkNumber, hsize f hmem]
    simp [flowAt, hat, revisionsAt, Except.map]
  | keys k =>
    obtain ⟨_, hc, hd⟩ := bind_eq_ok.mp hd
    obtain ⟨resolved, -, hd⟩ := bind_eq_ok.mp hd
    cases resolved with
    | none => cases hd
    | some n =>
      obtain ⟨found, hrow, hd⟩ := bind_eq_ok.mp hd
      cases found with
      | none => cases hd
      | some row =>
        obtain ⟨items, hitems, hd⟩ := bind_eq_ok.mp hd
        cases hd
        obtain ⟨_, ⟨⟩, hid⟩ := h.2.1 n _ ((Keys.find?_of_flow? hrow row).mpr rfl)
        refine ⟨n, congrArg some hid, ?_⟩
        exact bind_eq_ok.mpr ⟨(), hc, bind_eq_ok.mpr ⟨some n, rfl, bind_eq_ok.mpr ⟨some row, hrow,
          bind_eq_ok.mpr ⟨items, hitems, rfl⟩⟩⟩⟩

private theorem ByAge.find?_live (h : ByAge n history revisions) :
    (revisions.find? (·.isLive)).map facts = history.head?.map fun issue => (n, 0, issue) := by
  cases revisions with
  | nil =>
    cases history with
    | nil => rfl
    | cons issue rest => simp [ByAge] at h
  | cons r older =>
    cases history with
    | nil => simp [ByAge] at h
    | cons issue rest =>
      rw [ByAge, List.map_cons, List.mapIdx_cons, List.cons.injEq] at h
      have hnumber : r.number = 0 := congrArg (fun x => x.2.1) h.1
      rw [List.find?_cons_of_pos (by simp [Revision.isLive, hnumber])]
      exact congrArg some h.1

private theorem rows_live {rows : List RevisionRow} (h : ByAge n history (Rows.lastFirst n rows)) :
    (rows.find? fun x => x.flow = n && x.number = 0).map (facts ∘ RevisionRow.revision) =
      history.head?.map fun issue => (n, 0, issue) := by
  have hfilter : (rows.find? fun x => x.flow = n && x.number = 0) =
      (rows.filter (·.flow = n)).find? (·.number = 0) := by
    simp [List.find?_filter]
  rw [Rows.lastFirst] at h
  generalize hlast : (rows.filter (·.flow = n)).reverse = lastFirst at h
  rw [hfilter, ← List.reverse_reverse (rows.filter _), hlast]
  cases lastFirst with
  | nil =>
    cases history with
    | nil => rfl
    | cons issue rest => simp [ByAge] at h
  | cons x older =>
    have hx : x.number = 0 := h.number_eq (i := 0) (by simp)
    have holder : older.reverse.find? (·.number = 0) = none := by
      have hlt := h.number_lt
      rw [List.pairwise_map] at hlt
      refine List.find?_eq_none.mpr fun y hy => ?_
      have hxy : x.number < y.number := (List.pairwise_cons.mp hlt).1 y (List.mem_reverse.mp hy)
      simp only [decide_eq_true_eq]
      omega
    rw [List.reverse_cons, List.find?_append, holder, Option.none_or, ← h.find?_live, List.map_cons]
    have hlive : x.revision.isLive = true := decide_eq_true hx
    simp [hx, hlive]

theorem liveRevision_of_issued (h : s.Listed documents) (hn : n.natAbs < 2 ^ 53) (hi : s.Issued n history) :
    ∃ live, s.liveRevision n = .ok live ∧ live.map facts = history.head?.map fun issue => (n, 0, issue) := by
  cases s with
  | memory m => exact ⟨_, rfl, ByAge.find?_live hi⟩
  | rows r =>
    refine ⟨_, bind_eq_ok.mpr ⟨(), Rows.checkConnected_eq_ok.mpr h.1,
      bind_eq_ok.mpr ⟨(), checkNumber_small (.rows r) hn, rfl⟩⟩, ?_⟩
    rw [Option.map_map]
    exact rows_live hi
  | keys k =>
    obtain ⟨items, hitems, rfl⟩ := hi
    refine ⟨_, bind_eq_ok.mpr ⟨(), Keys.checkConnected_eq_ok.mpr h.1,
      bind_eq_ok.mpr ⟨items, hitems, rfl⟩⟩, ?_⟩
    cases items <;> rfl

/-! ## The list of flows -/

/-- The row of a flow in the list of those that have a live revision. In memory it holds the
revisions, too. -/
def listing (s : Store) (n : Int) : Option (Definition × Json) :=
  match s.flowAt n, s.liveRevision n with
  | some d, .ok (some live) =>
    match s with
    | .memory m => some (m.withRevisions d, live.document)
    | .rows _ | .keys _ => some (d, live.document)
  | _, _ => none

private theorem eq_of_ascending {a b : List Int} (ha : a.Pairwise (· < ·)) (hb : b.Pairwise (· < ·))
    (h : ∀ n, n ∈ a ↔ n ∈ b) : a = b := by
  have hperm : a.Perm b := (List.perm_ext_iff_of_nodup (ha.imp fun h => Int.ne_of_lt h)
    (hb.imp fun h => Int.ne_of_lt h)).mpr h
  exact hperm.eq_of_pairwise (fun m n _ _ hmn hnm => absurd (Int.lt_trans hmn hnm) (Int.lt_irrefl m)) ha hb

private theorem ascending_mergeSort {α : Type} (w : α → Int) {l : List α} (h : (l.map w).Nodup) :
    ((l.mergeSort fun a b => decide (w a ≤ w b)).map w).Pairwise (· < ·) := by
  have hperm := List.mergeSort_perm l fun a b => decide (w a ≤ w b)
  have hle : (l.mergeSort fun a b => decide (w a ≤ w b)).Pairwise fun a b => w a ≤ w b := by
    refine (List.pairwise_mergeSort ?_ ?_ l).imp of_decide_eq_true
    · intro a b c hab hbc
      exact decide_eq_true (Int.le_trans (of_decide_eq_true hab) (of_decide_eq_true hbc))
    · intro a b
      simpa using Int.le_total (w a) (w b)
  have hne := List.pairwise_map.mp ((hperm.map w).nodup_iff.mpr h)
  refine List.pairwise_map.mpr ((hle.and hne).imp ?_)
  rintro a b ⟨hle, hne⟩
  omega

private theorem memory_listing {m : Memory} (h : (Store.memory m).Listed documents) {d : Definition}
    (hd : (n, d) ∈ m.flows) : (Store.memory m).listing n =
      (m.liveRevision n).map fun live => (m.withRevisions d, live.document) := by
  have hat : (Store.memory m).flowAt n = some d := Table.find?_eq_some_of_mem h.1 hd
  simp only [listing, hat, Store.liveRevision]
  cases m.liveRevision n <;> rfl

private theorem memory_active {m : Memory} (h : (Store.memory m).Listed documents) :
    ∃ ids : List Int, ids.Pairwise (· < ·) ∧ (∀ n, n ∈ ids ↔ n ∈ (Store.memory m).flowIds) ∧
      ∀ only, m.activeFlows only =
        (ids.filter fun n => only.all (· = n)).filterMap (Store.memory m).listing := by
  have hperm := List.mergeSort_perm m.flows fun a b => decide (a.1 ≤ b.1)
  refine ⟨_, ascending_mergeSort Prod.fst h.1, fun n => (hperm.map Prod.fst).mem_iff, ?_⟩
  intro only
  rw [List.filter_map, List.filterMap_map, Memory.activeFlows]
  refine List.filterMap_congr ?_
  rintro ⟨n, d⟩ hx
  exact (memory_listing h (hperm.mem_iff.mp (List.mem_filter.mp hx).1)).symm

private theorem rows_listing {r : Rows} (h : (Store.rows r).Listed documents) {f : FlowRow}
    (hf : f ∈ r.flows) : (Store.rows r).listing f.id =
      (r.revisions.find? fun x => x.flow = f.id && x.number = 0).map fun x =>
        (f.definition, x.snapshot.document) := by
  obtain ⟨hc, -, hnodup, hsize, -⟩ := h
  have hat : (Store.rows r).flowAt f.id = some f.definition := by
    rw [Rows.map_id_byId] at hnodup
    have hfound := Table.find?_eq_some_of_mem hnodup (List.mem_map_of_mem hf)
    rw [flowAt, Rows.find?_byId, hfound]
    rfl
  have hlive : (Store.rows r).liveRevision f.id = .ok ((r.revisions.find?
      fun x => x.flow = f.id && x.number = 0).map RevisionRow.revision) :=
    bind_eq_ok.mpr ⟨(), Rows.checkConnected_eq_ok.mpr hc, bind_eq_ok.mpr ⟨(), hsize f hf, rfl⟩⟩
  simp only [listing, hat, hlive]
  cases r.revisions.find? fun x => x.flow = f.id && x.number = 0 <;> rfl

private theorem rows_active {r : Rows} (h : (Store.rows r).Listed documents) :
    ∃ ids : List Int, ids.Pairwise (· < ·) ∧ (∀ n, n ∈ ids ↔ n ∈ (Store.rows r).flowIds) ∧
      ∀ only, (∀ n, only = some n → n.natAbs < 2 ^ 53) → r.activeFlows only =
        .ok ((ids.filter fun n => only.all (· = n)).filterMap (Store.rows r).listing) := by
  obtain ⟨hc, -, hnodup, -⟩ := id h
  have hconnected : r.checkConnected = .ok () := Rows.checkConnected_eq_ok.mpr hc
  have hids := List.mergeSort_perm r.flows fun a b => decide (a.id ≤ b.id)
  refine ⟨_, ascending_mergeSort FlowRow.id hnodup, fun n => (hids.map FlowRow.id).mem_iff, ?_⟩
  intro only hn
  have hactive : r.activeFlows only = .ok (((r.flows.filter fun f => only.all (· = f.id)).mergeSort
      fun a b => decide (a.id ≤ b.id)).filterMap fun f =>
        (r.revisions.find? fun x => x.flow = f.id && x.number = 0).map fun x =>
          (f.definition, x.snapshot.document)) := by
    cases only with
    | none => exact bind_eq_ok.mpr ⟨(), hconnected, rfl⟩
    | some n => exact bind_eq_ok.mpr ⟨(), hconnected, bind_eq_ok.mpr ⟨(), checkNumber_small (.rows r) (hn n rfl), rfl⟩⟩
  generalize hchosen : r.flows.filter (fun f => only.all (· = f.id)) = chosen at hactive
  have hsub : chosen.Sublist r.flows := hchosen ▸ List.filter_sublist
  have hperm := List.mergeSort_perm chosen fun a b => decide (a.id ≤ b.id)
  -- The flow that is asked for is chosen before the sort here, and after it in the order of all.
  have hsorted : (chosen.mergeSort fun a b => decide (a.id ≤ b.id)).map FlowRow.id =
      ((r.flows.mergeSort fun a b => decide (a.id ≤ b.id)).map FlowRow.id).filter
        fun n => only.all (· = n) := by
    refine eq_of_ascending (ascending_mergeSort FlowRow.id (hnodup.sublist (hsub.map _)))
      ((ascending_mergeSort FlowRow.id hnodup).filter _) ?_
    intro n
    rw [(hperm.map FlowRow.id).mem_iff, List.mem_filter, (hids.map FlowRow.id).mem_iff, ← hchosen]
    simp only [List.mem_map, List.mem_filter]
    constructor
    · rintro ⟨f, ⟨hf, hall⟩, rfl⟩
      exact ⟨⟨f, hf, rfl⟩, hall⟩
    · rintro ⟨⟨f, hf, rfl⟩, hall⟩
      exact ⟨f, ⟨hf, hall⟩, rfl⟩
  rw [hactive, ← hsorted, List.filterMap_map]
  refine congrArg _ (List.filterMap_congr ?_)
  intro f hf
  exact (rows_listing h (hsub.subset (hperm.mem_iff.mp hf))).symm

private theorem server_listing {k : Keys} (h : (Store.keys k).Listed documents) (n : Int) :
    ∃ found items, k.server.flow? (k.flowKey n) = .ok found ∧
      k.server.snapshots (k.revisionsKey n) = .ok items ∧ (Store.keys k).listing n =
        found.bind fun row => items.head?.map fun x => (row.definition, x.document) := by
  obtain ⟨hc, hflows, -, hsnapshots⟩ := h
  have hconnected : k.checkConnected = .ok () := Keys.checkConnected_eq_ok.mpr hc
  obtain ⟨items, hitems, -⟩ := hsnapshots n
  have hlive : (Store.keys k).liveRevision n = .ok (items.head?.map fun x => x.revision n 0) :=
    bind_eq_ok.mpr ⟨(), hconnected, bind_eq_ok.mpr ⟨items, hitems, rfl⟩⟩
  simp only [listing, hlive, flowAt, Server.flow?]
  cases hfound : Table.find? (k.flowKey n) k.server with
  | none => exact ⟨none, items, rfl, hitems, rfl⟩
  | some e =>
    obtain ⟨row, rfl, -⟩ := hflows n e hfound
    refine ⟨some row, items, rfl, hitems, ?_⟩
    cases items <;> rfl

private theorem server_active {k : Keys} (h : (Store.keys k).Listed documents)
    (ha : (Store.keys k).NumbersAscend) :
    ∃ ids : List Int, ids.Pairwise (· < ·) ∧ (∀ n, n ∈ ids ↔ n ∈ (Store.keys k).flowIds) ∧
      ∀ only, k.activeFlows only =
        .ok ((ids.filter fun n => only.all (· = n)).filterMap (Store.keys k).listing) := by
  have hmem := fun n => Listed.mem_flowIds (n := n) h
  have hread := server_listing h
  obtain ⟨hc, -, ⟨set, hset, -, -⟩, -⟩ := h
  have hconnected : k.checkConnected = .ok () := Keys.checkConnected_eq_ok.mpr hc
  have hids : (Store.keys k).flowIds = set.map Prod.fst := by simp only [flowIds, hset]
  have hascend : (set.map Prod.fst).Pairwise (· < ·) := List.pairwise_map.mpr (ha set hset).1
  refine ⟨set.map Prod.fst, hascend, fun n => by rw [hids], ?_⟩
  intro only
  cases only with
  | none =>
    refine bind_eq_ok.mpr ⟨(), hconnected, bind_eq_ok.mpr ⟨set.map Prod.fst, ?_, ?_⟩⟩
    · rw [hset]
      rfl
    · have hall : (set.map Prod.fst).filter (fun _ => true) = set.map Prod.fst :=
        List.filter_eq_self.mpr fun _ _ => rfl
      refine (filterMapM_eq_ok fun n _ => ?_).trans (congrArg _ (congrArg _ hall).symm)
      obtain ⟨found, items, hfound, hitems, hlisting⟩ := hread n
      rw [hfound, hitems, hlisting]
      cases found <;> rfl
  | some n =>
    obtain ⟨found, items, hfound, hitems, hlisting⟩ := hread n
    have hone : k.activeFlows (some n) = .ok ([n].filterMap (Store.keys k).listing) := by
      refine bind_eq_ok.mpr ⟨(), hconnected, bind_eq_ok.mpr ⟨[n], rfl, filterMapM_eq_ok fun m hm => ?_⟩⟩
      rw [List.mem_singleton.mp hm, hfound, hitems, hlisting]
      cases found <;> rfl
    rw [hone]
    have hfilter : (set.map Prod.fst).filter (fun m => n = m) =
        List.replicate ((set.map Prod.fst).count n) n :=
      (List.filter_congr fun _ _ => decide_eq_decide.mpr eq_comm).trans (List.filter_eq n)
    by_cases hn : n ∈ set.map Prod.fst
    · have hsingle : (set.map Prod.fst).filter (fun m => n = m) = [n] :=
        hfilter.trans (by rw [List.count_eq_one_of_mem (hascend.imp Int.ne_of_lt) hn]; rfl)
      exact congrArg Except.ok (congrArg (List.filterMap (Store.keys k).listing) hsingle).symm
    · have hnone : (set.map Prod.fst).filter (fun m => n = m) = [] :=
        hfilter.trans (by rw [List.count_eq_zero_of_not_mem hn]; rfl)
      have hlisting : (Store.keys k).listing n = none := by
        have hat : (Store.keys k).flowAt n = none :=
          Option.not_isSome_iff_eq_none.mp fun hsome => hn (hids ▸ (hmem n).mpr hsome)
        rw [listing, hat]
      rw [List.filterMap_cons, hlisting]
      exact congrArg Except.ok (congrArg (List.filterMap (Store.keys k).listing) hnone).symm

theorem active_eq (h : s.Listed documents) (ha : s.NumbersAscend) :
    ∃ ids : List Int, ids.Pairwise (· < ·) ∧ (∀ n, n ∈ ids ↔ n ∈ s.flowIds) ∧
      ∀ only, (∀ n, only = some n → n.natAbs < 2 ^ 53) →
        s.activeFlows only = .ok ((ids.filter fun n => only.all (· = n)).filterMap s.listing) := by
  cases s with
  | memory m =>
    obtain ⟨ids, hascend, hids, hactive⟩ := memory_active h
    exact ⟨ids, hascend, hids, fun only _ => congrArg Except.ok (hactive only)⟩
  | rows r => exact rows_active h
  | keys k =>
    obtain ⟨ids, hascend, hids, hactive⟩ := server_active h ha
    exact ⟨ids, hascend, hids, fun only _ => hactive only⟩

theorem listing_eq_some (h : s.Listed documents) {d : Definition} {document : Json}
    (hl : s.listing n = some (d, document)) : d.id = some n ∧
      (∃ e, s.flowAt n = some e ∧ { d with revisions := s.revisionsAt n } = { e with revisions := s.revisionsAt n }) ∧
      ∃ live, s.liveRevision n = .ok (some live) ∧ live.document = document := by
  unfold listing at hl
  split at hl
  · rename_i e live he hlive
    have hid : e.id = some n := h.flowAt_id he
    split at hl
    all_goals
      cases hl
      exact ⟨hid, ⟨_, he, rfl⟩, live, hlive, rfl⟩
  · cases hl

/-- A row of a load is the listing of its flow, whether all flows are loaded or one. -/
theorem listing_of_active (h : s.Listed documents) {only : Option Int} {rows : List (Definition × Json)}
    (hr : s.activeFlows only = .ok rows) {row : Definition × Json} (hrow : row ∈ rows)
    (hid : row.1.id = some n) : s.listing n = some row := by
  cases s with
  | memory m =>
    cases hr
    obtain ⟨⟨k, d⟩, hd, hfound⟩ := List.mem_filterMap.mp hrow
    have hmem : (k, d) ∈ m.flows := List.mem_mergeSort.mp (List.mem_filter.mp hd).1
    have hk : k = n := by
      obtain ⟨live, -, rfl⟩ := Option.map_eq_some_iff.mp hfound
      exact Option.some.inj ((h.2.1 _ hmem).symm.trans hid)
    exact hk ▸ (memory_listing h hmem).trans hfound
  | rows r =>
    have hchosen (hmem : row ∈ ((r.flows.filter fun f => only.all (· = f.id)).mergeSort
        fun a b => decide (a.id ≤ b.id)).filterMap fun f =>
          (r.revisions.find? fun x => x.flow = f.id && x.number = 0).map fun x =>
            (f.definition, x.snapshot.document)) : (Store.rows r).listing n = some row := by
      obtain ⟨f, hf, hfound⟩ := List.mem_filterMap.mp hmem
      have hfn : f.id = n := by
        obtain ⟨x, -, rfl⟩ := Option.map_eq_some_iff.mp hfound
        exact Option.some.inj hid
      exact hfn ▸ (rows_listing h (List.mem_filter.mp (List.mem_mergeSort.mp hf)).1).trans hfound
    obtain ⟨_, -, hr⟩ := bind_eq_ok.mp hr
    split at hr
    · obtain ⟨_, -, hr⟩ := bind_eq_ok.mp hr
      cases hr
      exact hchosen hrow
    · cases hr
      exact hchosen hrow
  | keys k =>
    obtain ⟨hc, hflows, -, -⟩ := h
    obtain ⟨_, -, hr⟩ := bind_eq_ok.mp hr
    split at hr
    all_goals
      obtain ⟨flows, -, hr⟩ := bind_eq_ok.mp hr
      obtain ⟨m, -, ho⟩ := of_mem_filterMapM hr hrow
      obtain ⟨found, hfound, ho⟩ := bind_eq_ok.mp ho
      cases found with
      | none => cases ho
      | some found =>
        obtain ⟨items, hitems, ho⟩ := bind_eq_ok.mp ho
        obtain ⟨x, hx, rfl⟩ := Option.map_eq_some_iff.mp (Except.ok.inj ho)
        have hentry := (Keys.find?_of_flow? hfound found).mpr rfl
        obtain ⟨_, ⟨⟩, hm⟩ := hflows m _ hentry
        have hmn : m = n := hm.symm.trans (Option.some.inj hid)
        subst hmn
        have hat : (Store.keys k).flowAt m = some found.definition :=
          Keys.flowAt_eq_some.mpr ⟨found, hentry, rfl⟩
        have hlive : (Store.keys k).liveRevision m = .ok (some (x.revision m 0)) :=
          bind_eq_ok.mpr ⟨(), Keys.checkConnected_eq_ok.mpr hc,
            bind_eq_ok.mpr ⟨items, hitems, congrArg Except.ok (by rw [hx]; rfl)⟩⟩
        simp only [listing, hat, hlive]
        rfl

/-- A document is the live one of a flow that is stored and whose live revision has it. -/
theorem isLive_of_flowAt (h : s.Listed documents) {d : Definition} (hd : s.flowAt n = some d)
    {live : Revision} (hl : s.liveRevision n = .ok (some live)) : s.IsLive n live.document := by
  have hnumber : s.checkNumber n = .ok () := by
    cases s with
    | memory m => rfl
    | rows r =>
      obtain ⟨_, -, hl⟩ := bind_eq_ok.mp hl
      obtain ⟨_, hsize, -⟩ := bind_eq_ok.mp hl
      exact hsize
    | keys k => rfl
  refine ⟨⟨{ d with revisions := s.revisionsAt n }, ?_⟩, live, hl, rfl⟩
  rw [getFlow_eq h.readable, hnumber, hd]
  rfl

theorem isSome_listing {d : Definition} (hd : s.flowAt n = some d) {live : Option Revision}
    (hl : s.liveRevision n = .ok live) : (s.listing n).isSome = live.isSome := by
  rw [listing, hd, hl]
  cases live with
  | none => rfl
  | some r => cases s <;> rfl

/-! ## Documents under known numbers -/

section Saves
variable {time : Moment} {trigger : Option String} {document : Json} {status : Publishing}

private theorem flowAt_keys_congr {k k' : Keys} {m : Int}
    (h : Table.find? (k'.flowKey m) k'.server = Table.find? (k.flowKey m) k.server) :
    (Store.keys k').flowAt m = (Store.keys k).flowAt m := by
  simp only [flowAt, h]

/-- A revision that is saved leaves every flow as it is. -/
theorem flowAt_saveRevision {revision : Revision}
    (h : s.saveRevision time trigger n document status = .ok (revision, t)) (m : Int) :
    t.flowAt m = s.flowAt m := by
  cases s with
  | memory memory =>
    obtain ⟨memory', ho, rfl⟩ := wrapped_eq_ok.mp h
    unfold Memory.saveRevision at ho
    split at ho
    · cases ho
    cases ho
    rfl
  | rows r =>
    obtain ⟨r', ho, rfl⟩ := wrapped_eq_ok.mp h
    simp only [Rows.saveRevision, bind_eq_ok] at ho
    obtain ⟨_, -, _, -, ho⟩ := ho
    split at ho
    · cases ho
    split at ho
    · cases ho
    cases ho
    rfl
  | keys k =>
    obtain ⟨k', ho, rfl⟩ := wrapped_eq_ok.mp h
    simp only [Keys.saveRevision, bind_eq_ok] at ho
    obtain ⟨_, -, ho⟩ := ho
    split at ho
    · cases ho
    obtain ⟨older, -, ho⟩ := bind_eq_ok.mp ho
    cases ho
    exact flowAt_keys_congr ((Table.find?_put ..).trans (if_neg (k.revisionsKey_ne_flowKey n m)))

theorem saveRevision_unknown (h : s.Listed documents) (hn : n ∉ s.flowIds) :
    s.saveRevision time trigger n document status =
      (s.checkNumber n >>= fun _ => .error (.storage (.flowMissing n))) := by
  have hat : s.flowAt n = none :=
    Option.not_isSome_iff_eq_none.mp fun hsome => hn (h.mem_flowIds.mpr hsome)
  cases s with
  | memory m =>
    have hnone : (Table.find? n m.flows).isNone = true := by
      rw [show Table.find? n m.flows = none from hat]
      rfl
    change wrapped _ (m.saveRevision _ _ _ _) = _
    rw [Memory.saveRevision, if_pos hnone]
    rfl
  | rows r =>
    have hc : r.checkConnected = .ok () := Rows.checkConnected_eq_ok.mpr h.1
    have hany : (r.flows.any fun f => f.id = n) = false := by
      have hn' : n ∉ r.flows.map FlowRow.id := hn
      simpa using hn'
    change wrapped _ (r.saveRevision _ _ _ _ _) = _
    unfold Rows.saveRevision
    rw [hc, checkNumber]
    change wrapped _ (Rows.checkSize n >>= _) = _
    cases Rows.checkSize n with
    | error f => rfl
    | ok _ =>
      simp only [hany]
      rfl
  | keys k =>
    have hc : k.checkConnected = .ok () := Keys.checkConnected_eq_ok.mpr h.1
    have hholds : k.server.holds (k.flowKey n) = false := by
      rw [Server.holds]
      cases hfound : Table.find? (k.flowKey n) k.server with
      | none => rfl
      | some e =>
        obtain ⟨row, rfl, -⟩ := h.2.1 n e hfound
        rw [flowAt, hfound] at hat
        cases hat
    change wrapped _ (k.saveRevision _ _ _ _) = _
    rw [Keys.saveRevision, hc]
    simp only [hholds]
    rfl

theorem saveRevision_known (h : s.Listed documents) (hn : n ∈ s.flowIds) :
    ∃ saved, s.saveRevision time none n document status = .ok saved := by
  obtain ⟨d, hat⟩ := Option.isSome_iff_exists.mp (h.mem_flowIds.mp hn)
  cases s with
  | memory m =>
    have hsome : ¬ (Table.find? n m.flows).isNone = true := by
      rw [show Table.find? n m.flows = some d from hat]
      exact Bool.false_ne_true
    have hsaved : ∃ saved, m.saveRevision time n document status = .ok saved := ⟨_, if_neg hsome⟩
    obtain ⟨saved, hsaved⟩ := hsaved
    exact ⟨_, wrapped_eq_ok.mpr ⟨saved.2, hsaved, rfl⟩⟩
  | rows r =>
    obtain ⟨hc, -, -, hsize, -⟩ := h
    obtain ⟨f, hf, rfl⟩ := List.mem_map.mp hn
    have hconnected : r.checkConnected = .ok () := Rows.checkConnected_eq_ok.mpr hc
    have hany : (r.flows.any fun g => g.id = f.id) = true := List.any_eq_true.mpr ⟨f, hf, by simp⟩
    have hsaved : ∃ saved, r.saveRevision time none f.id document status = .ok saved := by
      unfold Rows.saveRevision
      rw [hconnected, hsize f hf, hany]
      exact ⟨_, rfl⟩
    obtain ⟨saved, hsaved⟩ := hsaved
    exact ⟨_, wrapped_eq_ok.mpr ⟨saved.2, hsaved, rfl⟩⟩
  | keys k =>
    obtain ⟨hc, -, -, hsnapshots⟩ := h
    obtain ⟨items, hitems, -⟩ := hsnapshots n
    obtain ⟨row, hrow, -⟩ := Keys.flowAt_eq_some.mp hat
    have hconnected : k.checkConnected = .ok () := Keys.checkConnected_eq_ok.mpr hc
    have hholds : k.server.holds (k.flowKey n) = true := by
      rw [Server.holds, hrow]
      rfl
    have hsaved : ∃ saved, k.saveRevision time n document status = .ok saved := by
      unfold Keys.saveRevision
      rw [hconnected, hholds, hitems]
      exact ⟨_, rfl⟩
    obtain ⟨saved, hsaved⟩ := hsaved
    exact ⟨_, wrapped_eq_ok.mpr ⟨saved.2, hsaved, rfl⟩⟩

end Saves

end DurableFlow.Store
