import DurableFlow.Proofs.Flow.Publications
import DurableFlow.Proofs.Store.CopiedReads
import DurableFlow.Proofs.Store.StoredFlows

/-! Published revisions. A document that is saved as the revision of a flow is in force: every read of
the flow gives it. It stays in force as long as the flow gets no other revision. -/
namespace DurableFlow
open DurableFlow.Action (Ensures)
open DurableFlow.Flow (Publishing Revision)
open Store (SameFlows bind_eq_ok)

namespace Store
variable {s s' : Store}

/-! ## Flows under their numbers -/

namespace Keys
variable {k : Keys} {server : Server}

def Catalogued (k : Keys) (server : Server) : Prop :=
  ∀ n row, Table.find? (k.flowKey n) server = some (.flow row) → row.id = n

theorem Catalogued.flow_id (h : k.Catalogued server) {n : Int} {row : FlowRow}
    (hr : server.flow? (k.flowKey n) = .ok (some row)) : row.id = n := by
  apply h
  unfold Server.flow? at hr
  split at hr
  · cases hr
  · rename_i hfound
    cases hr
    exact hfound
  · cases hr

private theorem Catalogued.put (h : k.Catalogued server) {key : String} {entry : Entry}
    (he : ∀ row, entry = .flow row → key = k.flowKey row.id) :
    k.Catalogued (Table.put key entry server) := by
  intro n row hfound
  rw [Table.find?_put] at hfound
  split at hfound
  · rename_i hkey
    cases hfound
    exact flowKey_inj k ((he row rfl).symm.trans hkey)
  · exact h n row hfound

private theorem Catalogued.fileFlow (h : k.Catalogued k.server) {id : Int} {d : Flow.Definition}
    {previous : Option FlowRow} (hf : k.fileFlow id d previous = .ok server) :
    k.Catalogued server := by
  simp only [Keys.fileFlow, bind_eq_ok] at hf
  obtain ⟨uuid, -, shortcode, -, name, -, language, -, format, -, byUuid, -, byShortcode, -,
    numbers, -, hserver⟩ := hf
  cases hserver
  refine Catalogued.put (Catalogued.put (Catalogued.put (Catalogued.put h ?_) ?_) ?_) ?_
  · rintro row ⟨⟩
    rfl
  all_goals
    intro row he
    cases he

private theorem saveFlow_catalogued (h : k.Catalogued k.server) (d : Flow.Definition) :
    Ensures Keys.saveFlow ⟨k, d⟩ (fun _ g => g.state.Catalogued g.state.server)
      (fun _ g => g.state.Catalogued g.state.server) := by
  unfold Keys.saveFlow
  apply Ensures.bind
  apply Ensures.get
  apply Ensures.bind
  apply Ensures.held
  have hchecked {α : Type} (r : Except Failure α) {k : Keys} (h : k.Catalogued k.server)
      {d : Flow.Definition} :
      Ensures (Action.ofExcept r) (⟨k, d⟩ : Holding Keys Flow.Definition)
        (fun a g => g = ⟨k, d⟩ ∧ r = .ok a) (fun _ g => g.state.Catalogued g.state.server) :=
    Ensures.ofExcept (fun _ ha => ⟨rfl, ha⟩) (fun _ _ => h)
  apply Ensures.bind
  refine (hchecked _ h).mono ?_ (fun _ _ hf => hf)
  rintro _ _ ⟨rfl, -⟩
  apply Ensures.bind
  refine (hchecked _ h).mono ?_ (fun _ _ hf => hf)
  rintro _ _ ⟨rfl, -⟩
  apply Ensures.bind
  refine (hchecked _ h).mono ?_ (fun _ _ hf => hf)
  rintro _ _ ⟨rfl, -⟩
  split
  · apply Ensures.bind
    refine (hchecked _ h).mono ?_ (fun _ _ hf => hf)
    rintro previous _ ⟨rfl, -⟩
    apply Ensures.bind
    refine (hchecked _ h).mono ?_ (fun _ _ hf => hf)
    rintro server _ ⟨rfl, hserver⟩
    apply Ensures.modify
    exact h.fileFlow hserver
  · apply Ensures.bind
    refine (hchecked _ h).mono ?_ (fun _ _ hf => hf)
    rintro count _ ⟨rfl, -⟩
    apply Ensures.bind
    apply Ensures.set
    let counted : Keys :=
      { k with server := Table.put (k.key ["flow_seq"]) (.counter (count + 1)) k.server }
    have hcounted : counted.Catalogued counted.server := Catalogued.put h fun row he => by cases he
    apply Ensures.bind
    refine (hchecked _ hcounted).mono ?_ (fun _ _ hf => hf)
    rintro server _ ⟨rfl, hserver⟩
    apply Ensures.modify
    have hfiled := Catalogued.fileFlow hcounted hserver
    exact hfiled

end Keys

def Catalogued : Store → Prop
  | .memory m => ∀ n d, (n, d) ∈ m.flows → d.id = some n
  | .rows r => ∀ x ∈ r.revisions, 0 ≤ x.number
  | .keys k => k.Catalogued k.server

/-- A store that holds nothing has all of it in place. -/
theorem catalogued_empty (place : Option String) (url ns : String) :
    Catalogued (.memory .empty) ∧ Catalogued (.rows (.empty place)) ∧
      Catalogued (.keys ⟨url, ns, true, []⟩) := by
  refine ⟨?_, ?_, ?_⟩
  · intro n d h
    cases h
  · intro x h
    cases h
  · intro n row h
    cases h

/-- Saves of flows keep the catalogue. -/
theorem Catalogued.saveFlow (hs : s.Catalogued) (d : Flow.Definition) :
    Ensures Store.saveFlow ⟨s, d⟩ (fun _ g => g.state.Catalogued)
      (fun _ g => g.state.Catalogued) := by
  unfold Store.saveFlow
  apply Ensures.bind
  apply Ensures.held
  apply Ensures.bind
  apply Ensures.get
  cases s with
  | memory m =>
    dsimp only
    unfold Ensures Store.keepHeld Store.wrapped
    cases ho : m.saveFlow d with
    | ok saved =>
      obtain ⟨d', m'⟩ := saved
      unfold Memory.saveFlow at ho
      split at ho
      · cases ho
      · cases ho
        intro n d' hmem
        rcases Table.mem_put hmem with heq | hold
        · cases heq
          rfl
        · exact hs n d' hold
    | error f => exact hs
  | rows r =>
    dsimp only
    unfold Ensures Store.keepHeld Store.wrapped
    cases ho : r.saveFlow d with
    | ok saved =>
      obtain ⟨d', r'⟩ := saved
      have hsame : r'.revisions = r.revisions := by
        simp only [Rows.saveFlow, bind_eq_ok] at ho
        obtain ⟨_, -, ho⟩ := ho
        split at ho
        all_goals
          obtain ⟨id, -, ho⟩ := bind_eq_ok.mp ho
          split at ho
          · cases ho
          · split at ho
            · cases ho
            · cases ho
              rfl
      intro x hx
      exact hs x (hsame ▸ hx)
    | error f => exact hs
  | keys k =>
    have h := Keys.saveFlow_catalogued hs d
    dsimp only
    unfold Ensures Store.within
    cases ho : Keys.saveFlow ⟨k, d⟩ with
    | ok _ g => exact h.of_eq_ok ho
    | error f g => exact h.of_eq_error ho

/-! ## Saved revisions -/

section Revisions
variable {time : Moment} {trigger : Option String} {flow : Int} {document : Json}
  {status : Publishing} {revision : Revision}

private theorem memory_saved {m m' : Memory}
    (h : m.saveRevision time flow document status = .ok (revision, m')) :
    m'.flows = m.flows ∧ ∃ live, m'.liveRevision flow = some live ∧ live.document = document := by
  unfold Memory.saveRevision at h
  split at h
  · cases h
  · cases h
    refine ⟨rfl, ⟨flow, 0, document, status, time, m.saves⟩, ?_, rfl⟩
    simp only [Memory.liveRevision, Memory.revisionsOf, Table.find?_put, if_true, Option.getD_some,
      List.find?_cons, Revision.isLive, decide_true]

private theorem rows_saved {r r' : Rows} (hr : ∀ x ∈ r.revisions, 0 ≤ x.number)
    (h : r.saveRevision time trigger flow document status = .ok (revision, r')) :
    (∀ x ∈ r'.revisions, 0 ≤ x.number) ∧ r'.checkConnected = .ok () ∧ Rows.checkSize flow = .ok () ∧
      ∃ x, r'.revisions.find? (fun x => x.flow = flow && x.number = 0) = some x ∧
        x.snapshot.document = document := by
  simp only [Rows.saveRevision, bind_eq_ok] at h
  obtain ⟨_, hconnected, _, hsize, h⟩ := h
  split at h
  · cases h
  split at h
  · cases h
  cases h
  refine ⟨?_, hconnected, hsize, ⟨flow, 0, document, status, time.millis⟩, ?_, rfl⟩
  · intro x hx
    rcases List.mem_append.mp hx with hold | hnew
    · obtain ⟨y, hy, rfl⟩ := List.mem_map.mp hold
      have hnumber := hr y hy
      split
      · change 0 ≤ y.number + 1
        omega
      · exact hnumber
    · cases List.mem_singleton.mp hnew
      exact Int.le_refl 0
  · have hnone : (r.revisions.map fun x => if x.flow = flow then { x with number := x.number + 1 } else x).find?
        (fun x => x.flow = flow && x.number = 0) = none := by
      refine List.find?_eq_none.mpr fun x hold => ?_
      obtain ⟨y, hy, rfl⟩ := List.mem_map.mp hold
      have hnumber := hr y hy
      split
      · simp only [Bool.and_eq_true, decide_eq_true_eq]
        omega
      · rename_i hother
        simp [hother]
    rw [List.find?_append, hnone]
    simp

private theorem keys_saved {k k' : Keys}
    (h : k.saveRevision time flow document status = .ok (revision, k')) :
    (k.Catalogued k.server → k'.Catalogued k'.server) ∧ k'.checkConnected = .ok () ∧
      ∃ first rest, k'.server.snapshots (k'.revisionsKey flow) = .ok (first :: rest) ∧
        first.document = document := by
  simp only [Keys.saveRevision, bind_eq_ok] at h
  obtain ⟨_, hconnected, h⟩ := h
  split at h
  · cases h
  obtain ⟨older, -, h⟩ := bind_eq_ok.mp h
  cases h
  constructor
  · intro hk
    apply Keys.Catalogued.put hk
    intro row he
    cases he
  have hput (key : String) (items : List Snapshot) :
      Server.snapshots key (Table.put key (.snapshots items) k.server) = .ok items := by
    simp [Server.snapshots, Table.find?_put]
  exact ⟨hconnected, ⟨document, status, time.millis⟩, older, hput _ _, rfl⟩

/-- Saves of revisions keep the catalogue. -/
theorem Catalogued.saveRevision (hs : s.Catalogued)
    (h : s.saveRevision time trigger flow document status = .ok (revision, s')) :
    s'.Catalogued := by
  cases s with
  | memory m =>
    obtain ⟨m', ho, rfl⟩ := wrapped_eq_ok.mp h
    intro n d hmem
    exact hs n d ((memory_saved ho).1 ▸ hmem)
  | rows r =>
    obtain ⟨r', ho, rfl⟩ := wrapped_eq_ok.mp h
    exact (rows_saved hs ho).1
  | keys k =>
    obtain ⟨k', ho, rfl⟩ := wrapped_eq_ok.mp h
    exact (keys_saved ho).1 hs

/-- A revision that is saved is read as the live one. -/
theorem Catalogued.live_of_saved (hs : s.Catalogued)
    (h : s.saveRevision time trigger flow document status = .ok (revision, s')) :
    ∃ live, s'.liveRevision flow = .ok (some live) ∧ live.document = document := by
  cases s with
  | memory m =>
    obtain ⟨m', ho, rfl⟩ := wrapped_eq_ok.mp h
    obtain ⟨-, live, hlive, hdocument⟩ := memory_saved ho
    exact ⟨live, congrArg Except.ok hlive, hdocument⟩
  | rows r =>
    obtain ⟨r', ho, rfl⟩ := wrapped_eq_ok.mp h
    obtain ⟨-, hconnected, hsize, x, hx, hdocument⟩ := rows_saved hs ho
    refine ⟨x.snapshot.revision x.flow x.number, ?_, hdocument⟩
    exact bind_eq_ok.mpr ⟨(), hconnected, bind_eq_ok.mpr ⟨(), hsize, congrArg Except.ok (by rw [hx]; rfl)⟩⟩
  | keys k =>
    obtain ⟨k', ho, rfl⟩ := wrapped_eq_ok.mp h
    obtain ⟨-, hconnected, first, rest, hfirst, hdocument⟩ := keys_saved ho
    exact ⟨first.revision flow 0, bind_eq_ok.mpr ⟨(), hconnected, bind_eq_ok.mpr ⟨_, hfirst, rfl⟩⟩, hdocument⟩

end Revisions

/-- The loss of a live revision keeps the catalogue. -/
theorem Catalogued.dropLive (hs : s.Catalogued) (flow : Int) : (s.dropLive flow).Catalogued := by
  cases s with
  | memory m => exact hs
  | rows r => exact fun x hx => hs x (List.mem_filter.mp hx).1
  | keys k => exact hs

end Store

/-! ## Publications in force -/

namespace Flow.Publication

/-- The publication is in force: it is the document that every read of the flow gives, and the flow
is read under its number. -/
structure InForce (p : Publication) (s : Store) : Prop where
  live : ∀ r, s.liveRevision p.flow = .ok (some r) → r.document = p.raw
  active : ∀ only rows d document, s.activeFlows only = .ok rows → (d, document) ∈ rows →
    d.id.getD 0 = p.flow → document = p.raw
  numbered : ∀ d, s.getFlow (p.flow : Identifier) = .ok (some d) → d.id = some p.flow

variable {p : Publication}

theorem InForce.sameFlows {s s' : Store} (h : p.InForce s) (hs : SameFlows s s') :
    p.InForce s' := by
  obtain ⟨hl, ha, hn⟩ := h
  constructor
  · intro r hr
    exact hl r (hs.liveRevision _ ▸ hr)
  · intro only rows d document hrows
    exact ha only rows d document (hs.activeFlows _ ▸ hrows)
  · intro d hd
    exact hn d (hs.getFlow _ ▸ hd)

private theorem memory_inForce {m : Store.Memory} (hm : Store.Catalogued (.memory m))
    (hlive : ∀ live, m.liveRevision p.flow = some live → live.document = p.raw) :
    p.InForce (.memory m) := by
  constructor
  · intro live hl
    exact hlive live (Except.ok.inj hl)
  · rintro only _ d document ⟨⟩ hmem hid
    obtain ⟨⟨n, d₀⟩, hd₀, hrow⟩ := List.mem_filterMap.mp hmem
    obtain ⟨live, hl, heq⟩ := Option.map_eq_some_iff.mp hrow
    cases heq
    have hsame : d₀.id.getD 0 = p.flow := hid
    rw [hm n d₀ (List.mem_mergeSort.mp (List.mem_filter.mp hd₀).1)] at hsame
    cases hsame
    exact hlive live hl
  · intro d hd
    obtain ⟨⟨n, d₀⟩, hfound, rfl⟩ := Option.map_eq_some_iff.mp (Except.ok.inj hd)
    have hanswers := List.find?_some hfound
    exact of_decide_eq_true hanswers

private theorem rows_inForce {r : Store.Rows}
    (hlive : ∀ x, r.revisions.find? (fun x => x.flow = p.flow && x.number = 0) = some x →
      x.snapshot.document = p.raw) : p.InForce (.rows r) := by
  constructor
  · intro live hl
    simp only [Store.liveRevision, Store.Rows.liveRevision, bind_eq_ok] at hl
    obtain ⟨_, -, _, -, hl⟩ := hl
    obtain ⟨x, hx, rfl⟩ := Option.map_eq_some_iff.mp (Except.ok.inj hl)
    exact hlive x hx
  · intro only rows d document hrows hmem hid
    have hchosen (h : (d, document) ∈
        ((r.flows.filter fun f => only.all (· = f.id)).mergeSort fun a b =>
          decide (a.id ≤ b.id)).filterMap fun f =>
            (r.revisions.find? fun x => x.flow = f.id && x.number = 0).map fun x =>
              (f.definition, x.snapshot.document)) : document = p.raw := by
      obtain ⟨f, -, hrow⟩ := List.mem_filterMap.mp h
      obtain ⟨x, hx, heq⟩ := Option.map_eq_some_iff.mp hrow
      cases heq
      have hflow : f.id = p.flow := hid
      rw [hflow] at hx
      exact hlive x hx
    simp only [Store.activeFlows, Store.Rows.activeFlows, bind_eq_ok] at hrows
    obtain ⟨_, -, hrows⟩ := hrows
    split at hrows
    · obtain ⟨_, -, hrows⟩ := bind_eq_ok.mp hrows
      cases hrows
      exact hchosen hmem
    · cases hrows
      exact hchosen hmem
  · intro d hd
    simp only [Store.getFlow, Store.Rows.getFlow, bind_eq_ok] at hd
    obtain ⟨_, -, _, ⟨⟩, hd⟩ := hd
    obtain ⟨_, -, hd⟩ := bind_eq_ok.mp hd
    obtain ⟨f, hfound, rfl⟩ := Option.map_eq_some_iff.mp (Except.ok.inj hd)
    have hanswers := List.find?_some hfound
    exact congrArg some (of_decide_eq_true hanswers)

private theorem keys_inForce {k : Store.Keys} (hk : k.Catalogued k.server) {first : Store.Snapshot}
    {rest : List Store.Snapshot} (hfirst : first.document = p.raw)
    (hlive : k.server.snapshots (k.revisionsKey p.flow) = .ok (first :: rest)) :
    p.InForce (.keys k) := by
  constructor
  · intro live hl
    simp only [Store.liveRevision, Store.Keys.liveRevision, bind_eq_ok, hlive] at hl
    obtain ⟨_, -, _, ⟨⟩, hl⟩ := hl
    cases hl
    exact hfirst
  · intro only rows d document hrows hmem hid
    simp only [Store.activeFlows, Store.Keys.activeFlows, bind_eq_ok] at hrows
    obtain ⟨_, -, hrows⟩ := hrows
    split at hrows
    all_goals
      obtain ⟨flows, -, hrows⟩ := bind_eq_ok.mp hrows
      obtain ⟨n, -, hrow⟩ := Store.of_mem_filterMapM hrows hmem
      obtain ⟨found, hfound, hrow⟩ := bind_eq_ok.mp hrow
      cases found with
      | none => cases hrow
      | some row =>
        obtain ⟨items, hitems, hrow⟩ := bind_eq_ok.mp hrow
        obtain ⟨item, hitem, heq⟩ := Option.map_eq_some_iff.mp (Except.ok.inj hrow)
        cases heq
        have hflow : row.id = p.flow := hid
        rw [(hk.flow_id hfound).symm.trans hflow, hlive] at hitems
        cases hitems
        cases hitem
        exact hfirst
  · intro d hd
    simp only [Store.getFlow, Store.Keys.getFlow, bind_eq_ok] at hd
    obtain ⟨_, -, found, hresolved, hd⟩ := hd
    cases hresolved
    obtain ⟨row, hrow, hd⟩ := bind_eq_ok.mp hd
    cases row with
    | none => cases hd
    | some row =>
      obtain ⟨items, -, hd⟩ := bind_eq_ok.mp hd
      cases hd
      exact congrArg some (hk.flow_id hrow)

/-- A document that has been saved as a revision of its flow is in force. -/
theorem inForce_of_saved {s s' : Store} (hs : s.Catalogued) {time : Moment}
    {trigger : Option String} {status : Publishing} {revision : Revision}
    (h : s.saveRevision time trigger p.flow p.raw status = .ok (revision, s')) : p.InForce s' := by
  have hs' := hs.saveRevision h
  cases s with
  | memory m =>
    obtain ⟨m', ho, rfl⟩ := Store.wrapped_eq_ok.mp h
    obtain ⟨-, live, hlive, hdocument⟩ := Store.memory_saved ho
    refine memory_inForce hs' fun live' hl => ?_
    cases hlive.symm.trans hl
    exact hdocument
  | rows r =>
    obtain ⟨r', ho, rfl⟩ := Store.wrapped_eq_ok.mp h
    obtain ⟨-, -, -, x, hx, hdocument⟩ := Store.rows_saved hs ho
    refine rows_inForce fun y hy => ?_
    cases hx.symm.trans hy
    exact hdocument
  | keys k =>
    obtain ⟨k', ho, rfl⟩ := Store.wrapped_eq_ok.mp h
    obtain ⟨_, -, first, rest, hlive, hfirst⟩ := Store.keys_saved ho
    exact keys_inForce hs' hfirst hlive

end Flow.Publication
end DurableFlow
