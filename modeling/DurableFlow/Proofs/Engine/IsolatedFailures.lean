import DurableFlow.Proofs.Engine.CatalogueRuns
import DurableFlow.Proofs.Flow.ReorderedDocuments

/-! Isolated failures: a document that is refused does not keep the others from being loaded. -/
namespace DurableFlow.Engine
open DurableFlow.Flow (Definition Publishing WellFormed Legible)
open Json (AlikeMembers)

/-- Documents with one checksum, once cleaned, differ in the order of members at most. -/
def ToldApart (documents : List Json) : Prop :=
  ∀ raw ∈ documents, ∀ raw' ∈ documents, ∀ body body',
    Flow.clean raw = .ok body → Flow.clean raw' = .ok body' →
      (Json.object body).checksum = (Json.object body').checksum → AlikeMembers body body'

def IsServed (s : Store) (n : Int) (document : Json) : Prop :=
  ∃ raw body, s.IsLive n raw ∧ Flow.clean raw = .ok body ∧ document = .object body

/-- A registry holds a compilation for each live document that is well-formed, a failure for each that is
not, and nothing else. -/
structure Isolates (s : Store) (r : Registry) : Prop where
  compiled : ∀ (n : Int) document, IsServed s n document → WellFormed document →
    (∃ c, r.get? n = some c ∧ c.graph.id = some n) ∧ Table.find? n r.failures = none
  refused : ∀ (n : Int) document, IsServed s n document → ¬ WellFormed document →
    r.get? n = none ∧ ∃ fault, Table.find? n r.failures = some (.malformed (some n) fault)
  nothing : ∀ n : Int, (∀ document, ¬ IsServed s n document) →
    r.get? n = none ∧ Table.find? n r.failures = none

/-- A load isolates the failures in a store: it ends well if every live document is legible, and
whenever it ends well the registry holds what can be compiled. -/
structure IsolatesFailures (s : Store) (outcome : EStateM.Result Failure Engine Unit) : Prop where
  returns : (∀ n raw, s.IsLive n raw → ∃ body, Flow.clean raw = .ok body ∧ Legible (.object body)) →
    ∃ e', outcome = .ok () e'
  loaded : ∀ e', outcome = .ok () e' → e'.store = s ∧ Isolates s e'.registry

def anew (e : Engine) : Engine := { e with registry := .empty }

variable {documents : List Json} {e : Engine} {previous r : Registry} {s : Store}

theorem Stocked.anew (h : Stocked documents e) : Stocked documents e.anew :=
  ⟨h.alone, h.unfailing, h.listed, .empty⟩

theorem refresh_eq {rows : List (Definition × Json)}
    (h : ask .activeFlows (Store.activeFlows none) e.anew = .ok rows e.anew) :
    refresh e = loadRows e.registry rows 0 e.anew := Action.bind_of_ok h

theorem loadAll_eq {rows : List (Definition × Json)}
    (h : ask .activeFlows (Store.activeFlows none) e = .ok rows e) :
    loadAll none e = loadRows e.registry rows 0 e := Action.bind_of_ok h

/-! ## Compilations that stand -/

/-- What stands for a document in a registry, or is compiled from it, was compiled from one like it. -/
def Trusty (documents : List Json) (r : Registry) : Prop :=
  ∀ raw ∈ documents, ∀ body d c, Flow.clean raw = .ok body → StandsFor r d body c →
    ∃ body' d', AlikeMembers body' body ∧ Flow.compile d' (.object body') = .ok c.graph

theorem Trusty.empty : Trusty documents .empty := by
  intro raw _ body d c _ hstands
  obtain ⟨hfound, -⟩ | hcompile := hstands
  · cases hfound
  · exact ⟨body, d, .refl _, hcompile⟩

/-- A registry that is filled from documents told apart is trusty. -/
theorem Filled.trusty (h : Filled documents r) (htold : ToldApart documents) : Trusty documents r := by
  intro raw hraw body d c hbody hstands
  obtain ⟨hfound, hcurrent⟩ | hcompile := hstands
  · obtain ⟨raw', hraw', body', d', hbody', hcompile⟩ := h.ofNumber? hfound
    refine ⟨body', d', htold raw' hraw' raw hraw body' body hbody' hbody ?_, hcompile⟩
    obtain ⟨_, _, _, _, _, heq, _, _, _, _, hgraph⟩ := Flow.compile_eq_ok.mp hcompile
    cases heq
    have hchecksum : c.graph.checksum = (Json.object body').checksum := by
      rw [hgraph]
      rfl
    rw [← hchecksum]
    simp only [Registry.isCurrent, Bool.and_eq_true, decide_eq_true_eq] at hcurrent
    exact hcurrent.1.1.1.1.1.1
  · exact ⟨body, d, .refl _, hcompile⟩

/-- So a document for which something stands is well-formed. -/
theorem Trusty.wellFormed (h : Trusty documents previous) {d : Definition} {raw : Json}
    {body : List (String × Json)} {c : Compilation} (hstands : StandsFor previous d body c)
    (hraw : raw ∈ documents) (hbody : Flow.clean raw = .ok body) : WellFormed (.object body) := by
  obtain ⟨body', d', halike, hcompile⟩ := h raw hraw body d c hbody hstands
  exact Flow.wellFormed_alike halike (Flow.succeeds_compile.mp ⟨_, hcompile⟩)

/-! ## Loads -/

private theorem Trusty.isolates (htrusty : Trusty documents previous)
    {rows : List (Definition × Json)} (hlists : s.Lists rows) (hrows : ∀ row ∈ rows, row.2 ∈ documents)
    (hloads : Loads previous rows .empty r) : Isolates s r := by
  obtain ⟨hothers, hsettled⟩ :=
    hloads.settles ⟨hlists.numbered, hlists.once, fun _ _ _ _ => ⟨rfl, rfl⟩⟩
  have hserved {n : Int} {document : Json} (h : IsServed s n document) :
      ∃ d body, d.id = some n ∧ document = .object body ∧
        ((∃ c, Flow.WellFormed document ∧ r.get? n = some c ∧ c.graph.id = some n ∧
          Table.find? n r.failures = none) ∨
        ∃ fault, Flow.compile d document = .error (.malformed (some n) fault) ∧ r.get? n = none ∧
          Table.find? n r.failures = some (.malformed (some n) fault)) := by
    obtain ⟨raw, body, hlive, hbody, rfl⟩ := h
    obtain ⟨d, hid, hmem⟩ := (hlists.live n raw).mpr hlive
    refine ⟨d, body, hid, rfl, ?_⟩
    obtain ⟨body', c, hbody', hstands, hget, hclear⟩ | ⟨body', fault, hbody', hfailed, hget, hnoted⟩ :=
      hsettled _ hmem n hid
    · cases hbody.symm.trans hbody'
      exact .inl ⟨c, htrusty.wellFormed hstands (hrows _ hmem) hbody, hget,
        hstands.id.trans hid, hclear⟩
    · cases hbody.symm.trans hbody'
      exact .inr ⟨fault, hfailed, hget, hnoted⟩
  refine ⟨?_, ?_, ?_⟩
  · intro n document h hwell
    obtain ⟨d, body, hid, rfl, ⟨c, -, hget, hown, hclear⟩ | ⟨fault, hfailed, -⟩⟩ := hserved h
    · exact ⟨⟨c, hget, hown⟩, hclear⟩
    · obtain ⟨g, hg⟩ := (Flow.succeeds_compile (d := d)).mpr hwell
      cases hg.symm.trans hfailed
  · intro n document h hill
    obtain ⟨d, body, hid, rfl, ⟨c, hwell, -⟩ | ⟨fault, -, hget, hnoted⟩⟩ := hserved h
    · exact absurd hwell hill
    · exact ⟨hget, fault, hnoted⟩
  · intro n hnone
    refine hothers n fun row hmem hid => ?_
    have hlive : s.IsLive n row.2 := (hlists.live n row.2).mp ⟨row.1, hid, hmem⟩
    obtain ⟨body, _, hbody, -⟩ | ⟨body, _, hbody, -⟩ := hsettled row hmem n hid
    · exact hnone _ ⟨row.2, body, hlive, hbody, rfl⟩
    · exact hnone _ ⟨row.2, body, hlive, hbody, rfl⟩

private theorem Stocked.isolates (h : Stocked documents e) (hempty : e.registry = .empty)
    (htrusty : Trusty documents previous) {outcome : EStateM.Result Failure Engine Unit}
    (houtcome : ∀ rows, ask .activeFlows (Store.activeFlows none) e = .ok rows e →
      outcome = loadRows previous rows 0 e) : IsolatesFailures e.store outcome := by
  obtain ⟨rows, hask, hlists, hdocuments⟩ := h.asks
  have hload := loadRows_loads (e := e) previous rows 0
  rw [houtcome rows hask]
  constructor
  · intro hlegible
    cases ho : loadRows previous rows 0 e with
    | ok _ e' => exact ⟨e', rfl⟩
    | error f e' =>
      obtain ⟨-, before, ⟨d, raw⟩, after, rfl, ⟨hother, hstumbles⟩, -⟩ := hload.of_eq_error ho
      have hmem : (d, raw) ∈ before ++ (d, raw) :: after :=
        List.mem_append_right _ List.mem_cons_self
      obtain ⟨n, hid⟩ := hlists.numbered _ hmem
      obtain ⟨body, hbody, hbodyLegible⟩ := hlegible n raw ((hlists.live n raw).mp ⟨d, hid, hmem⟩)
      obtain hunclean | ⟨body', hbody', hfailed⟩ := hstumbles
      · cases hbody.symm.trans hunclean
      · cases hbody.symm.trans hbody'
        obtain ⟨fault, rfl⟩ := hbodyLegible.malformed hfailed
        exact absurd rfl (hother _ _)
  · intro e' ho
    obtain ⟨hcalm, hloads⟩ := hload.of_eq_ok ho
    rw [hempty] at hloads
    exact ⟨hcalm.store, htrusty.isolates hlists hdocuments hloads⟩

/-- One bad flow never spoils a load. Whatever has been saved and loaded, dropped and evicted before, the
first load of a new registry ends well as long as every live document is legible, and so does a refresh;
and whenever they end well, the flows that are compiled are those whose document is well-formed, and each
other one is noted as malformed. -/
theorem load_isolates_failures {store : Store} (h : store.Opened) (policy : RetryPolicy)
    (batchSize : Json) (clock : Int) (acts : List Act) :
    let e := (ofStore store policy batchSize clock).performAll acts
    IsolatesFailures e.store (loadAll none e.anew) ∧
      (ToldApart (documentsOf acts) → IsolatesFailures e.store (refresh e)) := by
  intro e
  have hstocked : Stocked (documentsOf acts) e := stocked_ofStore h policy batchSize clock acts
  have hanew : Stocked (documentsOf acts) e.anew := hstocked.anew
  constructor
  · exact hanew.isolates rfl .empty fun rows hask => loadAll_eq hask
  · intro htold
    exact hanew.isolates rfl (hstocked.filled.trusty htold) fun rows hask => refresh_eq hask

/-- A flow with an empty graph and a flow without one: the first is loaded, the second is noted. -/
theorem load_isolates_failures_two :
    let d (u : String) : Definition := ⟨some u, some u, some "", some "", .message, some "", none, []⟩
    let good : List (String × Json) := [("nodes", .array [])]
    let bad : List (String × Json) := [("nodes", .null)]
    let acts : List Act := [.saveFlow (d "a"), .saveRevision 1 (.object good) .published, .loadAll none,
      .saveFlow (d "b"), .saveRevision 2 (.object bad) .published]
    let e := (ofStore (.memory .empty) .standard .null 0).performAll acts
    ((Store.memory .empty).Opened ∧ ToldApart (documentsOf acts)) ∧
      ∃ e', refresh e = .ok () e' ∧ (∃ c, e'.registry.get? (1 : Int) = some c) ∧
        e'.registry.get? (2 : Int) = none ∧
        ∃ fault, Table.find? (2 : Int) e'.registry.failures = some (.malformed (some 2) fault) := by
  intro d good bad acts e
  have hopened : (Store.memory .empty).Opened := rfl
  have htold : ToldApart (documentsOf acts) := by
    have hdiffer : (Json.object good).checksum ≠ (Json.object bad).checksum := by decide +kernel
    intro raw hraw raw' hraw' body body' hbody hbody' hchecksum
    simp only [acts, documentsOf, List.filterMap, Act.document?, List.mem_cons, List.not_mem_nil,
      or_false] at hraw hraw'
    rcases hraw with rfl | rfl <;> rcases hraw' with rfl | rfl
    · cases hbody.symm.trans hbody'
      exact .refl _
    · cases hbody
      cases hbody'
      exact absurd hchecksum hdiffer
    · cases hbody
      cases hbody'
      exact absurd hchecksum.symm hdiffer
    · cases hbody.symm.trans hbody'
      exact .refl _
  obtain ⟨-, hrefresh⟩ := load_isolates_failures hopened .standard .null 0 acts
  obtain ⟨hreturns, hloaded⟩ := hrefresh htold
  have hlegible : ∀ n raw, e.store.IsLive n raw →
      ∃ body, Flow.clean raw = .ok body ∧ Legible (.object body) := by
    rintro n raw ⟨-, r, hr, rfl⟩
    have hmem := (stocked_ofStore hopened .standard .null 0 acts).listed.liveRevision hr
    simp only [acts, documentsOf, List.filterMap, Act.document?, List.mem_cons, List.not_mem_nil,
      or_false] at hmem
    rcases hmem with hdocument | hdocument
    all_goals
      rw [hdocument]
      refine ⟨_, rfl, rfl, ?_, ?_, ?_, ?_, ?_, ?_, ?_⟩
    all_goals
      simp [good, bad, Flow.Authored.nodes, Flow.Authored.member, Json.findD, Json.find?, Table.find?,
        Json.items?, Json.isGiven]
  let first : Flow.Revision := ⟨1, 0, .object good, .published, .utc 0, 0⟩
  let second : Flow.Revision := ⟨2, 0, .object bad, .published, .utc 0, 1⟩
  have hfirst : e.store.getFlow (1 : Int) =
        .ok (some { d "a" with id := some 1, revisions := [first] }) ∧
      e.store.liveRevision 1 = .ok (some first) := by decide +kernel
  have hsecond : e.store.getFlow (2 : Int) =
        .ok (some { d "b" with id := some 2, revisions := [second] }) ∧
      e.store.liveRevision 2 = .ok (some second) := by decide +kernel
  have hgood : IsServed e.store 1 (.object good) :=
    ⟨_, good, ⟨⟨_, hfirst.1⟩, first, hfirst.2, rfl⟩, rfl, rfl⟩
  have hbad : IsServed e.store 2 (.object bad) :=
    ⟨_, bad, ⟨⟨_, hsecond.1⟩, second, hsecond.2, rfl⟩, rfl, rfl⟩
  obtain ⟨e', he'⟩ := hreturns hlegible
  obtain ⟨-, hisolates⟩ := hloaded e' he'
  have hwell : WellFormed (.object good) := by
    refine ⟨rfl, ?_, .nil, ?_, ?_⟩
    all_goals
      simp [good, Flow.Authored.nodes, Flow.Authored.member, Json.findD, Json.find?, Table.find?,
        Json.items?, Json.isGiven]
  have hill : ¬ WellFormed (.object bad) := by
    intro h
    cases h.listed
  obtain ⟨⟨c, hc, -⟩, -⟩ := hisolates.compiled 1 _ hgood hwell
  obtain ⟨hnone, hfault⟩ := hisolates.refused 2 _ hbad hill
  exact ⟨⟨hopened, htold⟩, e', he', ⟨c, hc⟩, hnone, hfault⟩

/-- A node whose name is a list ends a load, which is to note the flow and to go on. -/
theorem listed_name_ends_load :
    let d : Definition := ⟨some "a", some "a", some "", some "", .message, some "", none, []⟩
    let node : Json := .object [("uuid", .array [.string "n"]), ("actions", .array []),
      ("exits", .array [])]
    let document : Json := .object [("nodes", .array [node])]
    let e := (ofStore (.memory .empty) .standard .null 0).performAll
      [.saveFlow d, .saveRevision 1 document .published]
    e.store.IsLive 1 document ∧ ∃ e', loadAll none e.anew = .error (.notAKey (.array [.string "n"])) e' ∧
      e'.registry.failures = [] := by
  intro d node document e
  refine ⟨⟨⟨_, rfl⟩, _, rfl, rfl⟩, ?_⟩
  have hload : (loadAll none e.anew).casesOn (motive := fun _ => Bool) (fun _ _ => false)
      (fun f e' => f = .notAKey (.array [.string "n"]) && e'.registry.failures = []) = true := by
    decide +kernel
  cases ho : loadAll none e.anew with
  | ok _ e' =>
    rw [ho] at hload
    cases hload
  | error f e' =>
    rw [ho] at hload
    simp only [Bool.and_eq_true, decide_eq_true_eq] at hload
    obtain ⟨rfl, hnone⟩ := hload
    exact ⟨e', rfl, hnone⟩

end DurableFlow.Engine
