import DurableFlow.Proofs.Engine.ResolvedFlows
import DurableFlow.Proofs.Engine.ShapedRegistries
import DurableFlow.Proofs.Flow.DressedDocuments
import DurableFlow.Proofs.Store.RevisionReads

/-! Kept compilations. A load that meets a flow whose compilation is still current files that compilation
again. So layout and envelope, which are not part of what is compiled, never make a new one. -/
namespace DurableFlow

namespace Registry
variable {r : Registry} {c : Compilation} {m n : Int}

/-! ## Registries with entries of their own -/

def Own (r : Registry) : Prop := ∀ x ∈ r.entries, x.1 ∈ entriesOf x.2.graph

theorem Own.empty : empty.Own := fun _ hx => nomatch hx

theorem Own.insert (h : r.Own) (c : Compilation) : (r.insert c).Own := by
  intro x hx
  obtain ⟨hentry, hc⟩ | hold := mem_insert hx
  · exact hc ▸ hentry
  · exact h x hold

theorem Own.id (h : r.Own) (hc : r.get? n = some c) : c.graph.id = some n :=
  id_of_entry (h _ (Table.mem_of_find?_eq_some hc))

/-- What is filed is found under its number, whatever was there. -/
theorem get?_insert_self (hid : c.graph.id = some n) : (r.insert c).get? n = some c := by
  have hfiled (table : List (Option Json × Compilation)) :
      Table.find? (entryOf n) (filed c (entriesOf c.graph) table) = some c :=
    (find?_filed _ _ _).trans (if_pos (mem_entriesOf hid))
  exact hfiled _

/-- What is filed leaves other numbers alone. -/
theorem Own.get?_insert (h : r.Own) (hid : c.graph.id = some m) (hne : n ≠ m) :
    (r.insert c).get? n = r.get? n := by
  have hkept (table : List (Option Json × Compilation)) :
      Table.find? (entryOf n) (filed c (entriesOf c.graph) table) = Table.find? (entryOf n) table := by
    refine (find?_filed _ _ _).trans (if_neg fun hmem => hne ?_)
    exact Option.some.inj ((id_of_entry hmem).symm.trans hid)
  have hnumber : Identifier.value (Flow.intOrNull c.graph.id) = m := by
    rw [hid]
    rfl
  refine (hkept _).trans ?_
  rw [hnumber]
  split
  · rename_i old hold
    split
    · rfl
    · rw [evict, hold]
      refine (find?_releases old _ r _).trans (if_neg fun hmem => hne ?_)
      exact Option.some.inj ((id_of_entry hmem.1).symm.trans (h.id hold))
  · rfl

/-- The compilation of a flow in a shaped registry is the one under its number. -/
theorem Shaped.ofNumber? (h : r.Shaped) (hc : r.get? n = some c) : r.ofNumber? (some n) = some c := by
  have hmaps : r.Maps (entryOf n) c := hc
  have hid : c.graph.id = some n := id_of_entry (h.own _ _ hmaps)
  have hsome : (r.entries.reverse.find? fun x => x.2.graph.id = some n).isSome :=
    List.find?_isSome.mpr ⟨_, List.mem_reverse.mpr (h.maps_iff.mp hmaps), by simpa using hid⟩
  obtain ⟨x, hx⟩ := Option.isSome_iff_exists.mp hsome
  have hxid : x.2.graph.id = some n := by simpa using List.find?_some hx
  have hxmaps : r.Maps x.1 x.2 := h.maps_iff.mpr (List.mem_reverse.mp (List.mem_of_find?_eq_some hx))
  rw [Registry.ofNumber?, hx, Option.map_some, h.unique hxmaps hmaps (hxid.trans hid.symm)]

theorem Shaped.entries_own (h : r.Shaped) : r.Own := fun _ hx => h.own _ _ (h.maps_iff.mpr hx)

/-- What is compiled from a proper document is current for it. -/
theorem isCurrent_of_compile {d : Flow.Definition} {body : List (String × Json)} {g : Flow.Graph}
    (h : (Json.object body).Proper) (hg : Flow.compile d (.object body) = .ok g) :
    isCurrent g d body = true := by
  have hlanguage : (Flow.languageOf d body).Proper := by
    unfold Flow.languageOf
    split
    · exact h.findD
    · exact h.findD
    · exact trivial
  obtain ⟨_, _, _, _, _, heq, _, _, _, _, rfl⟩ := Flow.compile_eq_ok.mp hg
  cases heq
  simp [isCurrent, Flow.graphOf, hlanguage.same_self]

end Registry

namespace Engine
open DurableFlow.Action (Ensures)
open DurableFlow.Flow (Definition Dressed Publishing Revision WellFormed bare)

/-- A compilation is in the registry under the number of a flow, and it is current for the stored metadata
and a body, whose layout does not count. -/
structure Loaded (e : Engine) (n : Int) (body : List (String × Json)) (c : Compilation) : Prop where
  filed : e.registry.get? n = some c
  current : ∃ d, e.store.flowAt n = some d ∧ Registry.isCurrent c.graph d (bare body) = true

def Act.loads : Act → Bool
  | .loadAll _ | .refresh => true
  | _ => false

variable {documents : List Json} {e e' : Engine} {previous : Registry} {n : Int} {c : Compilation}
  {rows : List (Definition × Json)} {body : List (String × Json)} {document : Json}

/-! ## Rows of a flow -/

def Gives (previous : Registry) (n : Int) (kind : Compilation → Prop) (rows : List (Definition × Json)) : Prop :=
  ∀ row ∈ rows, row.1.id = some n → ∃ body, Flow.clean row.2 = .ok body ∧ ∀ e,
    Ensures (compileRow previous row.1 body) e
      (fun found e' => e'.registry = e.registry ∧ ∃ c, found = some c ∧ c.graph.id = some n ∧ kind c)
      (fun _ _ => True)

def FindsWith (kind : Compilation → Prop) (n : Int) (r : Registry) : Prop := ∃ c, r.get? n = some c ∧ kind c

private theorem gives_kept (hkept : previous.ofNumber? (some n) = some c)
    (hrows : ∀ row ∈ rows, row.1.id = some n →
      ∃ body, Flow.clean row.2 = .ok body ∧ Registry.isCurrent c.graph row.1 body = true) :
    Gives previous n (· = c) rows := by
  rintro ⟨d, raw⟩ hrow (hid : d.id = some n)
  obtain ⟨body, hclean, hcurrent⟩ := hrows _ hrow hid
  have hcid : c.graph.id = some n := by
    obtain ⟨x, hx, rfl⟩ := Option.map_eq_some_iff.mp hkept
    simpa using List.find?_some hx
  refine ⟨body, hclean, fun e => ?_⟩
  have hrow : compileRow previous d body e = .ok (some c) e := by
    simp only [compileRow, hid, hkept, Option.filter_some, hcurrent, if_true]
    rfl
  exact Ensures.of_run hrow ⟨rfl, c, rfl, hcid, rfl⟩

private theorem gives_current {kind : Compilation → Prop} {kept : List (String × Json)}
    (hproper : (Json.object kept).Proper) (hwell : WellFormed (.object kept))
    (hrows : ∀ row ∈ rows, row.1.id = some n → Flow.clean row.2 = .ok kept ∧
      ∀ c : Compilation, Registry.isCurrent c.graph row.1 kept = true → kind c) :
    Gives previous n kind rows := by
  rintro ⟨d, raw⟩ hrow (hid : d.id = some n)
  obtain ⟨hclean, hkind⟩ := hrows _ hrow hid
  refine ⟨kept, hclean, fun e => ?_⟩
  refine (compileRow_calm previous d kept).mono ?_ fun _ _ _ => trivial
  rintro found e' ⟨-, ⟨c, rfl, hr, hstands⟩ | ⟨fault, -, hfailed, -⟩⟩
  · refine ⟨hr, c, rfl, hstands.id.trans hid, hkind c ?_⟩
    obtain ⟨-, hcurrent⟩ | hcompile := hstands
    · exact hcurrent
    · exact Registry.isCurrent_of_compile hproper hcompile
  · obtain ⟨g, hg⟩ := (Flow.succeeds_compile (d := d)).mpr hwell
    cases hg.symm.trans hfailed

private theorem loadRows_finds {kind : Compilation → Prop} (hown : e.registry.Own)
    (hnumbered : ∀ row ∈ rows, ∃ m, row.1.id = some m) (hgives : Gives previous n kind rows) (loaded : Nat) :
    Ensures (loadRows previous rows loaded) e
      (fun _ e' => FindsWith kind n e.registry ∨ (∃ row ∈ rows, row.1.id = some n) → FindsWith kind n e'.registry)
      (fun _ _ => True) := by
  induction rows generalizing e loaded with
  | nil =>
    apply Ensures.bind
    apply Ensures.get
    refine (note_calm _ _).mono ?_ fun _ _ hf => hf.elim
    rintro _ e' ⟨-, hr⟩ (hfound | ⟨_, hrow, -⟩)
    · exact hr ▸ hfound
    · cases hrow
  | cons row rest ih =>
    obtain ⟨d, raw⟩ := row
    obtain ⟨⟨m, hm⟩, hrest⟩ := List.forall_mem_cons.mp hnumbered
    obtain ⟨hrow, hothers⟩ := List.forall_mem_cons.mp hgives
    unfold loadRows
    apply Ensures.bind
    refine Ensures.ofExcept (fun body hbody => ?_) fun _ _ => trivial
    apply Ensures.bind
    by_cases hmn : m = n
    · subst hmn
      -- a row of the flow: what it gives is filed, whatever was there
      obtain ⟨_, hclean, hgiven⟩ := hrow hm
      cases hbody.symm.trans hclean
      refine (hgiven e).mono ?_ fun _ _ _ => trivial
      rintro _ e₁ ⟨hr, c, rfl, hid, hkind⟩
      apply Ensures.bind
      apply Ensures.modify
      have hown₁ : e₁.registry.Own := hr ▸ hown
      have hfound : FindsWith kind m ((e₁.registry.insert c).mend (d.id.getD 0)) :=
        ⟨c, Registry.get?_insert_self hid, hkind⟩
      exact (ih (hown₁.insert c) hrest hothers _).mono (fun _ _ h _ => h (.inl hfound)) fun _ _ h => h
    · -- a row of another flow leaves the number alone
      have hnext {e₁ : Engine} {loaded : Nat} (hown₁ : e₁.registry.Own)
          (hsame : e₁.registry.get? n = e.registry.get? n) :
          Ensures (loadRows previous rest loaded) e₁
            (fun _ e' => FindsWith kind n e.registry ∨ (∃ row ∈ (d, raw) :: rest, row.1.id = some n) →
              FindsWith kind n e'.registry)
            (fun _ _ => True) := by
        refine (ih hown₁ hrest hothers _).mono ?_ fun _ _ h => h
        rintro _ e' h (⟨c, hc, hkind⟩ | ⟨row, hrow, hid⟩)
        · exact h (.inl ⟨c, hsame.trans hc, hkind⟩)
        · rcases List.mem_cons.mp hrow with rfl | hrow
          · exact absurd (Option.some.inj (hm.symm.trans hid)) hmn
          · exact h (.inr ⟨row, hrow, hid⟩)
      refine (compileRow_calm previous d body).mono ?_ fun _ _ _ => trivial
      rintro found e₁ ⟨-, ⟨c, rfl, hr, hstands⟩ | ⟨fault, rfl, -, hr⟩⟩
      · apply Ensures.bind
        apply Ensures.modify
        have hown₁ : e₁.registry.Own := hr ▸ hown
        refine hnext (hown₁.insert c) ?_
        exact (hown₁.get?_insert (hstands.id.trans hm) (Ne.symm hmn)).trans (by rw [hr])
      · refine hnext ?_ ?_
        · rw [hr]
          exact hown
        · rw [hr]
          rfl

/-! ## Loads -/

private theorem loads_find {kind : Compilation → Prop} (hf : Filing .empty e) (hs : Stocked documents e)
    {act : Act} (hact : act.loads = true) (hlive : e.store.IsLive n document)
    (hgives : ∀ only rows, e.store.activeFlows only = .ok rows → Gives e.registry n kind rows)
    (hbefore : FindsWith kind n e.registry ∨ ∀ only, act = .loadAll only → only = none) :
    Ensures act.step e (fun _ e' => e'.store = e.store ∧ FindsWith kind n e'.registry) (fun _ _ => True) := by
  have hrow {rows : List (Definition × Json)} (hactive : e.store.activeFlows none = .ok rows) :
      ∃ row ∈ rows, row.1.id = some n := by
    obtain ⟨rows', hactive', hlists⟩ := hs.listed.lists
    cases hactive.symm.trans hactive'
    obtain ⟨d, hid, hmem⟩ := (hlists.live n document).mpr hlive
    exact ⟨_, hmem, hid⟩
  cases act with
  | loadAll only =>
    apply Ensures.bind
    refine hs.ask_ensures.mono ?_ fun _ _ _ => trivial
    rintro rows _ ⟨rfl, hactive⟩
    apply Ensures.bind
    apply Ensures.get
    have hload := loadRows_finds hf.shaped.entries_own (hs.listed.active_numbered hactive)
      (hgives only rows hactive) 0
    refine (hload.and (loadRows_loads _ rows 0)).mono (fun _ _ h => ⟨h.2.1.store, h.1 ?_⟩) fun _ _ _ => trivial
    refine hbefore.imp_right fun hall => ?_
    cases hall only rfl
    exact hrow hactive
  | refresh =>
    apply Ensures.bind
    apply Ensures.get
    apply Ensures.bind
    apply Ensures.modify
    apply Ensures.bind
    refine hs.anew.ask_ensures.mono ?_ fun _ _ _ => trivial
    rintro rows _ ⟨rfl, hactive⟩
    have hload := loadRows_finds (e := e.anew) .empty (hs.listed.active_numbered hactive)
      (hgives none rows hactive) 0
    exact (hload.and (loadRows_loads _ rows 0)).mono
      (fun _ _ h => ⟨h.2.1.store, h.1 (.inr (hrow hactive))⟩) fun _ _ _ => trivial
  | _ => cases hact

/-! ## Flows that are loaded again -/

theorem performAll_append (e : Engine) (acts : List Act) (act : Act) :
    e.performAll (acts ++ [act]) = (e.performAll acts).perform act := List.foldl_append

theorem catalogued_ofStore {store : Store} (h : store.Opened) (policy : RetryPolicy) (batchSize : Json)
    (clock : Int) (acts : List Act) :
    ((ofStore store policy batchSize clock).performAll acts).store.Catalogued := by
  induction acts using List.reverseRecOn with
  | nil =>
    change store.Catalogued
    cases store with
    | memory m =>
      cases h
      exact (Store.catalogued_empty none "" "").1
    | rows r =>
      have hrevisions : r.revisions = [] := congrArg Store.Rows.revisions h
      intro x hx
      rw [hrevisions] at hx
      cases hx
    | keys k =>
      intro n row hrow
      rw [h.2] at hrow
      cases hrow
  | append_singleton acts act ih =>
    rw [performAll_append]
    refine perform_store (stocked_ofStore h policy batchSize clock acts).alone ih act ?_ ?_ ?_
    · intro d _
      have hsave := ih.saveFlow d
      unfold Store.saving
      split
      · rename_i ho
        exact hsave.of_eq_ok ho
      · rename_i ho
        exact hsave.of_eq_error ho
    · intro _ _ _ _ _ _ _ hsaved
      exact ih.saveRevision hsaved
    · exact ih.dropLive

private theorem step_saveRevision {status : Publishing} :
    Act.step (.saveRevision n document status) e = .ok () e' ↔
      ∃ revision, saveRevision n document status e = .ok revision e' := by
  change EStateM.map _ (saveRevision n document status) e = _ ↔ _
  rw [EStateM.map]
  cases saveRevision n document status e with
  | ok revision e₁ =>
    constructor
    · rintro ⟨⟩
      exact ⟨revision, rfl⟩
    · rintro ⟨_, ⟨⟩⟩
      rfl
  | error f e₁ =>
    constructor
    · rintro ⟨⟩
    · rintro ⟨_, ⟨⟩⟩

private theorem saveRevision_ensures (n : Int) (document : Json) (status : Publishing) :
    Ensures (saveRevision n document status) e
      (fun revision e' => e'.registry = e.registry ∧ ∃ time trigger,
        e.store.saveRevision time trigger n document status = .ok (revision, e'.store))
      (fun _ _ => True) := by
  unfold saveRevision instant
  apply Ensures.bind
  apply Ensures.bind
  apply Ensures.get
  refine Ensures.ofExcept (fun time _ => ?_) fun _ _ => trivial
  apply Ensures.bind
  apply Ensures.get
  apply Ensures.bind
  refine Ensures.ofExcept (fun saved hsaved => ?_) fun _ _ => trivial
  obtain ⟨revision, store⟩ := saved
  apply Ensures.bind
  apply Ensures.set
  exact Ensures.pure ⟨rfl, time, _, hsaved⟩

private theorem row_of_active {s : Store} (hs : s.Listed documents) {only : Option Int}
    (hactive : s.activeFlows only = .ok rows) {row : Definition × Json} (hrow : row ∈ rows)
    (hid : row.1.id = some n) :
    (∃ d, s.flowAt n = some d ∧ ∀ g kept, Registry.isCurrent g row.1 kept = Registry.isCurrent g d kept) ∧
      ∃ live, s.liveRevision n = .ok (some live) ∧ live.document = row.2 := by
  obtain ⟨-, ⟨d, hd, hsame⟩, hlive⟩ :=
    Store.listing_eq_some hs (Store.listing_of_active hs hactive hrow hid)
  refine ⟨⟨d, hd, fun g kept => ?_⟩, hlive⟩
  change Registry.isCurrent g { row.1 with revisions := s.revisionsAt n } kept =
    Registry.isCurrent g { d with revisions := s.revisionsAt n } kept
  rw [hsame]

private theorem loaded_of_live (hf : Filing .empty e) (hs : Stocked documents e)
    (hbody : ∀ inner, Json.find? "definition" body ≠ some (.object inner))
    (hdressed : Dressed body document) (hlive : e.store.IsLive n document)
    (hproper : (Json.object body).Proper) (hwell : WellFormed (.object (bare body)))
    {load : Act} (hload : load ∈ [.refresh, .loadAll none]) :
    Ensures load.step e (fun _ e' => ∃ c, Loaded e' n body c) (fun _ _ => True) := by
  let current (c : Compilation) : Prop :=
    ∃ d, e.store.flowAt n = some d ∧ Registry.isCurrent c.graph d (bare body) = true
  have hgives (only : Option Int) (rows : List (Definition × Json))
      (hactive : e.store.activeFlows only = .ok rows) : Gives e.registry n current rows := by
    refine gives_current (Flow.proper_bare hproper) hwell fun row hrow hid => ?_
    obtain ⟨⟨d, hd, hsame⟩, live, hfound, hrow⟩ := row_of_active hs.listed hactive hrow hid
    obtain ⟨-, live', hfound', rfl⟩ := hlive
    cases hfound.symm.trans hfound'
    exact ⟨hrow ▸ hdressed.clean hbody, fun c hc => ⟨d, hd, hsame c.graph _ ▸ hc⟩⟩
  obtain ⟨hact, hall⟩ : load.loads = true ∧ ∀ only, load = .loadAll only → only = none := by
    simp only [List.mem_cons, List.not_mem_nil, or_false] at hload
    rcases hload with rfl | rfl
    · exact ⟨rfl, fun _ heq => nomatch heq⟩
    · exact ⟨rfl, fun _ heq => (Act.loadAll.inj heq).symm⟩
  refine (loads_find hf hs hact hlive hgives (.inr hall)).mono ?_ fun _ _ h => h
  rintro _ e' ⟨hstore, c, hc, hcurrent⟩
  exact ⟨c, hc, hstore ▸ hcurrent⟩

private theorem Loaded.load (h : Loaded e n body c) (hf : Filing .empty e) (hs : Stocked documents e)
    (hbody : ∀ inner, Json.find? "definition" body ≠ some (.object inner))
    (hdressed : Dressed body document) (hlive : e.store.IsLive n document)
    {load : Act} (hload : load.loads = true) :
    Ensures load.step e (fun _ e' => Loaded e' n body c) (fun _ _ => True) := by
  obtain ⟨hfiled, d, hd, hcurrent⟩ := h
  have hgives (only : Option Int) (rows : List (Definition × Json))
      (hactive : e.store.activeFlows only = .ok rows) : Gives e.registry n (· = c) rows := by
    refine gives_kept (hf.shaped.ofNumber? hfiled) fun row hrow hid => ?_
    obtain ⟨⟨d', hd', hsame⟩, live, hfound, hrow⟩ := row_of_active hs.listed hactive hrow hid
    obtain ⟨-, live', hfound', rfl⟩ := hlive
    cases hfound.symm.trans hfound'
    cases hd.symm.trans hd'
    exact ⟨bare body, hrow ▸ hdressed.clean hbody, hsame c.graph _ ▸ hcurrent⟩
  refine (loads_find hf hs hload hlive hgives (.inl ⟨c, hfiled, rfl⟩)).mono ?_ fun _ _ h => h
  rintro _ e' ⟨hstore, _, hkept, rfl⟩
  exact ⟨hkept, d, hstore ▸ hd, hcurrent⟩

private theorem Loaded.publish (h : Loaded e n body c) (hcatalogued : e.store.Catalogued)
    (hs : Stocked documents e') {status : Publishing} {revision : Revision}
    (hsaved : saveRevision n document status e = .ok revision e') :
    Loaded e' n body c ∧ e'.store.IsLive n document := by
  obtain ⟨hregistry, time, trigger, hadded⟩ := (saveRevision_ensures n document status).of_eq_ok hsaved
  obtain ⟨hfiled, d, hd, hcurrent⟩ := h
  have hat : e'.store.flowAt n = some d := (Store.flowAt_saveRevision hadded n).trans hd
  obtain ⟨live, hfound, rfl⟩ := hcatalogued.live_of_saved hadded
  exact ⟨⟨hregistry ▸ hfiled, d, hat, hcurrent⟩, Store.isLive_of_flowAt hs.listed hat hfound⟩

/-- Layout and envelope never reach the engine. However a body is dressed, the same is read of it: its
members without the layout, their checksum, and the graph or why there is none. So a load of all flows that
succeeds has loaded a flow whose document is the body in some dress, if it can be compiled; and
when the body is published again in any dress, a load that succeeds keeps the compilation of the flow. -/
theorem layout_keeps_compilation {store : Store} (h : store.Opened) (policy : RetryPolicy)
    (batchSize : Json) (clock : Int) (acts : List Act) {body : List (String × Json)}
    (hbody : ∀ inner, Json.find? "definition" body ≠ some (.object inner)) :
    (∀ document, Dressed body document → ∀ d, Flow.reading d document =
      .ok (bare body, (Json.object (bare body)).checksum, Flow.compile d (.object (bare body)))) ∧
    let e := (ofStore store policy batchSize clock).performAll acts
    (∀ n document, Dressed body document → e.store.IsLive n document →
      (Json.object body).Proper → WellFormed (.object (bare body)) →
        ∀ load ∈ [.refresh, .loadAll none], ∀ e', Act.step load e = .ok () e' → ∃ c, Loaded e' n body c) ∧
    ∀ n c document, Loaded e n body c → Dressed body document →
      ∀ status revision published, saveRevision n document status e = .ok revision published →
        ∀ load : Act, load.loads = true → ∀ e', load.step published = .ok () e' → Loaded e' n body c := by
  refine ⟨fun document hdressed d => hdressed.reading hbody d, ?_⟩
  intro e
  constructor
  · intro n document hdressed hlive hproper hwell load hload e' he'
    have hs : Stocked (documentsOf acts) e := stocked_ofStore h policy batchSize clock acts
    have hfiling : Filing .empty e := filing_ofStore h policy batchSize clock acts
    exact (loaded_of_live hfiling hs hbody hdressed hlive hproper hwell hload).of_eq_ok he'
  · intro n c document hloaded hdressed status revision published hsaved load hload e' he'
    have hpublished : published =
        (ofStore store policy batchSize clock).performAll (acts ++ [.saveRevision n document status]) := by
      have hstep : Act.step (.saveRevision n document status) e = .ok () published :=
        step_saveRevision.mpr ⟨revision, hsaved⟩
      rw [performAll_append, perform, hstep]
    have hs : Stocked _ published := hpublished ▸ stocked_ofStore h policy batchSize clock _
    have hfiling : Filing .empty published := hpublished ▸ filing_ofStore h policy batchSize clock _
    obtain ⟨hstill, hlive⟩ :=
      hloaded.publish (catalogued_ofStore h policy batchSize clock acts) hs hsaved
    exact (hstill.load hfiling hs hbody hdressed hlive hload).of_eq_ok he'

/-- A flow is saved, published and loaded. Then it is published in an envelope that has nodes of its own, with
a layout, and loaded again. -/
theorem layout_keeps_compilation_enveloped :
    let body : List (String × Json) := [("nodes", .array [])]
    let enveloped : Json := .object [("nodes", .string "elsewhere"),
      ("definition", .object (body ++ [("_ui", .object [("nodes", .null)])]))]
    let acts : List Act := [.saveFlow ⟨some "a", some "a", some "", some "", .message, some "", none, []⟩,
      .saveRevision 1 (.object body) .published]
    let e := (ofStore (.memory .empty) .standard .null 0).performAll acts
    ((Store.memory .empty).Opened ∧ (∀ inner, Json.find? "definition" body ≠ some (.object inner)) ∧
      Dressed body (.object body) ∧ Dressed body enveloped) ∧
      ∃ loaded published e' revision c, refresh e = .ok () loaded ∧
        saveRevision 1 enveloped .published loaded = .ok revision published ∧
        loadAll none published = .ok () e' ∧
        loaded.registry.get? (1 : Int) = some c ∧ e'.registry.get? (1 : Int) = some c := by
  intro body enveloped acts e
  have hopened : (Store.memory .empty).Opened := rfl
  have hbody : ∀ inner, Json.find? "definition" body ≠ some (.object inner) := by
    intro inner hfound
    cases hfound
  have halone : Dressed body (.object body) := .alone rfl
  have hlaid : bare (body ++ [("_ui", .object [("nodes", .null)])]) = bare body := rfl
  have henveloped : Dressed body enveloped := .enveloped hlaid rfl
  have hproper : (Json.object body).Proper := by
    simp [body, Json.Proper, Json.ProperMembers, Json.ProperItems]
  have hwell : WellFormed (.object (bare body)) := by
    refine ⟨rfl, ?_, .nil, ?_, ?_⟩
    all_goals
      simp [body, bare, Flow.Authored.nodes, Flow.Authored.member, Json.findD, Json.find?, Table.find?,
        Json.items?, Json.isGiven]
  let loaded := e.perform .refresh
  let published := loaded.perform (.saveRevision 1 enveloped .published)
  let e' := published.perform (.loadAll none)
  have hok (e : Engine) (act : Act)
      (h : (act.step e).casesOn (motive := fun _ => Bool) (fun _ _ => true) (fun _ _ => false) = true) :
      act.step e = .ok () (e.perform act) := by
    unfold perform
    cases ho : act.step e with
    | ok _ e' => rfl
    | error f e' =>
      rw [ho] at h
      cases h
  have hrefresh : refresh e = .ok () loaded := hok e .refresh (by decide +kernel)
  obtain ⟨revision, hsaved⟩ := step_saveRevision.mp
    (hok loaded (.saveRevision 1 enveloped .published) (by decide +kernel))
  have hload : loadAll none published = .ok () e' := hok published (.loadAll none) (by decide +kernel)
  have hlive : e.store.IsLive 1 (.object body) := ⟨⟨_, rfl⟩, _, rfl, rfl⟩
  obtain ⟨-, hloads, -⟩ := layout_keeps_compilation hopened .standard .null 0 acts hbody
  obtain ⟨c, hc⟩ := hloads 1 _ halone hlive hproper hwell .refresh (by simp) loaded hrefresh
  have hrun : loaded = (ofStore (.memory .empty) .standard .null 0).performAll (acts ++ [.refresh]) :=
    (performAll_append _ _ _).symm
  obtain ⟨-, -, hkeeps⟩ := layout_keeps_compilation hopened .standard .null 0 (acts ++ [.refresh]) hbody
  have hc' := hkeeps 1 c enveloped (hrun ▸ hc) henveloped .published revision published (hrun ▸ hsaved)
    (.loadAll none) rfl e' hload
  exact ⟨⟨hopened, hbody, halone, henveloped⟩, loaded, published, e', revision, c, hrefresh, hsaved, hload,
    hc.filed, hc'.filed⟩

end Engine
end DurableFlow
