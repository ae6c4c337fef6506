import DurableFlow.Proofs.Engine.IsolatedFailures
import DurableFlow.Proofs.Flow.ReorderedTexts
import DurableFlow.Proofs.Json.CanonicalTexts

/-! Refreshed registries. A refresh keeps the compilation of a flow whose document has the checksum that it
had. What it ends with is what a new registry would load: the same flows with nodes that are alike,
and the same failures. The order of members is all that a checksum forgets, and a text can hang on it. -/
namespace DurableFlow.Engine
open DurableFlow.Flow (Definition AlikeNode SameAnswer Unambiguous)
open Json (Alike AlikeMembers)

/-- Documents with one checksum have one canonical text, once cleaned: hashes of different texts do not
collide. -/
def NoCollision (documents : List Json) : Prop :=
  ∀ raw ∈ documents, ∀ raw' ∈ documents, ∀ body body',
    Flow.clean raw = .ok body → Flow.clean raw' = .ok body' →
      (Json.object body).checksum = (Json.object body').checksum →
        (Json.object body).canonical = (Json.object body').canonical

/-- Graphs of one flow with the same data, and with nodes that are alike. -/
structure AlikeGraphs (g g' : Flow.Graph) : Prop where
  id : g.id = g'.id
  uuid : g.uuid = g'.uuid
  shortcode : g.shortcode = g'.shortcode
  name : g.name = g'.name
  language : g.language = g'.language ∨ g.language.same g'.language = true
  kind : g.kind = g'.kind
  format : g.format = g'.format
  nodes : List.Forall₂ AlikeNode g.index.nodes g'.index.nodes
  checksum : g.checksum = g'.checksum

/-- Compilations of a flow that can replace each other: their graphs agree, and localize every key alike
if it is plain in the live document which text stands under it. -/
structure CanReplace (s : Store) (c c' : Compilation) : Prop where
  agrees : AlikeGraphs c.graph c'.graph
  served : ∃ n document, IsServed s n document ∧ c'.graph.id = some n ∧
    (Unambiguous document → ∀ language key,
      SameAnswer (c.graph.localization.localize language key) (c'.graph.localization.localize language key))

def FiledAlike (s : Store) (x y : Option Json × Compilation) : Prop := x.1 = y.1 ∧ CanReplace s x.2 y.2

/-- Registries that hold compilations which can replace each other under the same entries, and the same
failures. -/
structure Matches (s : Store) (r r' : Registry) : Prop where
  entries : List.Forall₂ (FiledAlike s) r.entries r'.entries
  failures : r.failures = r'.failures

variable {documents : List Json} {e : Engine} {previous r r₁ r₂ : Registry} {s : Store}
  {rows : List (Definition × Json)}

/-! ## Documents told apart -/

private theorem inFormat_clean {raw : Json} {body : List (String × Json)} (h : raw.InFormat)
    (hbody : Flow.clean raw = .ok body) : (Json.object body).InFormat := by
  have hkept {ms : List (String × Json)} (hms : (Json.object ms).InFormat) :
      (Json.object (ms.filter fun m => m.1 ≠ "_ui")).InFormat := by
    refine Json.inFormatMembers_iff.mpr fun m hm => ?_
    exact Json.inFormatMembers_iff.mp hms m (List.mem_filter.mp hm).1
  unfold Flow.clean at hbody
  split at hbody
  · rename_i members
    cases hbody
    split
    · rename_i inner hinner
      have hmem : ("definition", Json.object inner) ∈ members := Table.mem_of_find?_eq_some hinner
      exact hkept (Json.inFormatMembers_iff.mp h _ hmem)
    · exact hkept h
  · cases hbody

theorem NoCollision.toldApart (h : NoCollision documents) (hformat : ∀ raw ∈ documents, raw.InFormat) :
    ToldApart documents := by
  intro raw hraw raw' hraw' body body' hbody hbody' hchecksum
  exact Json.alike_of_canonical (inFormat_clean (hformat raw hraw) hbody)
    (inFormat_clean (hformat raw' hraw') hbody')
    (h raw hraw raw' hraw' body body' hbody hbody' hchecksum)

/-! ## Compilations that are kept -/

private theorem AlikeGraphs.refl (g : Flow.Graph) : AlikeGraphs g g := by
  refine ⟨rfl, rfl, rfl, rfl, .inl rfl, rfl, rfl, List.forall₂_same.mpr fun n _ => .refl n, rfl⟩

private theorem agrees_of_isCurrent {g g' : Flow.Graph} {d : Definition} {body : List (String × Json)}
    (hcurrent : Registry.isCurrent g d body = true) (hcompile : Flow.compile d (.object body) = .ok g')
    (hid : g.id = d.id) (hnodes : List.Forall₂ AlikeNode g.index.nodes g'.index.nodes) :
    AlikeGraphs g g' ∧ g.language.same g'.language = true := by
  obtain ⟨_, _, _, _, _, heq, _, _, _, _, rfl⟩ := Flow.compile_eq_ok.mp hcompile
  cases heq
  simp only [Registry.isCurrent, Bool.and_eq_true, decide_eq_true_eq] at hcurrent
  obtain ⟨⟨⟨⟨⟨⟨hchecksum, huuid⟩, hshortcode⟩, hname⟩, hlanguage⟩, hkind⟩, hformat⟩ := hcurrent
  exact ⟨⟨hid, huuid, hshortcode, hname, .inr hlanguage, hkind, hformat, hnodes, hchecksum⟩, hlanguage⟩

/-- What stands for a row in a registry can replace what is compiled for it anew. -/
theorem Trusty.replaces (h : Trusty documents previous) {d : Definition} {raw : Json}
    {body : List (String × Json)} {c c' : Compilation} {n : Int} (hid : d.id = some n)
    (hserved : IsServed s n (.object body)) (hraw : raw ∈ documents) (hbody : Flow.clean raw = .ok body)
    (hstands : StandsFor previous d body c) (hcompile : Flow.compile d (.object body) = .ok c'.graph) :
    CanReplace s c c' := by
  have hid' : c'.graph.id = some n := (Flow.compile_id hcompile).trans hid
  have hcid : c.graph.id = d.id := hstands.id
  obtain ⟨body', d', halike, hcompile'⟩ := h raw hraw body d c hbody hstands
  obtain ⟨-, hcurrent⟩ | hsame := hstands
  · obtain ⟨g, hg, hnodes⟩ := Flow.compile_alike d halike hcompile'
    have hgraph : g = c'.graph := Except.ok.inj (hg.symm.trans hcompile)
    subst hgraph
    obtain ⟨hagrees, hlanguage⟩ := agrees_of_isCurrent hcurrent hcompile hcid hnodes
    exact ⟨hagrees, n, _, hserved, hid', fun hplain =>
      Flow.localize_alike halike.symm hplain hcompile hcompile' hlanguage⟩
  · have hgraph : c.graph = c'.graph := Except.ok.inj (hsame.symm.trans hcompile)
    refine ⟨hgraph ▸ .refl _, n, _, hserved, hid', fun _ language key => ?_⟩
    rw [hgraph]
    rfl

/-! ## Two loads of the same rows -/

private theorem put_filedAlike {c c' : Compilation} (hc : CanReplace s c c') (entry : Option Json)
    {table table' : List (Option Json × Compilation)} (h : List.Forall₂ (FiledAlike s) table table') :
    List.Forall₂ (FiledAlike s) (Table.put entry c table) (Table.put entry c' table') := by
  induction h with
  | nil => exact .cons ⟨rfl, hc⟩ .nil
  | @cons x y rest rest' hxy hrest ih =>
    obtain ⟨k, v⟩ := x
    obtain ⟨k', v'⟩ := y
    obtain ⟨hk, hv⟩ := hxy
    cases hk
    by_cases hentry : k = entry
    · simp only [Table.put, if_pos hentry]
      exact .cons ⟨rfl, hc⟩ hrest
    · simp only [Table.put, if_neg hentry]
      exact .cons ⟨rfl, hv⟩ ih

private theorem Matches.insert (h : Matches s r₁ r₂) {c c' : Compilation} (hc : CanReplace s c c') {n : Int}
    (hid : c.graph.id = some n) (hfree₁ : r₁.get? n = none) (hfree₂ : r₂.get? n = none) :
    Matches s ((r₁.insert c).mend n) ((r₂.insert c').mend n) := by
  have hentries : Registry.entriesOf c.graph = Registry.entriesOf c'.graph := by
    rw [Registry.entriesOf, Registry.entriesOf, hc.agrees.id, hc.agrees.uuid, hc.agrees.shortcode]
  rw [Registry.insert_eq hid hfree₁, Registry.insert_eq (hc.agrees.id ▸ hid) hfree₂, hentries]
  refine ⟨?_, congrArg (Table.erase n) h.failures⟩
  have hfold (entries : List (Option Json)) (table table' : List (Option Json × Compilation))
      (ht : List.Forall₂ (FiledAlike s) table table') : List.Forall₂ (FiledAlike s)
        (entries.foldl (fun es entry => Table.put entry c es) table)
        (entries.foldl (fun es entry => Table.put entry c' es) table') := by
    induction entries generalizing table table' with
    | nil => exact ht
    | cons entry rest ih => exact ih _ _ (put_filedAlike hc entry ht)
  exact hfold _ _ _ h.entries

private theorem Trusty.matches (htrusty : Trusty documents previous)
    {r₁' r₂' : Registry} (h₁ : Loads previous rows r₁ r₁') (h₂ : Loads .empty rows r₂ r₂')
    (hrows : ∀ row ∈ rows, row.2 ∈ documents ∧ ∀ n, row.1.id = some n → s.IsLive n row.2)
    (hawaited₁ : FreshRows rows r₁) (hawaited₂ : FreshRows rows r₂) (hmatches : Matches s r₁ r₂) :
    Matches s r₁' r₂' := by
  have hanew {d : Definition} {body : List (String × Json)} {c : Compilation}
      (hstands : StandsFor .empty d body c) : Flow.compile d (.object body) = .ok c.graph := by
    obtain ⟨hfound, -⟩ | hcompile := hstands
    · cases hfound
    · exact hcompile
  induction h₁ generalizing r₂ with
  | done r =>
    cases h₂
    exact hmatches
  | @filed d raw rest r r' body c cleaned stands next ih =>
    obtain ⟨⟨hraw, hlive⟩, hrest⟩ := List.forall_mem_cons.mp hrows
    obtain ⟨n, hid⟩ := hawaited₁.numbered _ List.mem_cons_self
    have hdid : d.id = some n := hid
    cases h₂ with
    | @filed _ _ _ _ _ body₂ c' cleaned₂ stands₂ next₂ =>
      cases cleaned.symm.trans cleaned₂
      have hserved : IsServed s n (.object body) := ⟨raw, body, hlive n hid, cleaned, rfl⟩
      have hreplaces := htrusty.replaces hdid hserved hraw cleaned stands (hanew stands₂)
      have hfree₁ := (hawaited₁.free _ List.mem_cons_self n hid).1
      have hfree₂ := (hawaited₂.free _ List.mem_cons_self n hid).1
      refine ih next₂ hrest (hawaited₁.next_filed stands.id) (hawaited₂.next_filed stands₂.id) ?_
      rw [hdid]
      exact hmatches.insert hreplaces (stands.id.trans hdid) hfree₁ hfree₂
    | @refused _ _ _ _ _ body₂ fault cleaned₂ failed₂ next₂ =>
      cases cleaned.symm.trans cleaned₂
      obtain ⟨g, hg⟩ := (Flow.succeeds_compile (d := d)).mpr (htrusty.wellFormed stands hraw cleaned)
      cases hg.symm.trans failed₂
  | @refused d raw rest r r' body fault cleaned failed next ih =>
    obtain ⟨-, hrest⟩ := List.forall_mem_cons.mp hrows
    cases h₂ with
    | @filed _ _ _ _ _ body₂ c' cleaned₂ stands₂ next₂ =>
      cases cleaned.symm.trans cleaned₂
      cases failed.symm.trans (hanew stands₂)
    | @refused _ _ _ _ _ body₂ fault₂ cleaned₂ failed₂ next₂ =>
      cases cleaned.symm.trans cleaned₂
      cases failed.symm.trans failed₂
      refine ih next₂ hrest (hawaited₁.next_refused _) (hawaited₂.next_refused _) ?_
      exact ⟨hmatches.entries, congrArg (Table.put _ _) hmatches.failures⟩

private theorem Trusty.not_stumbles (htrusty : Trusty documents previous) {d : Definition} {raw : Json}
    (hraw : raw ∈ documents) {n : Int}
    (hsettled : Found previous (d, raw) n r ∨ Missed (d, raw) n r) (f : Failure) :
    ¬ Stumbles (d, raw) f := by
  rintro ⟨hother, hunclean | ⟨body, hbody, hfailed⟩⟩
  · obtain ⟨_, _, hbody, -⟩ | ⟨_, _, hbody, -⟩ := hsettled
    · cases hbody.symm.trans hunclean
    · cases hbody.symm.trans hunclean
  · obtain ⟨_, c, hbody', hstands, -⟩ | ⟨_, fault, hbody', hmissed, -⟩ := hsettled
    · cases hbody.symm.trans hbody'
      obtain ⟨g, hg⟩ := (Flow.succeeds_compile (d := d)).mpr (htrusty.wellFormed hstands hraw hbody)
      cases hg.symm.trans hfailed
    · cases hbody.symm.trans hbody'
      cases hmissed.symm.trans hfailed
      exact hother _ _ rfl

/-! ## Refreshes -/

/-- Keeping compilations on a refresh is sound. Whatever has been saved and loaded, dropped and evicted
before, a refresh that ends well leaves a registry that matches the one which a first load of a new
registry makes of the same store. -/
theorem refresh_matches_load {store : Store} (h : store.Opened) (policy : RetryPolicy)
    (batchSize : Json) (clock : Int) (acts : List Act) (hformat : ∀ raw ∈ documentsOf acts, raw.InFormat)
    (hcollision : NoCollision (documentsOf acts)) :
    let e := (ofStore store policy batchSize clock).performAll acts
    ∀ e', refresh e = .ok () e' →
      ∃ e'', loadAll none e.anew = .ok () e'' ∧ Matches e.store e'.registry e''.registry := by
  intro e e' he'
  have hstocked : Stocked (documentsOf acts) e := stocked_ofStore h policy batchSize clock acts
  have hanew : Stocked (documentsOf acts) e.anew := hstocked.anew
  have htrusty : Trusty (documentsOf acts) e.registry :=
    hstocked.filled.trusty (hcollision.toldApart hformat)
  obtain ⟨rows, hask, hlists, hdocuments⟩ := hanew.asks
  have hrefresh : refresh e = loadRows e.registry rows 0 e.anew := refresh_eq hask
  have hload : loadAll none e.anew = loadRows .empty rows 0 e.anew := loadAll_eq hask
  have hawaited : FreshRows rows .empty := ⟨hlists.numbered, hlists.once, fun _ _ _ _ => ⟨rfl, rfl⟩⟩
  obtain ⟨-, hloads⟩ := (loadRows_loads e.registry rows 0).of_eq_ok (hrefresh.symm.trans he')
  cases ho : loadRows .empty rows 0 e.anew with
  | ok _ e'' =>
    obtain ⟨-, hloads'⟩ := (loadRows_loads .empty rows 0).of_eq_ok ho
    refine ⟨e'', hload.trans ho, ?_⟩
    refine htrusty.matches hloads hloads' ?_ hawaited hawaited ⟨.nil, rfl⟩
    intro row hrow
    exact ⟨hdocuments row hrow, fun n hid => (hlists.live n row.2).mp ⟨row.1, hid, hrow⟩⟩
  | error f e'' =>
    obtain ⟨-, before, row, after, rfl, hstumbles, -⟩ := (loadRows_loads .empty _ 0).of_eq_error ho
    have hmem : row ∈ before ++ row :: after := List.mem_append_right _ List.mem_cons_self
    obtain ⟨n, hid⟩ := hlists.numbered row hmem
    have hsettled := (hloads.settles hawaited).2 row hmem n hid
    exact absurd hstumbles (htrusty.not_stumbles (hdocuments row hmem) hsettled f)

/-! ## A revision that differs in the order of members -/

def localized (texts : List (String × Json)) : List (String × Json) :=
  [("nodes", .array []), ("localization", .object [("hi", .object texts)])]

def republish (texts texts' : List (String × Json)) : List Act :=
  [.saveFlow ⟨some "a", some "a", some "", some "", .message, some "", none, []⟩,
    .saveRevision 1 (.object (localized texts)) .published, .loadAll none,
    .saveRevision 1 (.object (localized texts')) .published]

private theorem activeFlows_single {s : Store} {m : Store.Memory} {n : Int} {f d : Definition}
    {r : Flow.Revision} (hs : s = .memory m) (hflows : m.flows = [(n, f)])
    (hlive : m.liveRevision n = some r) (hd : m.withRevisions f = d) :
    s.activeFlows none = .ok [(d, r.document)] := by
  simp [hs, Store.activeFlows, Store.Memory.activeFlows, hflows, hlive, hd]

section OneRow
variable {previous : Registry} {e : Engine} {d : Definition} {raw : Json} {body : List (String × Json)}
  {c : Compilation} {g : Flow.Graph} {n : Int}

private theorem loadRows_kept (hbody : Flow.clean raw = .ok body)
    (hkept : previous.ofNumber? d.id = some c) (hcurrent : Registry.isCurrent c.graph d body = true) :
    ∃ e', loadRows previous [(d, raw)] 0 e = .ok () e' ∧
      e'.registry = (e.registry.insert c).mend (d.id.getD 0) := by
  have hrow : compileRow previous d body e = .ok (some c) e := by
    simp only [compileRow, hkept, Option.filter_some, hcurrent, if_true]
    rfl
  rw [loadRows]
  exact ⟨_, (Action.bind_of_ok (Action.ofExcept_of_ok hbody)).trans ((Action.bind_of_ok hrow).trans rfl), rfl⟩

private theorem loadRows_anew (hbody : Flow.clean raw = .ok body)
    (hnone : previous.ofNumber? d.id = none) (hcompile : Flow.compile d (.object body) = .ok g) :
    ∃ e', loadRows previous [(d, raw)] 0 e = .ok () e' ∧
      e'.registry = (e.registry.insert ⟨e.compiled, g⟩).mend (d.id.getD 0) := by
  have hrow : ∃ e', compileRow previous d body e = .ok (some ⟨e.compiled, g⟩) e' ∧
      e'.registry = e.registry := by
    simp only [compileRow, compile, hnone, hcompile, Option.filter_none]
    exact ⟨_, rfl, rfl⟩
  obtain ⟨e', hrow, hr⟩ := hrow
  rw [loadRows, ← hr]
  exact ⟨_, (Action.bind_of_ok (Action.ofExcept_of_ok hbody)).trans ((Action.bind_of_ok hrow).trans rfl), rfl⟩

private theorem refresh_kept (hask : ask .activeFlows (Store.activeFlows none) e.anew = .ok [(d, raw)] e.anew)
    (hid : d.id = some n) (hbody : Flow.clean raw = .ok body) (hkept : e.registry.ofNumber? d.id = some c)
    (hcurrent : Registry.isCurrent c.graph d body = true)
    (hcompile : Flow.compile d (.object body) = .ok g) :
    ∃ e' e'' c', refresh e = .ok () e' ∧ loadAll none e.anew = .ok () e'' ∧
      e'.registry.get? n = some c ∧ e''.registry.get? n = some c' ∧ c'.graph = g := by
  have hcid : c.graph.id = some n := (StandsFor.id (.inl ⟨hkept, hcurrent⟩)).trans hid
  obtain ⟨e', hrefresh, hr'⟩ := loadRows_kept (e := e.anew) hbody hkept hcurrent
  have hnone : Registry.empty.ofNumber? d.id = none := rfl
  have hfree : Registry.empty.get? (n : Int) = none := rfl
  obtain ⟨e'', hload, hr''⟩ := loadRows_anew (e := e.anew) hbody hnone hcompile
  refine ⟨e', e'', ⟨e.compiled, g⟩, (refresh_eq hask).trans hrefresh, (loadAll_eq hask).trans hload, ?_, ?_, rfl⟩
  · rw [hr']
    exact (Registry.get?_insert hcid hfree n).trans (if_pos rfl)
  · rw [hr'']
    exact (Registry.get?_insert ((Flow.compile_id hcompile).trans hid) hfree n).trans (if_pos rfl)

end OneRow

private theorem localized_alike {texts texts' : List (String × Json)} (h : AlikeMembers texts texts') :
    AlikeMembers (localized texts) (localized texts') := by
  have hsorted : (Json.object texts).sorted = (Json.object texts').sorted := h
  simp only [Alike, localized, Json.sorted, Json.sortedMembers] at hsorted ⊢
  rw [hsorted]

private theorem refresh_republished {texts texts' : List (String × Json)} (h : AlikeMembers texts texts') :
    let e := (ofStore (.memory .empty) .standard .null 0).performAll (republish texts texts')
    ∃ e' e'' c c', refresh e = .ok () e' ∧ loadAll none e.anew = .ok () e'' ∧
      e'.registry.get? (1 : Int) = some c ∧ e''.registry.get? (1 : Int) = some c' ∧
      c.graph.localization = ⟨[("hi", Keyed.ofTexts .string (Flow.entryTexts texts))], [], .null⟩ ∧
      c'.graph.localization = ⟨[("hi", Keyed.ofTexts .string (Flow.entryTexts texts'))], [], .null⟩ := by
  intro e
  let d (revisions : List Flow.Revision) : Definition :=
    ⟨some "a", some "a", some "", some "", .message, some "", some 1, revisions⟩
  have hask {e : Engine} {m : Store.Memory} {r : Flow.Revision} {revisions : List Flow.Revision}
      (ho : e.others = []) (hf : e.faults = .none) (hs : e.store = .memory m)
      (hflows : m.flows = [(1, d [])]) (hlive : m.liveRevision 1 = some r)
      (hd : m.revisionsOf 1 = revisions) :
      ask .activeFlows (Store.activeFlows none) e = .ok [(d revisions, r.document)] e := by
    refine (ask_unchanged ho hf _ _).trans (Action.ofExcept_of_ok (activeFlows_single hs hflows hlive ?_))
    rw [← hd]
    rfl
  let after (outcome : EStateM.Result Failure Engine Unit) : Engine :=
    outcome.casesOn (fun _ e' => e') fun _ e' => e'
  have hperform (e : Engine) (act : Act) : perform e act = after (act.step e) := by
    unfold perform
    cases act.step e <;> rfl
  -- the first two acts, then the load, then the last act
  let e₂ := (ofStore (.memory .empty) .standard .null 0).performAll ((republish texts texts').take 2)
  obtain ⟨rows, hload₂⟩ : ∃ rows, loadAll none e₂ = loadRows .empty [(d rows, .object (localized texts))] 0 e₂ := by
    let m : Store.Memory := e₂.store.casesOn id (fun _ => .empty) fun _ => .empty
    have hs : e₂.store = .memory m := rfl
    exact ⟨_, loadAll_eq (hask rfl rfl hs rfl rfl rfl)⟩
  let e₃ : Engine := after (loadRows .empty [(d rows, .object (localized texts))] 0 e₂)
  have he : e = perform e₃ (.saveRevision 1 (.object (localized texts')) .published) := by
    have he₃ : perform e₂ (.loadAll none) = e₃ := by
      rw [hperform, Act.step, hload₂]
    rw [← he₃]
    rfl
  rw [he]
  let e₄ := perform e₃ (.saveRevision 1 (.object (localized texts')) .published)
  obtain ⟨rows', hask₄⟩ : ∃ rows', ask .activeFlows (Store.activeFlows none) e₄.anew =
      .ok [(d rows', .object (localized texts'))] e₄.anew := by
    let m : Store.Memory := e₄.anew.store.casesOn id (fun _ => .empty) fun _ => .empty
    have hs : e₄.anew.store = .memory m := rfl
    exact ⟨_, hask rfl rfl hs rfl rfl rfl⟩
  let graph (rows : List Flow.Revision) (texts : List (String × Json)) : Flow.Graph :=
    Flow.graphOf (d rows) (localized texts) [] [] [("hi", Flow.entryTexts texts)]
  have hkept : e₄.registry.ofNumber? (some 1) = some ⟨0, graph rows texts⟩ := rfl
  have hcurrent : Registry.isCurrent (graph rows texts) (d rows') (localized texts') = true := by
    have hchecksum : (graph rows texts).checksum = (Json.object (localized texts')).checksum := by
      have hcanonical : (Json.object (localized texts)).canonical = (Json.object (localized texts')).canonical :=
        congrArg (Json.text .compact) (localized_alike h)
      change (Json.object (localized texts)).checksum = _
      rw [Json.checksum, Json.checksum, hcanonical]
    rw [Registry.isCurrent, hchecksum, decide_eq_true rfl]
    rfl
  have hcompile : Flow.compile (d rows') (.object (localized texts')) = .ok (graph rows' texts') := rfl
  obtain ⟨e', e'', c', hrefresh, hload, hc, hc', hg⟩ := refresh_kept hask₄ rfl rfl hkept hcurrent hcompile
  refine ⟨e', e'', _, c', hrefresh, hload, hc, hc', rfl, ?_⟩
  rw [hg]
  rfl

/-- A flow that is published with one text, loaded, and published with its members in another order. -/
theorem refresh_matches_load_republished :
    let texts : List (String × Json) := [("u.text", .string "A"), ("v.text", .string "B")]
    let acts := republish texts texts.reverse
    let e := (ofStore (.memory .empty) .standard .null 0).performAll acts
    ((Store.memory .empty).Opened ∧ (∀ raw ∈ documentsOf acts, raw.InFormat) ∧
      NoCollision (documentsOf acts)) ∧
      ∃ e' e'', refresh e = .ok () e' ∧ loadAll none e.anew = .ok () e'' ∧
        Matches e.store e'.registry e''.registry := by
  intro texts acts e
  have halike : AlikeMembers texts texts.reverse :=
    Json.alike_of_perm (List.reverse_perm texts).symm (by decide)
  have hopened : (Store.memory .empty).Opened := rfl
  have hdocuments : documentsOf acts = [.object (localized texts), .object (localized texts.reverse)] := rfl
  have hformat : ∀ raw ∈ documentsOf acts, raw.InFormat := by
    rw [hdocuments]
    simp [localized, texts, Json.InFormat, Json.InFormatMembers, Json.InFormatItems]
  have hcollision : NoCollision (documentsOf acts) := by
    rw [hdocuments]
    intro raw hraw raw' hraw' body body' hbody hbody' _
    have hcanonical : (Json.object (localized texts)).canonical =
        (Json.object (localized texts.reverse)).canonical :=
      congrArg (Json.text .compact) (localized_alike halike)
    simp only [List.mem_cons, List.not_mem_nil, or_false] at hraw hraw'
    rcases hraw with rfl | rfl <;> rcases hraw' with rfl | rfl <;> cases hbody <;> cases hbody'
    · rfl
    · exact hcanonical
    · exact hcanonical.symm
    · rfl
  obtain ⟨e', _, _, _, hrefresh, -⟩ := refresh_republished halike
  obtain ⟨e'', hload, hmatches⟩ :=
    refresh_matches_load hopened .standard .null 0 acts hformat hcollision e' hrefresh
  exact ⟨⟨hopened, hformat, hcollision⟩, e', e'', hrefresh, hload, hmatches⟩

/-- Of two texts under one content key the last one counts. A refresh keeps the one that was last before the
members changed places, where a new registry has the other one. -/
theorem refresh_keeps_overwritten_text :
    let grouped : String × Json := ("u", .object [("text", .string "B")])
    let flat : String × Json := ("u.text", .string "A")
    let e := (ofStore (.memory .empty) .standard .null 0).performAll (republish [grouped, flat] [flat, grouped])
    ∃ e' e'' c c', refresh e = .ok () e' ∧ loadAll none e.anew = .ok () e'' ∧
      e'.registry.get? (1 : Int) = some c ∧ e''.registry.get? (1 : Int) = some c' ∧
      c.graph.localization.localize (.string "hi") (.string "u.text") = .ok (.string "A") ∧
      c'.graph.localization.localize (.string "hi") (.string "u.text") = .ok (.string "B") := by
  intro grouped flat e
  have halike : AlikeMembers [grouped, flat] [flat, grouped] :=
    Json.alike_of_perm (.swap flat grouped []) (by decide)
  obtain ⟨e', e'', c, c', hrefresh, hload, hc, hc', htexts, htexts'⟩ := refresh_republished halike
  refine ⟨e', e'', c, c', hrefresh, hload, hc, hc', ?_, ?_⟩
  · rw [htexts]
    rfl
  · rw [htexts']
    rfl

end DurableFlow.Engine
