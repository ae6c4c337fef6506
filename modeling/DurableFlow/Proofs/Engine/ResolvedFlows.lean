import DurableFlow.Proofs.Engine.FiledNames
import DurableFlow.Proofs.Engine.QuietSteps

/-! Resolved flows. After a refresh the registry finds a flow by the names by which the store gives it, and
by no others, as long as the flows are well named. -/
namespace DurableFlow.Engine
open DurableFlow.Action (Ensures)
open DurableFlow.Flow (Definition WellFormed)
open DurableFlow.Store (Memory)

/-! ## Runs that draw free numbers -/

def Act.drawsFree (e : Engine) : Act → Bool
  | .saveFlow d => e.store.drawsFree d
  | _ => true

def allDrawFree : Engine → List Act → Bool
  | _, [] => true
  | e, act :: rest => act.drawsFree e && allDrawFree (e.perform act) rest

variable {documents : List Json} {e e' : Engine} {previous r : Registry} {s : Store}
  {rows : List (Definition × Json)} {i : Identifier} {c : Compilation} {g : Flow.Graph}

private abbrev KeepsStore {α : Type} (act : Run α) (e : Engine) : Prop :=
  Ensures act e (fun _ e' => e'.store = e.store) (fun _ e' => e'.store = e.store)

private theorem keepsStore_of_quietly {α : Type} {act : Run α} (h : Quietly act) (ho : e.others = []) :
    KeepsStore act e :=
  (h e ho).mono (fun _ _ hq => hq.store) fun _ _ hq => hq.store

private theorem loadRows_keepsStore (previous : Registry) (rows : List (Definition × Json)) :
    KeepsStore (loadRows previous rows 0) e :=
  (loadRows_loads previous rows 0).mono (fun _ _ h => h.1.store) fun _ _ h => h.1.store

private theorem loadAll_keepsStore (ho : e.others = []) (only : Option Int) :
    KeepsStore (loadAll only) e := by
  apply Ensures.bind
  refine ((ask_yields _ _).quietly e ho).mono ?_ fun _ _ hq => hq.store
  intro rows e₁ hq
  apply Ensures.bind
  apply Ensures.get
  refine (loadRows_keepsStore _ rows).mono ?_ ?_
  all_goals
    intro _ e₂ hstore
    exact hstore.trans hq.store

private theorem refresh_keepsStore (ho : e.others = []) : KeepsStore refresh e := by
  apply Ensures.bind
  apply Ensures.get
  apply Ensures.bind
  apply Ensures.modify
  apply Ensures.bind
  refine ((ask_yields _ _).quietly e.anew ho).mono ?_ fun _ _ hq => hq.store
  intro rows e₁ hq
  refine (loadRows_keepsStore e.registry rows).mono ?_ ?_
  all_goals
    intro _ e₂ hstore
    exact hstore.trans hq.store

/-- What holds of a store holds after an act of an engine that is alone, if it holds after what the act
saves or drops. -/
theorem perform_store {P : Store → Prop} (ho : e.others = []) (h : P e.store) (act : Act)
    (hflow : ∀ d, act = .saveFlow d → P (e.store.saving d).2)
    (hrevision : ∀ time trigger flow document status revision s,
      e.store.saveRevision time trigger flow document status = .ok (revision, s) → P s)
    (hdrop : ∀ flow, P (e.store.dropLive flow)) : P (e.perform act).store := by
  have hkept {α : Type} {act : Run α} (hact : KeepsStore act e) :
      Ensures act e (fun _ e' => P e'.store) (fun _ e' => P e'.store) :=
    hact.mono (fun _ _ hs => hs ▸ h) fun _ _ hs => hs ▸ h
  have hstep : Ensures act.step e (fun _ e' => P e'.store) (fun _ e' => P e'.store) := by
    cases act with
    | saveFlow d =>
      have hsaving := hflow d rfl
      apply Ensures.discard
      apply Ensures.holding
      unfold Ensures Engine.saveFlow
      unfold Store.saving at hsaving
      dsimp only
      split at hsaving
      · rename_i ho
        rw [ho]
        exact hsaving
      · rename_i ho
        rw [ho]
        exact hsaving
    | saveRevision flow document status =>
      apply Ensures.discard
      unfold Engine.saveRevision instant
      apply Ensures.bind
      apply Ensures.bind
      apply Ensures.get
      refine Ensures.ofExcept (fun time _ => ?_) fun _ _ => h
      apply Ensures.bind
      apply Ensures.get
      apply Ensures.bind
      refine Ensures.ofExcept (fun saved hsaved => ?_) fun _ _ => h
      obtain ⟨revision, store⟩ := saved
      apply Ensures.bind
      apply Ensures.set
      exact Ensures.pure (hrevision _ _ _ _ _ _ _ hsaved)
    | dropLive flow =>
      apply Ensures.bind
      apply Ensures.get
      apply Ensures.bind
      refine Ensures.ofExcept (fun store hstore => ?_) fun _ _ => h
      cases hstore
      exact Ensures.set (hdrop flow)
    | loadAll only => exact hkept (loadAll_keepsStore ho only)
    | refresh => exact hkept (refresh_keepsStore ho)
    | fetch flow => exact hkept (keepsStore_of_quietly (fetch_yields flow).quietly ho).discard
    | evict flow =>
      exact hkept (keepsStore_of_quietly
        (Yielding.get.bind fun _ => (file_yields _).bind fun _ => .pure _).quietly ho).discard
    | elapse seconds => exact hkept (keepsStore_of_quietly (elapse_yields seconds).quietly ho)
  unfold Engine.perform
  split
  · rename_i he
    exact hstep.of_eq_ok he
  · rename_i he
    exact hstep.of_eq_error he

private theorem Stocked.identified (h : Stocked documents e) (hidentified : e.store.Identified)
    {acts : List Act} (hd : ∀ document ∈ documentsOf acts, document ∈ documents)
    (hf : allDrawFree e acts = true) : (e.performAll acts).store.Identified := by
  induction acts generalizing e with
  | nil => exact hidentified
  | cons act rest ih =>
    obtain ⟨hact, hrest⟩ := Bool.and_eq_true_iff.mp hf
    have hdocument (document : Json) (hx : act.document? = some document) : document ∈ documents :=
      hd document (List.mem_filterMap.mpr ⟨act, List.mem_cons_self, hx⟩)
    refine ih (h.perform act hdocument) ?_ ?_ hrest
    · refine perform_store h.alone hidentified act ?_ ?_ ?_
      · rintro d rfl
        exact hidentified.saving hact
      · intro _ _ _ _ _ _ _ hsaved
        exact hidentified.saveRevision hsaved
      · exact hidentified.dropLive
    · intro document hdocument
      obtain ⟨x, hx, hsome⟩ := List.mem_filterMap.mp hdocument
      exact hd document (List.mem_filterMap.mpr ⟨x, List.mem_cons_of_mem _ hx, hsome⟩)

/-! ## Loads of single flows -/

def Compiles (s : Store) (i : Identifier) (g : Flow.Graph) : Prop :=
  ∃ d live body, s.getFlow i = .ok (some d) ∧ s.liveRevision (d.id.getD 0) = .ok (some live) ∧
    Flow.clean live.document = .ok body ∧ Flow.compile d (.object body) = .ok g

/-- A load of a single flow compiles it, and fails if it cannot be compiled. -/
theorem loadOne_compiles (ho : e.others = []) (hf : e.faults = .none) (i : Identifier) :
    Ensures (loadOne i) e (fun c _ => Compiles e.store i c.graph)
      (fun _ _ => ∀ g, ¬ Compiles e.store i g) := by
  have hask {α : Type} (op : Operation) (f : Store → Except Failure α) :
      Ensures (ask op f) e (fun a e' => e = e' ∧ f e.store = .ok a)
        (fun x _ => f e.store = .error x) := by
    unfold Ensures
    rw [ask_unchanged ho hf op f]
    exact Ensures.ofExcept (fun a ha => ⟨rfl, ha⟩) fun x hx => hx
  apply Ensures.bind
  refine (hask _ _).mono ?_ ?_
  · rintro found _ ⟨rfl, hfound⟩
    cases found with
    | none =>
      refine Ensures.throw ?_
      rintro g ⟨d, live, body, hd, -⟩
      cases hfound.symm.trans hd
    | some d =>
      apply Ensures.bind
      apply Ensures.bind
      refine (hask _ _).mono ?_ ?_
      · rintro live _ ⟨rfl, hlive⟩
        cases live with
        | none =>
          refine Ensures.throw ?_
          rintro g ⟨d', live, body, hd, hsome, -⟩
          cases hfound.symm.trans hd
          cases hlive.symm.trans hsome
        | some live =>
          -- whatever else compiles it reads the same document
          have hsame {g : Flow.Graph} (h : Compiles e.store i g) : ∃ body,
              Flow.clean live.document = .ok body ∧ Flow.compile d (.object body) = .ok g := by
            obtain ⟨d', live', body, hd, hsome, hbody, hg⟩ := h
            cases hfound.symm.trans hd
            cases hlive.symm.trans hsome
            exact ⟨body, hbody, hg⟩
          apply Ensures.bind
          refine (note_calm _ _).mono ?_ fun _ _ hf => hf.elim
          rintro _ e₁ -
          refine Ensures.ofExcept (fun body hbody => ?_) fun x hx => ?_
          · refine (compile_calm d body).mono ?_ ?_
            · rintro c e₂ ⟨-, -, hcompile⟩
              exact ⟨d, live, body, hfound, hlive, hbody, hcompile⟩
            · rintro x e₂ ⟨-, -, hx⟩ g hg
              obtain ⟨body', hbody', hg⟩ := hsame hg
              cases hbody.symm.trans hbody'
              cases hx.symm.trans hg
          · intro g hg
            obtain ⟨body, hbody, -⟩ := hsame hg
            cases hx.symm.trans hbody
      · rintro x _ hx g ⟨d', live, body, hd, hlive, -⟩
        cases hfound.symm.trans hd
        cases hx.symm.trans hlive
  · rintro x _ hx g ⟨d, live, body, hd, -⟩
    cases hx.symm.trans hd

/-! ## Names in a registry and in a store -/

section Rows
variable (hidentified : s.Identified) (hlists : s.Lists rows) (hrows : s.activeFlows none = .ok rows)
include hidentified hlists hrows

private theorem compiles_iff {key : FlowKey} (hi : i.split? = some key) {row : Definition × Json}
    (hrow : row ∈ rows) (hkey : Memory.answersTo key row.1 = true) : Compiles s i g ↔
      ∃ body, Flow.clean row.2 = .ok body ∧ Flow.compile row.1 (.object body) = .ok g := by
  obtain ⟨n, e, he, hid, hdata⟩ := hidentified.activeFlows hrows row hrow
  have hcarries : Memory.answersTo key e = true := by
    rw [hdata] at hkey
    cases key <;> exact hkey
  have hget : s.getFlow i = .ok (some { e with revisions := s.revisionsAt n }) :=
    (hidentified.getFlow_iff hi).mpr ⟨n, e, he, hcarries, rfl⟩
  have hrowId : row.1.id = some n := by
    rw [hdata]
    exact hid
  obtain ⟨-, live, hlive, hdocument⟩ := (hlists.live n row.2).mp ⟨row.1, hrowId, hrow⟩
  have hcompile (body : Json) :
      Flow.compile { e with revisions := s.revisionsAt n } body = Flow.compile row.1 body := by
    rw [hdata]
    rfl
  have hnumber : ({ e with revisions := s.revisionsAt n } : Definition).id.getD 0 = n := by
    rw [hid]
    rfl
  constructor
  · rintro ⟨d, live', body, hd, hlive', hbody, hg⟩
    cases hget.symm.trans hd
    rw [hnumber] at hlive'
    cases hlive.symm.trans hlive'
    exact ⟨body, hdocument ▸ hbody, (hcompile _).symm.trans hg⟩
  · rintro ⟨body, hbody, hg⟩
    exact ⟨_, live, body, hget, hnumber.symm ▸ hlive, hdocument.symm ▸ hbody, (hcompile _).trans hg⟩

private theorem row_of_compiles (h : Compiles s i g) :
    ∃ key, i.split? = some key ∧ ∃ row ∈ rows, Memory.answersTo key row.1 = true := by
  obtain ⟨d, live, body, hd, hlive, -⟩ := h
  cases hi : i.split? with
  | none => exact absurd hd (Store.getFlow_of_unnamed hi)
  | some key =>
    obtain ⟨n, e, he, hcarries, rfl⟩ := (hidentified.getFlow_iff hi).mp hd
    have hid := hidentified.own n e he
    have hnumber : ({ e with revisions := s.revisionsAt n } : Definition).id.getD 0 = n := by
      rw [hid]
      rfl
    rw [hnumber] at hlive
    have hget := (Store.getFlow_eq_ok hidentified).mpr ⟨e, he, rfl⟩
    obtain ⟨d', hd', hrow⟩ := (hlists.live n live.document).mpr ⟨⟨_, hget⟩, live, hlive, rfl⟩
    obtain ⟨m, e', he', hid', hdata⟩ := hidentified.activeFlows hrows _ hrow
    refine ⟨key, rfl, _, hrow, ?_⟩
    have hmn : some m = some n := by
      rw [← hid', ← hd']
      exact (congrArg Definition.id hdata).symm
    cases hmn
    cases he.symm.trans he'
    rw [hdata]
    cases key <;> exact hcarries

variable (hnamed : ∀ n e, s.flowAt n = some e → WellNamed e) (hloads : Loads previous rows .empty r)
include hnamed hloads

omit hlists hloads in
private theorem wellNamed_row {row : Definition × Json} (hrow : row ∈ rows) : WellNamed row.1 := by
  obtain ⟨n, e, he, -, hdata⟩ := hidentified.activeFlows hrows row hrow
  rw [hdata]
  exact ⟨(hnamed n e he).uuid, (hnamed n e he).shortcode⟩

private theorem found_row {row : Definition × Json} (hrow : row ∈ rows) {body : List (String × Json)}
    (hbody : Flow.clean row.2 = .ok body) (hg : Flow.compile row.1 (.object body) = .ok g) :
    ∃ c, StandsFor previous row.1 body c ∧ ∀ entry ∈ entriesOf row.1, Table.find? entry r.entries = some c := by
  have hawaited : FreshRows rows .empty := ⟨hlists.numbered, hlists.once, fun _ _ _ _ => ⟨rfl, rfl⟩⟩
  have hapart := apart_of_named hidentified hnamed hrows hlists.once
  obtain ⟨body', hbody', ⟨c, hstands, hfound⟩ | ⟨hfailed, -⟩⟩ := (hloads.finds hawaited hapart).2 row hrow
  · cases hbody.symm.trans hbody'
    exact ⟨c, hstands, hfound⟩
  · cases hbody.symm.trans hbody'
    exact absurd hg (hfailed g)

private theorem row_of_found (hc : r.get? i = some c) : ∃ key, i.split? = some key ∧ ∃ row ∈ rows,
    Memory.answersTo key row.1 = true ∧ ∃ body, Flow.clean row.2 = .ok body ∧ StandsFor previous row.1 body c := by
  have hawaited : FreshRows rows .empty := ⟨hlists.numbered, hlists.once, fun _ _ _ _ => ⟨rfl, rfl⟩⟩
  have hapart := apart_of_named hidentified hnamed hrows hlists.once
  obtain ⟨hothers, hsettled⟩ := hloads.finds hawaited hapart
  obtain ⟨row, hrow, hentry⟩ : ∃ row ∈ rows, Registry.entryOf i ∈ entriesOf row.1 := by
    by_contra hnone
    push Not at hnone
    cases (hothers _ hnone).symm.trans hc
  have hwell := wellNamed_row hidentified hrows hnamed hrow
  obtain ⟨n, hid⟩ := hlists.numbered row hrow
  cases hi : i.split? with
  | none =>
    obtain ⟨_, _, -, hsome⟩ := hwell.named hid hentry
    rw [Registry.entryOf, hi] at hsome
    cases hsome
  | some key =>
    have hentryKey : Registry.entryOf i = some key.entry := by
      rw [Registry.entryOf, hi]
      rfl
    refine ⟨key, rfl, row, hrow, (hwell.entry_iff hid hi).mp (hentryKey ▸ hentry), ?_⟩
    obtain ⟨body, hbody, ⟨c', hstands, hfound⟩ | ⟨-, hmissed⟩⟩ := hsettled row hrow
    · cases (hfound _ hentry).symm.trans hc
      exact ⟨body, hbody, hstands⟩
    · cases (hmissed _ hentry).symm.trans hc

private theorem get?_iff_compiles (htrusty : Trusty documents previous)
    (hdocuments : ∀ row ∈ rows, row.2 ∈ documents) (i : Identifier) :
    ((∃ c, r.get? i = some c) ↔ ∃ g, Compiles s i g) ∧
      ∀ c c' : Compilation, r.get? i = some c → Compiles s i c'.graph → CanReplace s c c' := by
  refine ⟨⟨?_, ?_⟩, ?_⟩
  · rintro ⟨c, hc⟩
    obtain ⟨key, hi, row, hrow, hkey, body, hbody, hstands⟩ :=
      row_of_found hidentified hlists hrows hnamed hloads hc
    have hwell := htrusty.wellFormed hstands (hdocuments row hrow) hbody
    obtain ⟨g, hg⟩ := (Flow.succeeds_compile (d := row.1)).mpr hwell
    exact ⟨g, (compiles_iff hidentified hlists hrows hi hrow hkey).mpr ⟨body, hbody, hg⟩⟩
  · rintro ⟨g, h⟩
    obtain ⟨key, hi, row, hrow, hkey⟩ := row_of_compiles hidentified hlists hrows h
    obtain ⟨body, hbody, hg⟩ := (compiles_iff hidentified hlists hrows hi hrow hkey).mp h
    obtain ⟨c, -, hfound⟩ := found_row hidentified hlists hrows hnamed hloads hrow hbody hg
    have hwell := wellNamed_row hidentified hrows hnamed hrow
    obtain ⟨n, hid⟩ := hlists.numbered row hrow
    refine ⟨c, ?_⟩
    rw [Registry.get?, Registry.entryOf, hi]
    exact hfound _ ((hwell.entry_iff hid hi).mpr hkey)
  · intro c c' hc h
    obtain ⟨key, hi, row, hrow, hkey, body, hbody, hstands⟩ :=
      row_of_found hidentified hlists hrows hnamed hloads hc
    obtain ⟨body', hbody', hg⟩ := (compiles_iff hidentified hlists hrows hi hrow hkey).mp h
    cases hbody.symm.trans hbody'
    obtain ⟨n, hid⟩ := hlists.numbered row hrow
    have hlive : s.IsLive n row.2 := (hlists.live n row.2).mp ⟨row.1, hid, hrow⟩
    exact htrusty.replaces hid ⟨row.2, body, hlive, hbody, rfl⟩ (hdocuments row hrow) hbody hstands hg

private theorem found_under_names {n : Int} {d : Definition} {document : Json}
    (hd : s.getFlow n = .ok (some d)) (hserved : IsServed s n document) (hwell : WellFormed document) :
    ∃ c, c.graph.id = some n ∧ c.graph.uuid = d.uuid ∧ c.graph.shortcode = d.shortcode ∧
      r.get? n = some c ∧ r.get? (.value (Flow.textOrNull d.uuid)) = some c ∧
      r.get? (.value (Flow.textOrNull d.shortcode)) = some c := by
  obtain ⟨raw, body, hlive, hbody, rfl⟩ := hserved
  obtain ⟨d', hid, hrow⟩ := (hlists.live n raw).mpr hlive
  obtain ⟨g, hg⟩ := (Flow.succeeds_compile (d := d')).mpr hwell
  obtain ⟨c, hstands, hentries⟩ := found_row hidentified hlists hrows hnamed hloads hrow hbody hg
  -- the row has the names that the flow is read with
  obtain ⟨f, hf, rfl⟩ := (Store.getFlow_eq_ok hidentified).mp hd
  obtain ⟨m, f', hf', hid', hdata⟩ := hidentified.activeFlows hrows _ hrow
  have hmn : some m = some n := by
    rw [← hid', ← hid]
    exact (congrArg Definition.id hdata).symm
  cases hmn
  cases hf.symm.trans hf'
  have hdata : d' = { f with revisions := d'.revisions } := hdata
  have huuid : d'.uuid = f.uuid := by rw [hdata]
  have hshortcode : d'.shortcode = f.shortcode := by rw [hdata]
  refine ⟨c, hstands.id.trans hid, hstands.names.1.trans huuid, hstands.names.2.trans hshortcode,
    hentries _ ?_, hentries _ ?_, hentries _ ?_⟩
  · simp [entriesOf, hid, Flow.intOrNull]
  · simp [entriesOf, huuid]
  · simp [entriesOf, hshortcode]

end Rows

private theorem loadRows_returns (hlists : s.Lists rows) (hlive : ∀ n raw, s.IsLive n raw →
    ∃ body, Flow.clean raw = .ok body ∧ WellFormed (.object body)) :
    ∃ e', loadRows previous rows 0 e = .ok () e' := by
  cases ho : loadRows previous rows 0 e with
  | ok _ e' => exact ⟨e', rfl⟩
  | error f e' =>
    obtain ⟨-, before, row, after, rfl, ⟨-, hstumbles⟩, -⟩ := (loadRows_loads _ _ 0).of_eq_error ho
    have hmem : row ∈ before ++ row :: after := List.mem_append_right _ List.mem_cons_self
    obtain ⟨n, hid⟩ := hlists.numbered row hmem
    obtain ⟨body, hbody, hwell⟩ := hlive n row.2 ((hlists.live n row.2).mp ⟨row.1, hid, hmem⟩)
    obtain ⟨g, hg⟩ := (Flow.succeeds_compile (d := row.1)).mpr hwell
    obtain hunclean | ⟨body', hbody', hfailed⟩ := hstumbles
    · cases hbody.symm.trans hunclean
    · cases hbody.symm.trans hbody'
      cases hg.symm.trans hfailed

/-! ## Refreshes -/

/-- An identifier stands for one flow in the registry and in the store, or for none in either. -/
structure ResolvesAlike (e : Engine) (i : Identifier) : Prop where
  found : (∃ c, e.registry.get? i = some c) ↔ ∃ c e', loadOne i e = .ok c e'
  same : ∀ c c' e', e.registry.get? i = some c → loadOne i e = .ok c' e' → CanReplace e.store c c'

/-- A registry and the store that it was loaded from resolve every name alike. Whatever has been saved and
loaded, dropped and evicted before, a refresh ends well if every live document can be compiled; and
whenever it ends well, an identifier is found in the registry if and only if its flow can be loaded past
it, and both are the same flow; and a flow that can be compiled is found under its number, its UUID
and its shortcode. -/
theorem refresh_resolves_alike {store : Store} (h : store.Opened) (policy : RetryPolicy)
    (batchSize : Json) (clock : Int) (acts : List Act) (hformat : ∀ raw ∈ documentsOf acts, raw.InFormat)
    (hcollision : NoCollision (documentsOf acts))
    (hfree : allDrawFree (ofStore store policy batchSize clock) acts = true)
    (hnamed : ∀ (n : Int) d, ((ofStore store policy batchSize clock).performAll acts).store.getFlow n =
      .ok (some d) → WellNamed d) :
    let e := (ofStore store policy batchSize clock).performAll acts
    ((∀ n raw, e.store.IsLive n raw → ∃ body, Flow.clean raw = .ok body ∧ WellFormed (.object body)) →
      ∃ e', refresh e = .ok () e') ∧
    ∀ e', refresh e = .ok () e' → (∀ i, ResolvesAlike e' i) ∧
      ∀ (n : Int) d document, e.store.getFlow n = .ok (some d) → IsServed e.store n document →
        WellFormed document → ∃ c, c.graph.id = some n ∧ c.graph.uuid = d.uuid ∧
          c.graph.shortcode = d.shortcode ∧ e'.registry.get? n = some c ∧
          e'.registry.get? (.value (Flow.textOrNull d.uuid)) = some c ∧
          e'.registry.get? (.value (Flow.textOrNull d.shortcode)) = some c := by
  intro e
  have hstocked : Stocked (documentsOf acts) e := stocked_ofStore h policy batchSize clock acts
  have hstart : Stocked (documentsOf acts) (ofStore store policy batchSize clock) :=
    ⟨rfl, rfl, h.listed _, .empty⟩
  have hidentified : e.store.Identified := hstart.identified h.identified (fun _ hd => hd) hfree
  have htrusty : Trusty (documentsOf acts) e.registry :=
    hstocked.filled.trusty (hcollision.toldApart hformat)
  have hwell (n : Int) (d : Definition) (hd : e.store.flowAt n = some d) : WellNamed d := by
    have hget := hnamed n _ ((Store.getFlow_eq_ok hidentified).mpr ⟨d, hd, rfl⟩)
    exact ⟨hget.uuid, hget.shortcode⟩
  obtain ⟨rows, hrows, hlists⟩ := hstocked.listed.lists
  have hdocuments := hstocked.listed.active hrows
  have hask : ask .activeFlows (Store.activeFlows none) e.anew = .ok rows e.anew :=
    (ask_unchanged hstocked.anew.alone hstocked.anew.unfailing _ _).trans (Action.ofExcept_of_ok hrows)
  rw [refresh_eq hask]
  refine ⟨loadRows_returns hlists, ?_⟩
  intro e' he'
  obtain ⟨hcalm, hloads⟩ := (loadRows_loads _ _ 0).of_eq_ok he'
  refine ⟨?_, fun n d document => found_under_names hidentified hlists hrows hwell hloads⟩
  intro i
  obtain ⟨hfound, hsame⟩ := get?_iff_compiles hidentified hlists hrows hwell hloads htrusty hdocuments i
  have hone := loadOne_compiles (hcalm.others.trans hstocked.alone)
    (hcalm.faults.trans hstocked.unfailing) i
  rw [hcalm.store] at hone
  refine ⟨hfound.trans ⟨?_, ?_⟩, ?_⟩
  · rintro ⟨g, hg⟩
    cases ho : loadOne i e' with
    | ok c e'' => exact ⟨c, e'', rfl⟩
    | error f e'' => exact absurd hg (hone.of_eq_error ho g)
  · rintro ⟨c, e'', ho⟩
    exact ⟨c.graph, hone.of_eq_ok ho⟩
  · intro c c' e'' hc ho
    rw [hcalm.store]
    exact hsame c c' hc (hone.of_eq_ok ho)

/-- A flow with a UUID as it is printed, and with a shortcode that is none. -/
theorem refresh_resolves_alike_published :
    let u : Uuid := ⟨⟨0xaaaaaaaaaaaa4aaa8aaaaaaaaaaaaaaa, by decide⟩⟩
    let d : Definition := ⟨some u.text, some "a", some "", some "", .message, some "", none, []⟩
    let document : Json := .object [("nodes", .array [])]
    let acts : List Act := [.saveFlow d, .saveRevision 1 document .published]
    let start : Engine := ofStore (.memory .empty) .standard .null 0
    let e : Engine := start.performAll acts
    ((Store.memory .empty).Opened ∧ (∀ raw ∈ documentsOf acts, raw.InFormat) ∧
      NoCollision (documentsOf acts) ∧ allDrawFree start acts = true ∧
      ∀ (n : Int) d, e.store.getFlow n = .ok (some d) → WellNamed d) ∧
    ∃ e' c, refresh e = .ok () e' ∧ e'.registry.get? (1 : Int) = some c ∧
      e'.registry.get? (.value (.string u.text)) = some c ∧ e'.registry.get? (.value (.string "a")) = some c ∧
      ∃ c' e'', loadOne (.value (.string "a")) e' = .ok c' e'' ∧ CanReplace e'.store c c' := by
  intro u d document acts start e
  have hopened : (Store.memory .empty).Opened := rfl
  have hdocuments : documentsOf acts = [document] := rfl
  have hformat : ∀ raw ∈ documentsOf acts, raw.InFormat := by
    rw [hdocuments]
    simp [document, Json.InFormat, Json.InFormatMembers, Json.InFormatItems]
  have hcollision : NoCollision (documentsOf acts) := by
    intro raw hraw raw' hraw' body body' hbody hbody' _
    cases List.mem_singleton.mp hraw
    cases List.mem_singleton.mp hraw'
    cases hbody.symm.trans hbody'
    rfl
  have hnamed (n : Int) (x : Definition) (hx : e.store.getFlow n = .ok (some x)) : WellNamed x := by
    obtain ⟨y, hy, rfl⟩ := Option.map_eq_some_iff.mp (Except.ok.inj hx)
    have hmem : y ∈ [(1, { d with id := some 1 })] := List.mem_of_find?_eq_some hy
    cases List.mem_singleton.mp hmem
    exact ⟨⟨u, rfl⟩, "a", rfl, rfl⟩
  obtain ⟨hreturns, hresolves⟩ :=
    refresh_resolves_alike hopened .standard .null 0 acts hformat hcollision rfl hnamed
  have hwell : WellFormed document := by
    refine ⟨rfl, ?_, .nil, ?_, ?_⟩
    all_goals
      simp [document, Flow.Authored.nodes, Flow.Authored.member, Json.findD, Json.find?, Table.find?,
        Json.items?, Json.isGiven]
  obtain ⟨e', he'⟩ := hreturns fun n raw hlive => by
    obtain ⟨-, live, hlive, rfl⟩ := hlive
    have hmem := (stocked_ofStore hopened .standard .null 0 acts).listed.liveRevision hlive
    rw [hdocuments, List.mem_singleton] at hmem
    exact ⟨[("nodes", .array [])], hmem ▸ rfl, hwell⟩
  obtain ⟨halike, hall⟩ := hresolves e' he'
  let live : Flow.Revision := ⟨1, 0, document, .published, .utc 0, 0⟩
  have hget : e.store.getFlow (1 : Int) = .ok (some { d with id := some 1, revisions := [live] }) := rfl
  obtain ⟨c, -, -, -, hid, huuid, hshortcode⟩ :=
    hall 1 _ document hget ⟨document, _, ⟨⟨_, hget⟩, live, rfl, rfl⟩, rfl, rfl⟩ hwell
  obtain ⟨hfound, hsame⟩ := halike (.value (.string "a"))
  obtain ⟨c', e'', ho⟩ := hfound.mp ⟨c, hshortcode⟩
  exact ⟨⟨hopened, hformat, hcollision, rfl, hnamed⟩, e', c, he', hid, huuid, hshortcode, c', e'', ho,
    hsame c c' e'' hshortcode ho⟩

/-- A flow whose UUID is saved in capitals: the registry files it as it is printed and finds it, and the
store looks for the printed one and does not. -/
theorem capital_uuid_found_in_registry_only :
    let i : Identifier := .value (.string "AAAAAAAA-AAAA-4AAA-8AAA-AAAAAAAAAAAA")
    let d : Definition := ⟨some "AAAAAAAA-AAAA-4AAA-8AAA-AAAAAAAAAAAA", some "a", some "", some "", .message,
      some "", none, []⟩
    let e := (ofStore (.memory .empty) .standard .null 0).performAll
      [.saveFlow d, .saveRevision 1 (.object [("nodes", .array [])]) .published]
    ∃ e' e'', refresh e = .ok () e' ∧ (∃ c, e'.registry.get? i = some c ∧ c.graph.id = some 1) ∧
      loadOne i e' = .error (.flowNotFound i) e'' := by
  intro i d e
  have hrefresh : (refresh e).casesOn (motive := fun _ => Bool)
      (fun _ e' => ((e'.registry.get? i).any fun c => c.graph.id = some 1) &&
        (loadOne i e').casesOn (motive := fun _ => Bool) (fun _ _ => false)
          fun f _ => f = .flowNotFound i) (fun _ _ => false) = true := by
    decide +kernel
  cases ho : refresh e with
  | error f e' =>
    rw [ho] at hrefresh
    cases hrefresh
  | ok _ e' =>
    rw [ho] at hrefresh
    obtain ⟨hfound, hload⟩ := Bool.and_eq_true_iff.mp hrefresh
    obtain ⟨c, hc, hid⟩ : ∃ c, e'.registry.get? i = some c ∧ c.graph.id = some 1 := by
      cases hc : e'.registry.get? i with
      | none =>
        rw [hc] at hfound
        cases hfound
      | some c =>
        rw [hc] at hfound
        exact ⟨c, rfl, of_decide_eq_true hfound⟩
    cases hl : loadOne i e' with
    | ok c e'' =>
      rw [hl] at hload
      cases hload
    | error f e'' =>
      rw [hl] at hload
      have hf : f = .flowNotFound i := of_decide_eq_true hload
      exact ⟨e', e'', rfl, ⟨c, hc, hid⟩, by rw [hl, hf]⟩

end DurableFlow.Engine
