import DurableFlow.Proofs.Engine.LoadedRegistries
import DurableFlow.Proofs.Store.ListedFlows

/-! Catalogues: stored flows, and a registry over them. Whatever has happened to them, the registry
holds nothing but what was compiled from a saved document. -/
namespace DurableFlow.Engine
open DurableFlow.Action (Ensures)
open DurableFlow.Flow (Definition Publishing)

/-! ## Acts -/

/-- What happens to stored flows, to the registry over them, or meanwhile. -/
inductive Act where
  | saveFlow (d : Definition)
  | saveRevision (flow : Int) (document : Json) (status : Publishing)
  | dropLive (flow : Int)
  | loadAll (only : Option Int)
  | refresh
  | fetch (flow : Identifier)
  | evict (flow : Identifier)
  | elapse (seconds : Binary64)

def Act.step : Act → Run Unit
  | .saveFlow d => discard <| Action.holding d Engine.saveFlow
  | .saveRevision flow document status => discard <| Engine.saveRevision flow document status
  | .dropLive flow => alterStore fun s => .ok (s.dropLive flow)
  | .loadAll only => Engine.loadAll only
  | .refresh => Engine.refresh
  | .fetch flow => discard <| Engine.fetch flow
  | .evict flow => discard <| Engine.evict flow
  | .elapse seconds => Engine.elapse seconds

def perform (e : Engine) (act : Act) : Engine :=
  match act.step e with
  | .ok _ e' | .error _ e' => e'

def performAll (e : Engine) (acts : List Act) : Engine := acts.foldl perform e

def Act.document? : Act → Option Json
  | .saveRevision _ document _ => some document
  | _ => none

def documentsOf (acts : List Act) : List Json := acts.filterMap Act.document?

/-! ## What a catalogue keeps -/

def CompiledFrom (documents : List Json) (g : Flow.Graph) : Prop :=
  ∃ raw ∈ documents, ∃ body d, Flow.clean raw = .ok body ∧ Flow.compile d (.object body) = .ok g

def Filled (documents : List Json) (r : Registry) : Prop :=
  ∀ x ∈ r.entries, CompiledFrom documents x.2.graph

/-- An engine with a catalogue that it has to itself: no others write, no fault is planned, and its flows
and compilations come of the documents. -/
structure Stocked (documents : List Json) (e : Engine) : Prop where
  alone : e.others = []
  unfailing : e.faults = .none
  listed : e.store.Listed documents
  filled : Filled documents e.registry

variable {documents : List Json} {e e' : Engine} {r r' previous : Registry}

theorem Filled.empty : Filled documents .empty := by
  intro x hx
  cases hx

theorem Filled.insert (h : Filled documents r) {c : Compilation}
    (hc : CompiledFrom documents c.graph) : Filled documents (r.insert c) := by
  intro x hx
  rcases Registry.mem_insert hx with ⟨_, heq⟩ | hold
  · exact heq ▸ hc
  · exact h x hold

theorem Filled.evict (h : Filled documents r) (flow : Identifier) :
    Filled documents (r.evict flow) := fun x hx => h x (Registry.mem_evict hx)

theorem Filled.get? (h : Filled documents r) {flow : Identifier} {c : Compilation}
    (hc : r.get? flow = some c) : CompiledFrom documents c.graph :=
  h (Registry.entryOf flow, c) (Table.mem_of_find?_eq_some hc)

theorem Filled.ofNumber? (h : Filled documents r) {id : Option Int} {c : Compilation}
    (hc : r.ofNumber? id = some c) : CompiledFrom documents c.graph := by
  obtain ⟨x, hx, rfl⟩ := Option.map_eq_some_iff.mp hc
  exact h x (List.mem_reverse.mp (List.mem_of_find?_eq_some hx))

/-- A load fills a registry with what was there or is compiled. -/
theorem Filled.loads (h : Filled documents r) (hprevious : Filled documents previous)
    {rows : List (Definition × Json)} (hrows : ∀ row ∈ rows, row.2 ∈ documents)
    (hl : Loads previous rows r r') : Filled documents r' := by
  induction hl with
  | done r => exact h
  | @filed d raw rest r r' body c cleaned stands next ih =>
    obtain ⟨hraw, hrest⟩ := List.forall_mem_cons.mp hrows
    refine ih ?_ hrest
    refine Filled.insert h ?_
    obtain ⟨hfound, -⟩ | hcompile := stands
    · exact hprevious.ofNumber? hfound
    · exact ⟨raw, hraw, body, d, cleaned, hcompile⟩
  | refused _ _ _ ih => exact ih h (List.forall_mem_cons.mp hrows).2

/-! ## Steps of a catalogue -/

/-- Nothing comes before a store call of an engine that is alone and unfailing. -/
theorem begin_unchanged (ho : e.others = []) (hf : e.faults = .none) (op : Operation) :
    begin op e = .ok () e := by
  cases e
  cases ho
  cases hf
  rfl

/-- A read of an engine that is alone and unfailing answers from its store, and changes nothing. -/
theorem ask_unchanged {α : Type} (ho : e.others = []) (hf : e.faults = .none) (op : Operation)
    (f : Store → Except Failure α) : ask op f e = Action.ofExcept (f e.store) e :=
  Action.bind_of_ok (begin_unchanged ho hf op)

namespace Stocked

/-- A stocked engine lists the live documents of its flows, each of them one of its documents. -/
theorem asks (h : Stocked documents e) : ∃ rows,
    ask .activeFlows (Store.activeFlows none) e = .ok rows e ∧ e.store.Lists rows ∧
      ∀ row ∈ rows, row.2 ∈ documents := by
  obtain ⟨rows, hrows, hlists⟩ := h.listed.lists
  have hask : ask .activeFlows (Store.activeFlows none) e = .ok rows e :=
    (ask_unchanged h.alone h.unfailing _ _).trans (Action.ofExcept_of_ok hrows)
  exact ⟨rows, hask, hlists, h.listed.active hrows⟩

private abbrev StaysStocked {α : Type} (documents : List Json) (act : Run α) (e : Engine) : Prop :=
  Ensures act e (fun _ e' => Stocked documents e') (fun _ e' => Stocked documents e')

private theorem of_calm (h : Stocked documents e) (hcalm : Calm e e')
    (hfilled : Filled documents e'.registry) : Stocked documents e' :=
  ⟨hcalm.others.trans h.alone, hcalm.faults.trans h.unfailing, hcalm.store ▸ h.listed, hfilled⟩

private theorem file_keeps (h : Stocked documents e) {f : Registry → Registry}
    (hf : Filled documents (f e.registry)) : StaysStocked documents (file f) e :=
  Ensures.modify ⟨h.alone, h.unfailing, h.listed, hf⟩

/-- A read of a stocked engine answers from its store, and changes nothing. -/
theorem ask_ensures {α : Type} (h : Stocked documents e) {op : Operation}
    {f : Store → Except Failure α} : Ensures (ask op f) e
      (fun a e' => e' = e ∧ f e.store = .ok a) (fun _ e' => e' = e) := by
  have hask : ask op f e = Action.ofExcept (f e.store) e := ask_unchanged h.alone h.unfailing op f
  unfold Ensures
  rw [hask]
  exact Ensures.ofExcept (fun a ha => ⟨rfl, ha⟩) fun _ _ => rfl

private theorem ask_keeps {α : Type} (h : Stocked documents e) {op : Operation}
    {f : Store → Except Failure α} : Ensures (ask op f) e
      (fun a e' => e' = e ∧ f e.store = .ok a) (fun _ e' => Stocked documents e') :=
  h.ask_ensures.mono (fun _ _ ha => ha) fun _ _ he => he ▸ h

private theorem saveFlow_keeps (h : Stocked documents e) (d : Definition) :
    StaysStocked documents (Act.step (.saveFlow d)) e := by
  apply Ensures.discard
  apply Ensures.holding
  have hsave := h.listed.saveFlow d
  unfold Ensures Engine.saveFlow
  dsimp only
  cases ho : Store.saveFlow ⟨e.store, d⟩ with
  | ok _ g => exact ⟨h.alone, h.unfailing, hsave.of_eq_ok ho, h.filled⟩
  | error f g => exact ⟨h.alone, h.unfailing, hsave.of_eq_error ho, h.filled⟩

private theorem saveRevision_keeps (h : Stocked documents e) {flow : Int} {document : Json}
    {status : Publishing} (hd : document ∈ documents) :
    StaysStocked documents (Act.step (.saveRevision flow document status)) e := by
  apply Ensures.discard
  unfold Engine.saveRevision instant
  apply Ensures.bind
  apply Ensures.bind
  apply Ensures.get
  refine Ensures.ofExcept (fun time _ => ?_) fun _ _ => h
  apply Ensures.bind
  apply Ensures.get
  apply Ensures.bind
  refine Ensures.ofExcept (fun saved hsaved => ?_) fun _ _ => h
  obtain ⟨revision, store⟩ := saved
  apply Ensures.bind
  apply Ensures.set
  exact Ensures.pure ⟨h.alone, h.unfailing, h.listed.saveRevision hd hsaved, h.filled⟩

private theorem dropLive_keeps (h : Stocked documents e) (flow : Int) :
    StaysStocked documents (Act.step (.dropLive flow)) e := by
  apply Ensures.bind
  apply Ensures.get
  apply Ensures.bind
  refine Ensures.ofExcept (fun store hstore => ?_) fun _ _ => h
  cases hstore
  exact Ensures.set ⟨h.alone, h.unfailing, h.listed.dropLive flow, h.filled⟩

private theorem loadRows_keeps (h : Stocked documents e) {previous : Registry}
    (hprevious : Filled documents previous) {rows : List (Definition × Json)}
    (hrows : ∀ row ∈ rows, row.2 ∈ documents) (loaded : Nat) :
    StaysStocked documents (loadRows previous rows loaded) e := by
  refine (loadRows_loads previous rows loaded).mono ?_ ?_
  · rintro _ e' ⟨hcalm, hloads⟩
    exact h.of_calm hcalm (h.filled.loads hprevious hrows hloads)
  · rintro _ e' ⟨hcalm, before, row, after, rfl, -, hloads⟩
    refine h.of_calm hcalm (h.filled.loads hprevious ?_ hloads)
    intro row hrow
    exact hrows row (List.mem_append_left _ hrow)

private theorem loadAll_keeps (h : Stocked documents e) (only : Option Int) :
    StaysStocked documents (loadAll only) e := by
  apply Ensures.bind
  refine h.ask_keeps.mono ?_ fun _ _ he => he
  rintro rows _ ⟨rfl, hrows⟩
  apply Ensures.bind
  apply Ensures.get
  exact h.loadRows_keeps h.filled (h.listed.active hrows) 0

private theorem refresh_keeps (h : Stocked documents e) : StaysStocked documents refresh e := by
  have hempty : Stocked documents { e with registry := .empty } :=
    ⟨h.alone, h.unfailing, h.listed, .empty⟩
  apply Ensures.bind
  apply Ensures.get
  apply Ensures.bind
  apply Ensures.modify
  apply Ensures.bind
  refine hempty.ask_keeps.mono ?_ fun _ _ he => he
  rintro rows _ ⟨rfl, hrows⟩
  exact hempty.loadRows_keeps h.filled (h.listed.active hrows) 0

private theorem loadDefinition_keeps (h : Stocked documents e) (flow : Int) :
    Ensures (loadDefinition flow) e
      (fun body e' => Stocked documents e' ∧ ∃ raw ∈ documents, Flow.clean raw = .ok body)
      (fun _ e' => Stocked documents e') := by
  apply Ensures.bind
  refine h.ask_keeps.mono ?_ fun _ _ he => he
  rintro live _ ⟨rfl, hlive⟩
  cases live with
  | none => exact Ensures.throw h
  | some r =>
    apply Ensures.bind
    refine (note_calm _ _).mono ?_ fun _ _ hf => hf.elim
    rintro _ e₁ ⟨hcalm, hr⟩
    have hstocked : Stocked documents e₁ := h.of_calm hcalm (hr ▸ h.filled)
    refine Ensures.ofExcept (fun body hbody => ?_) fun _ _ => hstocked
    exact ⟨hstocked, r.document, h.listed.liveRevision hlive, hbody⟩

private theorem loadOne_keeps (h : Stocked documents e) (flow : Identifier) :
    Ensures (loadOne flow) e
      (fun c e' => Stocked documents e' ∧ CompiledFrom documents c.graph)
      (fun _ e' => Stocked documents e') := by
  apply Ensures.bind
  refine h.ask_keeps.mono ?_ fun _ _ he => he
  rintro found _ ⟨rfl, -⟩
  cases found with
  | none => exact Ensures.throw h
  | some d =>
    apply Ensures.bind
    refine (h.loadDefinition_keeps _).mono ?_ fun _ _ he => he
    rintro body e₁ ⟨hstocked, raw, hraw, hbody⟩
    refine (compile_calm d body).mono ?_ ?_
    · rintro c e₂ ⟨hcalm, hr, hcompile⟩
      exact ⟨hstocked.of_calm hcalm (hr ▸ hstocked.filled), raw, hraw, body, d, hbody, hcompile⟩
    · rintro _ e₂ ⟨hcalm, hr, -⟩
      exact hstocked.of_calm hcalm (hr ▸ hstocked.filled)

private theorem fetch_keeps (h : Stocked documents e) (flow : Identifier) :
    StaysStocked documents (Engine.fetch flow) e := by
  apply Ensures.bind
  apply Ensures.get
  split
  · exact Ensures.pure h
  · apply Ensures.bind
    refine (h.loadOne_keeps flow).mono ?_ fun _ _ he => he
    rintro c e' ⟨hstocked, hc⟩
    apply Ensures.bind
    refine (hstocked.file_keeps (hstocked.filled.insert hc)).mono ?_ fun _ _ he => he
    rintro _ e'' hfiled
    exact Ensures.pure hfiled

private theorem elapse_keeps (h : Stocked documents e) (seconds : Binary64) :
    StaysStocked documents (Engine.elapse seconds) e := by
  apply Ensures.bind
  refine Ensures.ofExcept (fun micros _ => ?_) fun _ _ => h
  exact Ensures.modify ⟨h.alone, h.unfailing, h.listed, h.filled⟩

/-- Every act keeps a catalogue stocked, if the document that it saves is one of its documents. -/
theorem step (h : Stocked documents e) (act : Act)
    (hd : ∀ document, act.document? = some document → document ∈ documents) :
    StaysStocked documents act.step e := by
  cases act with
  | saveFlow d => exact h.saveFlow_keeps d
  | saveRevision flow document status => exact h.saveRevision_keeps (hd document rfl)
  | dropLive flow => exact h.dropLive_keeps flow
  | loadAll only => exact h.loadAll_keeps only
  | refresh => exact h.refresh_keeps
  | fetch flow => exact (h.fetch_keeps flow).discard
  | evict flow =>
    apply Ensures.discard
    apply Ensures.bind
    apply Ensures.get
    apply Ensures.bind
    refine (h.file_keeps (h.filled.evict flow)).mono ?_ fun _ _ he => he
    rintro _ e' hfiled
    exact Ensures.pure hfiled
  | elapse seconds => exact h.elapse_keeps seconds

theorem perform (h : Stocked documents e) (act : Act)
    (hd : ∀ document, act.document? = some document → document ∈ documents) :
    Stocked documents (e.perform act) := by
  have hstep := h.step act hd
  unfold Engine.perform
  split
  · rename_i he
    exact hstep.of_eq_ok he
  · rename_i he
    exact hstep.of_eq_error he

/-- Acts keep a catalogue stocked, whatever becomes of them. -/
theorem performAll (h : Stocked documents e) {acts : List Act}
    (hd : ∀ document ∈ documentsOf acts, document ∈ documents) :
    Stocked documents (e.performAll acts) := by
  induction acts generalizing e with
  | nil => exact h
  | cons act rest ih =>
    have hmem {x : Act} {document : Json} (hx : x ∈ act :: rest)
        (hdocument : x.document? = some document) : document ∈ documents :=
      hd document (List.mem_filterMap.mpr ⟨x, hx, hdocument⟩)
    refine ih (h.perform act fun _ => hmem List.mem_cons_self) ?_
    intro document hdocument
    obtain ⟨x, hx, hsome⟩ := List.mem_filterMap.mp hdocument
    exact hmem (List.mem_cons_of_mem _ hx) hsome

end Stocked

/-- A catalogue over a store that has just been opened is stocked, whatever has happened to it. -/
theorem stocked_ofStore {store : Store} (h : store.Opened) (policy : RetryPolicy) (batchSize : Json)
    (clock : Int) (acts : List Act) :
    Stocked (documentsOf acts) ((ofStore store policy batchSize clock).performAll acts) := by
  have hstart : Stocked (documentsOf acts) (ofStore store policy batchSize clock) :=
    ⟨rfl, rfl, h.listed _, .empty⟩
  exact hstart.performAll fun _ hd => hd

end DurableFlow.Engine
