import DurableFlow.Proofs.Engine.RegistryEntries
import DurableFlow.Proofs.Engine.SparingSteps
import DurableFlow.Proofs.Store.PublishedRevisions

/-! Published flows in an engine. As long as a publication is not replaced, whatever is loaded for its
flow has its nodes, and the registry never holds anything else for it. -/
namespace DurableFlow
open DurableFlow.Action (Ensures)
open Engine (Quiet Quietly Spares)

namespace Flow.Publication
variable (p : Publication)

def Carries (g : Graph) : Prop := g.id.getD 0 = p.flow → g.index = p.index

/-- What a registry may hold. What stands under the number of the flow is the flow. -/
structure CarriedBy (r : Registry) : Prop where
  carries : ∀ entry c, (entry, c) ∈ r.entries → p.Carries c.graph
  numbered : ∀ c, (some (.int p.flow), c) ∈ r.entries → c.graph.id = some p.flow

structure Finds (flow : Identifier) (found : Compilation) : Prop where
  carries : p.Carries found.graph
  index : flow = (p.flow : Identifier) → found.graph.index = p.index

variable {p}

/-- Whatever the identity, the document of the publication gives its nodes. -/
theorem index_eq_of_compile {d : Definition} {body : List (String × Json)} {g : Graph}
    (hclean : clean p.raw = .ok body) (h : compile d (.object body) = .ok g) :
    g.index = p.index := by
  rw [p.cleaned] at hclean
  cases hclean
  exact compile_index_eq p.compiled h

/-! ## Registries -/

namespace CarriedBy
variable {r r' : Registry}

theorem empty : p.CarriedBy .empty :=
  ⟨fun _ _ h => absurd h List.not_mem_nil, fun _ h => absurd h List.not_mem_nil⟩

theorem of_subset (h : p.CarriedBy r) (hs : ∀ x ∈ r'.entries, x ∈ r.entries) : p.CarriedBy r' :=
  ⟨fun entry c hc => h.carries entry c (hs _ hc), fun c hc => h.numbered c (hs _ hc)⟩

protected theorem evict (h : p.CarriedBy r) (flow : Identifier) : p.CarriedBy (r.evict flow) :=
  h.of_subset fun _ hx => Registry.mem_evict hx

protected theorem insert (h : p.CarriedBy r) {c : Compilation} (hc : p.Carries c.graph) :
    p.CarriedBy (r.insert c) := by
  constructor
  · intro entry c' hmem
    rcases Registry.mem_insert hmem with ⟨_, rfl⟩ | hold
    · exact hc
    · exact h.carries entry c' hold
  · intro c' hmem
    rcases Registry.mem_insert hmem with ⟨hentry, rfl⟩ | hold
    · exact Registry.id_of_entry hentry
    · exact h.numbered c' hold

/-- What is found in a registry that agrees. -/
theorem finds (h : p.CarriedBy r) {flow : Identifier} {found : Compilation}
    (hf : r.get? flow = some found) : p.Finds flow found := by
  have hmem := Table.mem_of_find?_eq_some hf
  refine ⟨h.carries _ _ hmem, ?_⟩
  rintro rfl
  have hid := h.numbered found hmem
  exact h.carries _ _ hmem (by rw [hid]; rfl)

end CarriedBy

/-! ## Loading -/

variable {e : Engine}

private theorem compile_result (d : Definition) (body : List (String × Json)) (e : Engine) :
    Ensures (Engine.compile d body) e
      (fun c e' => e'.registry = e.registry ∧ compile d (.object body) = .ok c.graph)
      (fun _ e' => e'.registry = e.registry) := by
  have hgraph : Ensures (Engine.compile d body) e
      (fun c _ => compile d (.object body) = .ok c.graph) (fun _ _ => True) := by
    apply Ensures.bind
    apply Ensures.ofExcept
    · intro graph hgraph
      apply Ensures.bind
      apply Ensures.get
      apply Ensures.bind
      apply Ensures.set
      apply Ensures.bind
      exact Ensures.always (fun _ _ => Ensures.pure hgraph) (fun _ _ => trivial)
    · intro _ _
      trivial
  exact ((Engine.compile_spares d body e).and hgraph).mono
    (fun _ _ h => ⟨h.1.registry, h.2⟩) (fun _ _ h => h.1.1.registry)

private theorem loadDefinition_result (he : e.others = []) (flow : Int) :
    Ensures (Engine.loadDefinition flow) e
      (fun body e' => e'.registry = e.registry ∧
        ∃ r, e.store.liveRevision flow = .ok (some r) ∧ clean r.document = .ok body)
      (fun _ e' => e'.registry = e.registry) := by
  have hbody : Ensures (Engine.loadDefinition flow) e
      (fun body _ => ∃ r, e.store.liveRevision flow = .ok (some r) ∧ clean r.document = .ok body)
      (fun _ _ => True) := by
    apply Ensures.bind
    refine (Engine.ask_ensures _ _ he).mono ?_ (fun _ _ _ => trivial)
    rintro found e₁ ⟨_, hfound⟩
    cases found with
    | none => exact Ensures.throw trivial
    | some r =>
      apply Ensures.bind
      refine Ensures.always (fun _ _ => ?_) (fun _ _ => trivial)
      exact Ensures.ofExcept (fun body hbody => ⟨r, hfound, hbody⟩) (fun _ _ => trivial)
  exact ((Engine.loadDefinition_spares flow e).and hbody).mono
    (fun _ _ h => ⟨h.1.registry, h.2⟩) (fun _ _ h => h.1.1.registry)

private theorem loadOne_finds (he : e.others = []) (hp : p.InForce e.store) (flow : Identifier) :
    Ensures (Engine.loadOne flow) e
      (fun found e' => e'.registry = e.registry ∧ p.Finds flow found)
      (fun _ e' => e'.registry = e.registry) := by
  unfold Engine.loadOne
  apply Ensures.bind
  refine ((Engine.ask_ensures .getFlow (Store.getFlow flow) he).and
    (Engine.ask_spares .getFlow (Store.getFlow_plainly flow) e)).mono ?_
    (fun _ _ h => h.2.1.registry)
  rintro found e₁ ⟨⟨hq, hfound⟩, hs⟩
  cases found with
  | none => exact Ensures.throw hs.registry
  | some d =>
    apply Ensures.bind
    refine (loadDefinition_result (hq.others.trans he) _).mono ?_ (fun _ _ h => h.trans hs.registry)
    rintro body e₂ ⟨hr₂, r, hr, hclean⟩
    refine (compile_result d body e₂).mono ?_ (fun _ _ h => h.trans (hr₂.trans hs.registry))
    rintro c e₃ ⟨hr₃, hcompile⟩
    have hcarries : p.Carries c.graph := by
      intro hid
      rw [compile_id hcompile] at hid
      rw [hid, hq.store] at hr
      exact index_eq_of_compile (hp.live r hr ▸ hclean) hcompile
    refine ⟨hr₃.trans (hr₂.trans hs.registry), hcarries, ?_⟩
    rintro rfl
    apply hcarries
    rw [compile_id hcompile, hp.numbered d hfound]
    rfl

/-- A flow that is fetched is found as it is published, and the registry still agrees. -/
theorem fetch_finds (he : e.others = []) (hp : p.InForce e.store) (ha : p.CarriedBy e.registry)
    (flow : Identifier) : Ensures (Engine.fetch flow) e
      (fun found e' => p.CarriedBy e'.registry ∧ p.Finds flow found)
      (fun _ e' => p.CarriedBy e'.registry) := by
  unfold Engine.fetch
  apply Ensures.bind
  apply Ensures.get
  split
  · rename_i c hc
    exact Ensures.pure ⟨ha, ha.finds hc⟩
  · apply Ensures.bind
    refine (loadOne_finds he hp flow).mono ?_ (fun _ _ h => h ▸ ha)
    rintro c e₁ ⟨hr, hfinds⟩
    apply Ensures.bind
    apply Ensures.modify
    refine Ensures.pure ⟨?_, hfinds⟩
    change p.CarriedBy (e₁.registry.insert c)
    rw [hr]
    exact ha.insert hfinds.carries

/-! ## Loading all flows -/

def Refills (p : Publication) {α : Type} (act : Run α) (e : Engine) : Prop :=
  Ensures act e (fun _ e' => Quiet e e' ∧ p.CarriedBy e'.registry)
    (fun _ e' => Quiet e e' ∧ p.CarriedBy e'.registry)

private theorem Refills.after {α : Type} {act : Run α} {e₁ : Engine} (h : p.Refills act e₁)
    (hq : Quiet e e₁) : Ensures act e₁ (fun _ e' => Quiet e e' ∧ p.CarriedBy e'.registry)
      (fun _ e' => Quiet e e' ∧ p.CarriedBy e'.registry) :=
  Ensures.mono h (fun _ _ h => ⟨hq.trans h.1, h.2⟩) (fun _ _ h => ⟨hq.trans h.1, h.2⟩)

/-- A row of a batch that has the document of the publication if it is one of the flow. -/
def IsPublished (p : Publication) (row : Definition × Json) : Prop :=
  row.1.id.getD 0 = p.flow → row.2 = p.raw

private theorem note_refills {level : Level} {text : String} (ha : p.CarriedBy e.registry) :
    p.Refills (Engine.note level text) e :=
  Ensures.modify ⟨⟨rfl, rfl, rfl, rfl⟩, ha⟩

private theorem compileRow_carries (he : e.others = []) {previous : Registry}
    (hprevious : p.CarriedBy previous) (ha : p.CarriedBy e.registry) (d : Definition)
    (body : List (String × Json)) (hbody : d.id.getD 0 = p.flow → clean p.raw = .ok body) :
    Ensures (Engine.compileRow previous d body) e
      (fun found e' => (Quiet e e' ∧ p.CarriedBy e'.registry) ∧
        ∀ c, found = some c → p.Carries c.graph)
      (fun _ e' => Quiet e e' ∧ p.CarriedBy e'.registry) := by
  unfold Engine.compileRow
  dsimp only
  split
  · rename_i c hc
    refine Ensures.pure ⟨⟨.refl, ha⟩, ?_⟩
    rintro _ ⟨⟩
    obtain ⟨hc, _⟩ := Option.filter_eq_some_iff.mp hc
    obtain ⟨⟨entry, c'⟩, hfound, rfl⟩ := Option.map_eq_some_iff.mp hc
    exact hprevious.carries entry c' (List.mem_reverse.mp (List.mem_of_find?_eq_some hfound))
  · apply Ensures.bind
    apply Ensures.attempt
    refine (((Engine.compile_yields d body).quietly e he).and (compile_result d body e)).mono ?_ ?_
    · rintro c e₁ ⟨hq, hr, hcompile⟩
      refine Ensures.pure ⟨⟨hq, hr ▸ ha⟩, ?_⟩
      rintro _ ⟨⟩ hid
      exact index_eq_of_compile (hbody (compile_id hcompile ▸ hid)) hcompile
    · rintro f e₁ ⟨hq, hr⟩
      have ha₁ : p.CarriedBy e₁.registry := hr ▸ ha
      cases f with
      | malformed flow fault =>
        apply Ensures.bind
        refine Ensures.mono (note_refills ha₁) ?_ (fun _ _ h => ⟨hq.trans h.1, h.2⟩)
        rintro _ e₂ ⟨hq₂, ha₂⟩
        apply Ensures.bind
        apply Ensures.modify
        refine Ensures.pure ⟨⟨hq.trans (hq₂.trans ⟨rfl, rfl, rfl, rfl⟩), ?_⟩, fun _ h => by cases h⟩
        exact ha₂.of_subset fun _ hx => hx
      | _ => exact Ensures.throw ⟨hq, ha₁⟩

private theorem loadRows_refills (he : e.others = []) {previous : Registry}
    (hprevious : p.CarriedBy previous) (ha : p.CarriedBy e.registry)
    (rows : List (Definition × Json)) (hrows : ∀ row ∈ rows, p.IsPublished row) (loaded : Nat) :
    p.Refills (Engine.loadRows previous rows loaded) e := by
  induction rows generalizing e loaded with
  | nil =>
    apply Ensures.bind
    apply Ensures.get
    exact note_refills ha
  | cons row rest ih =>
    obtain ⟨d, raw⟩ := row
    have hrest (row : Definition × Json) (hrow : row ∈ rest) : p.IsPublished row :=
      hrows row (List.mem_cons_of_mem _ hrow)
    unfold Engine.loadRows
    apply Ensures.bind
    apply Ensures.ofExcept
    · intro body hbody
      apply Ensures.bind
      refine (compileRow_carries he hprevious ha d body ?_).mono ?_ (fun _ _ h => h)
      · intro hid
        rw [← hrows _ List.mem_cons_self hid]
        exact hbody
      · rintro found e₁ ⟨⟨hq, ha₁⟩, hfound⟩
        cases found with
        | none => exact (ih (hq.others.trans he) ha₁ hrest loaded).after hq
        | some c =>
          apply Ensures.bind
          apply Ensures.modify
          have ha₂ : p.CarriedBy ((e₁.registry.insert c).mend (d.id.getD 0)) :=
            (ha₁.insert (hfound c rfl)).of_subset fun _ hx => hx
          have hq₂ : Quiet e₁ { e₁ with registry := (e₁.registry.insert c).mend (d.id.getD 0) } :=
            ⟨rfl, rfl, rfl, rfl⟩
          have hnext := ih (hq₂.others.trans (hq.others.trans he)) ha₂ hrest (loaded + 1)
          exact hnext.after (hq.trans hq₂)
    · intro _ _
      exact ⟨.refl, ha⟩

private theorem rows_published (he : e.others = []) (hp : p.InForce e.store)
    (ha : p.CarriedBy e.registry) (only : Option Int) :
    Ensures (Engine.ask .activeFlows (Store.activeFlows only)) e
      (fun rows e' => Quiet e e' ∧ p.CarriedBy e'.registry ∧ ∀ row ∈ rows, p.IsPublished row)
      (fun _ e' => Quiet e e' ∧ p.CarriedBy e'.registry) := by
  refine ((Engine.ask_ensures .activeFlows (Store.activeFlows only) he).and
    (Engine.ask_spares .activeFlows (Store.activeFlows_plainly only) e)).mono ?_ ?_
  · rintro rows e₁ ⟨⟨hq, hrows⟩, hs⟩
    refine ⟨hq, hs.registry ▸ ha, ?_⟩
    rintro ⟨d, raw⟩ hrow
    exact hp.active only rows d raw hrows hrow
  · rintro _ e₁ ⟨hq, hs, _⟩
    exact ⟨hq, hs.registry ▸ ha⟩

/-- Loading all flows again leaves the registry in agreement with the publication. -/
theorem refresh_refills (he : e.others = []) (hp : p.InForce e.store) (ha : p.CarriedBy e.registry) :
    p.Refills Engine.refresh e := by
  have hq : Quiet e { e with registry := .empty } := ⟨rfl, rfl, rfl, rfl⟩
  apply Ensures.bind
  apply Ensures.get
  apply Ensures.bind
  apply Ensures.modify
  apply Ensures.bind
  have hrows := rows_published (hq.others.trans he) (hq.store ▸ hp) CarriedBy.empty none
  refine hrows.mono ?_ (fun _ _ h => ⟨hq.trans h.1, h.2⟩)
  rintro rows e₁ ⟨hq₁, ha₁, hrows⟩
  exact (loadRows_refills (hq₁.others.trans he) ha ha₁ rows hrows 0).after (hq.trans hq₁)

theorem loadAll_refills (he : e.others = []) (hp : p.InForce e.store) (ha : p.CarriedBy e.registry)
    (only : Option Int) : p.Refills (Engine.loadAll only) e := by
  apply Ensures.bind
  refine (rows_published he hp ha only).mono ?_ (fun _ _ h => h)
  rintro rows e₁ ⟨hq₁, ha₁, hrows⟩
  apply Ensures.bind
  apply Ensures.get
  exact (loadRows_refills (hq₁.others.trans he) ha₁ ha₁ rows hrows 0).after hq₁

theorem evict_refills (ha : p.CarriedBy e.registry) (flow : Identifier) :
    p.Refills (Engine.evict flow) e := by
  apply Ensures.bind
  apply Ensures.get
  apply Ensures.bind
  apply Ensures.modify
  exact Ensures.pure ⟨⟨rfl, rfl, rfl, rfl⟩, ha.evict flow⟩

end Flow.Publication
end DurableFlow
