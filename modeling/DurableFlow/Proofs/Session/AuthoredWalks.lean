import DurableFlow.Proofs.Engine.WalkedRows
import DurableFlow.Proofs.Session.DisciplinedSessions

/-! Walks of a session. Whatever the clients request and whenever flows are loaded again, a context of
a published flow stands on the node that its successful advances have led it to in the document. -/
namespace DurableFlow.Session
open DurableFlow.Action (Ensures)
open Engine (Quiet Taken)
open DurableFlow.Flow (Authored.InTexts Authored.follow Authored.walk Publication)

variable {p : Publication} {s : Session} {taken : Taken} {t t' t'' : Store} {i : String}

/-! ## Acts -/

/-- What happens in a session: requests of clients, and what is done to the registry. -/
inductive Happening where
  | request (q : Request)
  | refresh
  | loadAll (only : Option Int)
  | evict (flow : Identifier)

def Happening.perform : Happening → Session → Answer × Session
  | .request q => q.perform
  | .refresh => Session.beside do Engine.refresh; return []
  | .loadAll only => Session.beside do Engine.loadAll only; return []
  | .evict flow => Session.beside do let _ ← Engine.evict flow; return []

def Happening.taken? (s : Session) : Happening → Taken
  | .request q => s.taken? q
  | _ => none

def after (s : Session) (acts : List Happening) : Session := acts.foldl (fun s a => (a.perform s).2) s

def chosen (i : String) : Taken → List Json
  | some (j, choice) => if j = i then [choice] else []
  | none => []

def choices (i : String) : Session → List Happening → List Json
  | _, [] => []
  | s, a :: rest => chosen i (a.taken? s) ++ choices i (a.perform s).2 rest

/-- Flows that are started have the nodes of the publication if they are of its flow, and what
happens meanwhile leaves the registry in agreement with it. -/
def Allows (p : Publication) : Happening → Prop
  | .request (.call (.start graph _ _)) => p.Carries graph
  | .request (.call (.meanwhile change _)) =>
    ∀ e, p.CarriedBy e.registry → p.CarriedBy (change e).registry
  | _ => True

/-! ## What an act does -/

abbrev Keeping (p : Publication) (s : Session) : Prop := Regular p.walking s

structure Kept (p : Publication) (taken : Taken) (s : Session) (r : Answer × Session) : Prop where
  keeping : Keeping p r.2
  walks : p.Walks taken s.engine.store r.2.engine.store
  unharmed : ∀ f, r.1 = .error f → p.Unharmed r.2.engine.store f

private theorem permits_of_allows {q : Request} (h : Allows p (.request q)) :
    Permits p.walking s q := by
  cases q with
  | call call =>
    cases call with
    | start graph contact parent => exact ⟨h, trivial⟩
    | meanwhile change quiet =>
      intro he
      have hstore : (change s.engine).store = s.engine.store := (quiet _).store
      exact ⟨he.ready.quiet (quiet _), hstore ▸ he.inForce, h _ he.agrees, hstore ▸ he.placed⟩
    | _ => trivial
  | _ => trivial

private theorem kept_of_refills {α : Type} (hs : Keeping p s) {act : Run α}
    (h : p.Refills act s.engine) (hfair : Engine.Fair act) :
    Kept p none s (s.beside do let _ ← act; return []) := by
  obtain ⟨hr, hp, _, hplaced⟩ := hs.holds
  have hkept {e : Engine} (hq : Quiet s.engine e) (ha : p.CarriedBy e.registry) :
      Keeping p ⟨e, s.copies⟩ ∧ p.Walks none s.engine.store e.store := by
    rw [hq.store]
    refine ⟨⟨⟨hr.quiet hq, hq.store ▸ hp, ha, hq.store ▸ hplaced⟩, ?_⟩, .refl _⟩
    intro c hc
    exact hq.store ▸ hs.keeps c hc
  have hact : Ensures (do let _ ← act; return ([] : List Context)) s.engine
      (fun cs e => (Quiet s.engine e ∧ p.CarriedBy e.registry) ∧ cs = [])
      (fun f e => (Quiet s.engine e ∧ p.CarriedBy e.registry) ∧ f.isPlain = true) := by
    apply Ensures.bind
    refine (Ensures.and h (hfair s.engine)).mono ?_ (fun _ _ h => h)
    rintro _ e ⟨hrefilled, -⟩
    exact Ensures.pure ⟨hrefilled, rfl⟩
  unfold Session.beside
  cases ho : (do let _ ← act; return ([] : List Context) : Run (List Context)) s.engine with
  | ok handed e =>
    obtain ⟨⟨hq, ha⟩, rfl⟩ := hact.of_eq_ok ho
    obtain ⟨hkeeping, hwalks⟩ := hkept hq ha
    change Kept p none s (.ok (), ⟨e, s.copies ++ []⟩)
    rw [List.append_nil]
    exact ⟨hkeeping, hwalks, fun _ hf => by cases hf⟩
  | error f e =>
    obtain ⟨⟨hq, ha⟩, hf⟩ := hact.of_eq_error ho
    obtain ⟨hkeeping, hwalks⟩ := hkept hq ha
    refine ⟨hkeeping, hwalks, ?_⟩
    rintro _ ⟨⟩
    exact p.walking.fails_of_plain hf

/-- Every act that the publication allows keeps to it. -/
theorem Happening.kept (hs : Keeping p s) (a : Happening) (ha : Allows p a) :
    Kept p (a.taken? s) s (a.perform s) := by
  obtain ⟨hr, hp, hagrees, _⟩ := hs.holds
  cases a with
  | request q =>
    obtain ⟨hregular, hgrows, hfails⟩ := perform_answered hs q (permits_of_allows ha)
    exact ⟨hregular, hgrows, hfails⟩
  | refresh =>
    exact kept_of_refills hs (Flow.Publication.refresh_refills hr.alone hp hagrees)
      Engine.refresh_fair
  | loadAll only =>
    exact kept_of_refills hs (Flow.Publication.loadAll_refills hr.alone hp hagrees only)
      (Engine.loadAll_fair only)
  | evict flow =>
    exact kept_of_refills hs (Flow.Publication.evict_refills hagrees flow) (Engine.evict_fair flow)

/-! ## Walks -/

/-- What some choices make of a context of the flow: from where it stood, or from the first node if
it is a new one, they have led it along the document. -/
structure Walked (p : Publication) (i : String) (cs : List Json) (t t' : Store) : Prop where
  kept : ∀ r, t.row? i = some r → ∃ r', t'.row? i = some r' ∧ r'.flow = r.flow ∧
    (r.flow = p.flow → r'.node = cs.foldl (Authored.follow p.document) r.node)
  new : t.row? i = none → ∀ r', t'.row? i = some r' → r'.flow = p.flow →
    r'.node = Authored.walk p.document cs
  absent : t'.row? i = none → cs = []

private theorem node_of_goes {r r' : Context} (h : p.Goes taken i r r') :
    r'.node = (chosen i taken).foldl (Authored.follow p.document) r.node := by
  cases taken with
  | none => exact h.stays fun _ ht => by cases ht
  | some a =>
    obtain ⟨j, choice⟩ := a
    by_cases hj : j = i
    · subst hj
      simp only [chosen, if_true, List.foldl_cons, List.foldl_nil]
      exact (h.advances choice rfl).node
    · simp only [chosen, if_neg hj, List.foldl_nil]
      refine h.stays fun c ht => ?_
      cases ht
      exact hj rfl

namespace Walked
variable {cs cs' : List Json}

theorem nil (t : Store) : Walked p i [] t t := by
  refine ⟨fun r hr => ⟨r, hr, rfl, fun _ => rfl⟩, ?_, fun _ => rfl⟩
  intro hn r' hr'
  rw [hn] at hr'
  cases hr'

theorem of_walks (h : p.Walks taken t t') : Walked p i (chosen i taken) t t' := by
  constructor
  · intro r hr
    obtain ⟨r', hr', hflow, hgoes⟩ := h.kept i r hr
    exact ⟨r', hr', hflow, fun hf => node_of_goes (hgoes hf)⟩
  · intro hn r' hr' hf
    obtain ⟨r, hborn, hgoes⟩ := h.new i r' hn hr' hf
    rw [node_of_goes hgoes, hborn.node]
    rfl
  · intro hn
    cases taken with
    | none => rfl
    | some a =>
      obtain ⟨j, choice⟩ := a
      have hj : j ≠ i := by
        rintro rfl
        have hsome := h.named j choice rfl
        rw [hn] at hsome
        cases hsome
      simp [chosen, hj]

theorem trans (h : Walked p i cs t t') (h' : Walked p i cs' t' t'') :
    Walked p i (cs ++ cs') t t'' := by
  constructor
  · intro r hr
    obtain ⟨r', hr', hflow, hnode⟩ := h.kept r hr
    obtain ⟨r'', hr'', hflow', hnode'⟩ := h'.kept r' hr'
    refine ⟨r'', hr'', hflow'.trans hflow, fun hf => ?_⟩
    rw [hnode' (hflow.trans hf), hnode hf, List.foldl_append]
  · intro hn r'' hr'' hf
    cases hr' : t'.row? i with
    | none =>
      rw [h.absent hr', List.nil_append]
      exact h'.new hr' r'' hr'' hf
    | some r' =>
      obtain ⟨r₂, hr₂, hflow, hnode⟩ := h'.kept r' hr'
      rw [hr''] at hr₂
      cases hr₂
      have hf' : r'.flow = p.flow := hflow.symm.trans hf
      rw [hnode hf', h.new hn r' hr' hf', Authored.walk, Authored.walk, List.foldl_append]
  · intro hn
    cases hr' : t'.row? i with
    | none => rw [h.absent hr', h'.absent hn, List.nil_append]
    | some r' =>
      obtain ⟨r'', hr'', _⟩ := h'.kept r' hr'
      rw [hn] at hr''
      cases hr''

end Walked

/-- Acts keep to the publication, and lead its contexts along the document. -/
theorem Keeping.after (hs : Keeping p s) (acts : List Happening) (ha : ∀ a ∈ acts, Allows p a) :
    Keeping p (s.after acts) ∧
      ∀ i, Walked p i (choices i s acts) s.engine.store (s.after acts).engine.store := by
  induction acts generalizing s with
  | nil => exact ⟨hs, fun i => .nil _⟩
  | cons a rest ih =>
    have hkept := a.kept hs (ha a List.mem_cons_self)
    obtain ⟨hkeeping, hwalked⟩ := ih hkept.keeping fun b hb => ha b (List.mem_cons_of_mem _ hb)
    exact ⟨hkeeping, fun i => (Walked.of_walks hkept.walks).trans (hwalked i)⟩

theorem Fresh.keeping (hs : s.Fresh) (hp : p.InForce s.engine.store)
    (ha : p.CarriedBy s.engine.registry) : Keeping p s := by
  refine ⟨⟨hs.sound.ready, hp, ha, ?_⟩, ?_⟩
  · intro i r hr
    rw [hs.vacant.row?_eq_none i] at hr
    cases hr
  · intro c hc
    rw [hs.unheld] at hc
    cases hc

/-- What one act does to the contexts of the flow: its advance, if it is one, takes the chosen exit of
the document, and completes the context exactly if nothing is behind the exit; nothing else moves a
context, and no failure says that a context of the flow dangles. -/
structure Led (p : Publication) (s : Session) (a : Happening) : Prop where
  rows : ∀ i r, s.engine.store.row? i = some r → r.flow = p.flow →
    ∃ r', (a.perform s).2.engine.store.row? i = some r' ∧ r'.flow = r.flow ∧
      p.Goes (a.taken? s) i r r'
  unharmed : ∀ i node, (a.perform s).1 = .error (.dangling i node) →
    ∃ j r, i = some j ∧ (a.perform s).2.engine.store.row? j = some r ∧ r.flow ≠ p.flow

/-- While a publication is in force, whatever the clients do and whenever its flow is evicted or
loaded again: a context of the flow stands on the node to which the choices of its successful
advances lead from the first node of the document, and every further act leads it along the
document, too. -/
theorem node_eq_walk (hs : s.Fresh) (hp : p.InForce s.engine.store)
    (hr : p.CarriedBy s.engine.registry) (acts : List Happening) (ha : ∀ a ∈ acts, Allows p a) :
    (∀ i r, (s.after acts).engine.store.row? i = some r → r.flow = p.flow →
      r.node = Authored.walk p.document (choices i s acts)) ∧
    ∀ a, Allows p a → Led p (s.after acts) a := by
  obtain ⟨hkeeping, hwalked⟩ := (hs.keeping hp hr).after acts ha
  constructor
  · intro i r hrow hf
    exact (hwalked i).new (hs.vacant.row?_eq_none i) r hrow hf
  · intro a hallowed
    have hkept := a.kept hkeeping hallowed
    constructor
    · intro i r hrow hf
      obtain ⟨r', hr', hflow, hgoes⟩ := hkept.walks.kept i r hrow
      exact ⟨r', hr', hflow, hgoes hf⟩
    · intro i node hfailed
      exact hkept.unharmed _ hfailed i node rfl

def greeting : List (String × Json) :=
  [("nodes", .array [
    .object [("uuid", .string "hello"),
      ("exits", .array [.object [("uuid", .string "on"), ("destination_uuid", .string "bye")]])],
    .object [("uuid", .string "bye"), ("exits", .array [.object [("uuid", .string "off")]])]])]

def greetingFlow : Flow.Definition :=
  ⟨some "flow", some "greet", some "Greeting", some "eng", .message, some "1", some 1, []⟩

def shelf : Store.Memory := ⟨[(1, greetingFlow)], [], [], 2, 0⟩

def published : Session :=
  let revision : Flow.Revision := ⟨1, 0, .object greeting, .published, .utc 0, 0⟩
  ⟨{ inMemory.engine with store := .memory { shelf with revisions := [(1, [revision])], saves := 1 } },
    []⟩

def greeted : List Happening :=
  [.request (.startFlow (1 : Int) (.int 7)),
    .request (.deliver (Engine.freshId 1) (.int 0) .null), .evict (1 : Int),
    .request (.deliver (Engine.freshId 1) (.int 0) .null)]

private theorem greeting_inTexts : Authored.InTexts (.object greeting) := by
  constructor
  · intro n hn
    rcases List.mem_cons.mp hn with rfl | hn
    · exact ⟨"hello", rfl⟩
    · cases List.mem_singleton.mp hn
      exact ⟨"bye", rfl⟩
  · intro n hn x hx
    rcases List.mem_cons.mp hn with rfl | hn
    · cases List.mem_singleton.mp hx
      exact .inr ⟨"bye", rfl⟩
    · cases List.mem_singleton.mp hn
      cases List.mem_singleton.mp hx
      exact .inl rfl

/-- The publication of the flow is in force, and the context that goes through it ends on the second
node, completed: there its two choices lead. -/
theorem node_eq_walk_greeting : ∃ p : Publication, p.raw = .object greeting ∧ p.flow = 1 ∧
    p.InForce published.engine.store ∧ ∃ r,
      (published.after greeted).engine.store.row? (Engine.freshId 1) = some r ∧
      r.flow = 1 ∧ r.completed.isSome ∧ r.node = .string "bye" ∧
      r.node = Authored.walk (.object greeting) [.int 0, .int 0] := by
  have hcompiles : (match Flow.compile greetingFlow (.object greeting) with
      | .ok _ => true
      | .error _ => false) = true := by decide +kernel
  cases hg : Flow.compile greetingFlow (.object greeting) with
  | error f =>
    rw [hg] at hcompiles
    cases hcompiles
  | ok g =>
    let p : Publication := ⟨1, .object greeting, greeting, greetingFlow, g, rfl, hg, greeting_inTexts⟩
    have hcatalogued : Store.Catalogued (.memory shelf) := by
      intro n d hd
      cases List.mem_singleton.mp hd
      rfl
    have hsaved : Store.saveRevision (.utc 0) none 1 (.object greeting) .published (.memory shelf) =
        .ok (⟨1, 0, .object greeting, .published, .utc 0, 0⟩, published.engine.store) := rfl
    have hforce : p.InForce published.engine.store :=
      Flow.Publication.inForce_of_saved hcatalogued hsaved
    have hallowed : ∀ a ∈ greeted, Allows p a := by
      simp [greeted, Allows]
    obtain ⟨hwalk, _⟩ :=
      node_eq_walk (s := published) ⟨rfl, rfl, rfl, rfl⟩ hforce .empty greeted hallowed
    have hchoices : choices (Engine.freshId 1) published greeted = [.int 0, .int 0] := by
      decide +kernel
    have hrow : ((published.after greeted).engine.store.row? (Engine.freshId 1)).map
        (fun r => (r.flow, r.completed.isSome, r.node)) = some (1, true, .string "bye") := by
      decide +kernel
    obtain ⟨r, hr, hfields⟩ := Option.map_eq_some_iff.mp hrow
    simp only [Prod.mk.injEq] at hfields
    obtain ⟨hflow, hcompleted, hnode⟩ := hfields
    refine ⟨p, rfl, rfl, hforce, r, hr, hflow, hcompleted, hnode, ?_⟩
    rw [← hchoices]
    exact hwalk _ r hr hflow

end DurableFlow.Session
