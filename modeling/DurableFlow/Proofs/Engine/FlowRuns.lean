import DurableFlow.Proofs.Engine.RecordedInputs

/-! Runs of a flow. A context that is started, and then given exits to take, stands where the exits lead in
the graph, as long as the names of the nodes are kept. Only a store in memory keeps a name that is no text;
elsewhere the name is written out, and the text names no such node. -/
namespace DurableFlow

/-! ## Walks along names -/

namespace Flow.NodeIndex
variable {index : NodeIndex} {name u v choice : Json} {choices rest : List Json} {ended : Bool}

/-- Where exits lead that are taken one after another from the node of a name: the last name that is
reached, and whether the flow has ended there. None if there is no such node or no such exit. -/
def walk? (index : NodeIndex) (name : Json) : List Json → Option (Json × Bool)
  | [] =>
    match index.lookup? name with
    | .ok (some _) => some (name, false)
    | _ => none
  | choice :: rest =>
    match index.lookup? name with
    | .ok (some node) =>
      match node.destination choice with
      | .ok (some v) => index.walk? v rest
      | .ok none => if rest.isEmpty then some (name, true) else none
      | .error _ => none
    | _ => none

/-- The node of a name has a name that means the same. -/
theorem uuid_same_of_lookup? {node : Node} (h : index.lookup? name = .ok (some node)) :
    node.uuid.same name = true := by
  have hsame := List.find?_some (find?_of_lookup? h)
  exact hsame

def Passes (index : NodeIndex) (name : Json) (choices : List Json) (u : Json) : Prop :=
  ∃ taken choice rest, choices = taken ++ choice :: rest ∧ index.walk? name taken = some (u, false)

theorem walk?_nil : index.walk? name [] = some (v, ended) ↔
    (∃ node, index.lookup? name = .ok (some node)) ∧ v = name ∧ ended = false := by
  unfold walk?
  split
  · rename_i node hnode
    simp only [hnode, Option.some.injEq, Prod.mk.injEq, Except.ok.injEq, exists_eq', true_and]
    constructor
    · rintro ⟨rfl, rfl⟩
      exact ⟨rfl, rfl⟩
    · rintro ⟨rfl, rfl⟩
      exact ⟨rfl, rfl⟩
  · rename_i hnone
    simp only [reduceCtorEq, false_iff]
    rintro ⟨⟨node, hnode⟩, -⟩
    exact hnone node hnode

/-- The first exit of a walk ends the flow, or leads to where the rest of the walk begins. -/
theorem walk?_cons (h : index.walk? name (choice :: rest) = some (v, ended)) :
    ∃ node, index.lookup? name = .ok (some node) ∧
      (node.destination choice = .ok none ∧ rest = [] ∧ v = name ∧ ended = true ∨
        ∃ next, node.destination choice = .ok (some next) ∧
          index.walk? next rest = some (v, ended)) := by
  unfold walk? at h
  split at h
  · rename_i node hnode
    refine ⟨node, hnode, ?_⟩
    split at h
    · rename_i next hnext
      exact .inr ⟨next, hnext, h⟩
    · rename_i hend
      split at h
      · rename_i hempty
        cases h
        exact .inl ⟨hend, List.isEmpty_iff.mp hempty, rfl, rfl⟩
      · cases h
    · cases h
  · cases h

/-- A walk ends at a node. -/
theorem exists_of_walk? (h : index.walk? name choices = some (v, ended)) :
    ∃ node, index.lookup? v = .ok (some node) := by
  induction choices generalizing name with
  | nil =>
    obtain ⟨hnode, rfl, -⟩ := walk?_nil.mp h
    exact hnode
  | cons choice rest ih =>
    obtain ⟨node, hnode, ⟨-, -, rfl, -⟩ | ⟨next, -, hnext⟩⟩ := walk?_cons h
    · exact ⟨node, hnode⟩
    · exact ih hnext

theorem passes_first {node : Node} (hnode : index.lookup? name = .ok (some node)) :
    index.Passes name (choice :: rest) name :=
  ⟨[], choice, rest, rfl, walk?_nil.mpr ⟨⟨node, hnode⟩, rfl, rfl⟩⟩

theorem not_passes_nil : ¬ index.Passes name [] u := by
  rintro ⟨taken, choice, rest, happ, -⟩
  simp at happ

/-- Before its last exit a walk along one exit has not left the first name. -/
theorem Passes.eq_of_single (h : index.Passes name [choice] u) : u = name := by
  obtain ⟨taken, choice', rest, happ, hwalk⟩ := h
  obtain ⟨rfl, -⟩ | ⟨rest', rfl, hrest⟩ := List.cons_eq_append_iff.mp happ
  · exact (walk?_nil.mp hwalk).2.1
  · simp at hrest

theorem Passes.after {node : Node} {next : Json} (hnode : index.lookup? name = .ok (some node))
    (hnext : node.destination choice = .ok (some next)) (h : index.Passes next rest u) :
    index.Passes name (choice :: rest) u := by
  obtain ⟨taken, choice', rest', rfl, hwalk⟩ := h
  refine ⟨choice :: taken, choice', rest', rfl, ?_⟩
  simp only [walk?, hnode, hnext, hwalk]

end Flow.NodeIndex

namespace Store.Kind
variable {k : Kind} {v : Json}

def KeepsName (k : Kind) (v : Json) : Prop := k = .memory ∨ ∃ s, v = .string s

theorem KeepsName.node_eq (h : k.KeepsName v) : k.node v = v := by
  obtain rfl | ⟨s, rfl⟩ := h
  · rfl
  · exact k.node_string s

theorem KeepsName.accept (h : k.KeepsName v) : k.accept [.node v, .wakeup none] = .ok () := by
  obtain rfl | ⟨s, rfl⟩ := h
  · rfl
  · exact k.accept_of_wellTyped fun w hw => ⟨s, by simpa using hw⟩

/-- A name that is not kept becomes a text, and no node has both names. -/
theorem lookup?_node_ne {index : Flow.NodeIndex} {node : Flow.Node} (hk : ¬ k.KeepsName v)
    (h : index.lookup? v = .ok (some node)) : index.lookup? (k.node v) ≠ index.lookup? v := by
  obtain ⟨s, hs⟩ : ∃ s, k.node v = .string s := by
    cases k with
    | memory => exact absurd (.inl rfl) hk
    | rows => exact ⟨_, rfl⟩
    | keys => exact ⟨_, rfl⟩
  rw [hs, h]
  intro hsame
  have htext : node.uuid.same (.string s) = true := Flow.NodeIndex.uuid_same_of_lookup? hsame
  have huuid : node.uuid = .string s := by
    cases hu : node.uuid with
    | string t =>
      rw [hu, Flow.same_string] at htext
      exact htext.symm
    | _ => simp [hu, Json.same, Json.place?] at htext
  have hname := Flow.NodeIndex.uuid_same_of_lookup? h
  rw [huuid, Flow.same_string] at hname
  exact hk (.inr ⟨s, hname⟩)

end Store.Kind

namespace Engine
open DurableFlow.Action (Ensures)
open DurableFlow.Flow (Graph NodeIndex)
open Store (Acted Kind Newborn Roomy)
variable {e e' : Engine} {c r : Context} {i : String} {index : NodeIndex} {g : Graph} {entry : Flow.Node}
  {n : Int} {choice : Json} {choices : List Json}

/-! ## Starts -/

private theorem read_filed (k : Kind) {n : Int} (hc : c.contact = .int n) (hl : c.isLegible = true) :
    ∃ d, k.read (k.filed c) = .ok d := by
  have hread : (k.filed c).dated = .ok (k.filed c) :=
    Context.dated_of_isLegible (k.isLegible_filed hl)
  cases k with
  | memory => exact ⟨_, rfl⟩
  | rows => exact ⟨_, hread⟩
  | keys =>
    have hcontact : (Kind.keys.filed c).contact = .int n := hc
    simp only [Kind.read, hcontact]
    exact ⟨_, hread⟩

private theorem insert_unhindered (ho : e.others = []) (hf : e.faults = .none) (c : Context) :
    Ensures (Action.holding c insert) e (fun _ e' => e'.faults = .none ∧ e'.clock = e.clock)
      (fun _ _ => True) := by
  apply Ensures.holding
  apply Ensures.bind
  apply Ensures.beside
  refine Ensures.of_run (begin_unchanged ho hf .insert) ?_
  apply Ensures.bind
  apply Ensures.beside
  apply Ensures.bind
  apply Ensures.get
  refine Ensures.ofExcept (fun time _ => ?_) fun _ _ => trivial
  apply Ensures.bind
  apply Ensures.get
  cases hinsert : Store.insert (freshId (e.drawn + 1)) time ⟨e.store, c⟩ with
  | ok _ h =>
    simp only [hinsert]
    apply Ensures.bind
    apply Ensures.set
    apply Ensures.beside
    exact Ensures.modify ⟨hf, rfl⟩
  | error f h =>
    simp only [hinsert]
    apply Ensures.bind
    apply Ensures.set
    exact Ensures.throw trivial

private theorem start_opens (he : e.Ready) (hu : CanWrite e) (hp : Provides e (n : Identifier) g)
    (hid : g.id = some n) (hentry : g.entry? = some entry) (contact : Int) :
    Ensures (start g (.int contact) none) e
      (fun c e' => ∃ i r, c.id = some i ∧ Racing i g.index [] r e' ∧ e'.store.kind = e.store.kind ∧
        Newborn r ∧ r.node = e.store.kind.node entry.uuid)
      (fun f _ => f.isPlain = true) := by
  unfold start
  rw [hentry]
  apply Ensures.bind
  apply Ensures.bind
  apply Ensures.get
  obtain ⟨t, ht⟩ := hu.dated
  refine Ensures.ofExcept (fun time _ => ?_) fun f hf => by cases ht.symm.trans hf
  dsimp only
  apply Ensures.bind
  generalize hnew : Context.mk none (.int contact) _ _ _ _ _ _ _ _ _ _ _ = new
  have hinsert := (insert_ensures he (by rw [← hnew] : new.id = none)).and ((insert_spares new e).and
    (insert_unhindered he.alone hu.unfailing new))
  refine hinsert.mono ?_ fun _ _ h => h.2.1.2
  rintro ⟨_, c⟩ e₁ ⟨⟨he₁, i, stamp, -, hfiled, hc⟩, hspared, hfaults, hclock⟩
  dsimp only at hfiled hc
  have hnamed : c.id = some i := by
    rw [hc, ← hnew]
    rfl
  have hborn : Newborn (e.store.kind.filed c) := by
    rw [hc, ← hnew]
    exact newborn_filed _ _ _ _ rfl rfl rfl
  have hcontact : c.contact = .int contact := by
    rw [hc, ← hnew]
    rfl
  have hlegible : c.isLegible = true := by
    rw [hc, ← hnew]
    rfl
  have hflow : (e.store.kind.filed c).flow = n := by
    rw [hc, ← hnew]
    change g.id.getD 0 = n
    rw [hid]
    rfl
  have hnode : (e.store.kind.filed c).node = e.store.kind.node entry.uuid := by
    rw [hc, ← hnew]
    rfl
  have hprovides : Provides e₁ (n : Identifier) g :=
    (Provides.congr hspared.registry (hspared.flows he.alone)).mpr hp
  have hracing : Racing i g.index [] (e.store.kind.filed c) e₁ := by
    refine ⟨he₁, ⟨hfaults, hfiled.connected.trans hu.connected, t, hclock ▸ ht⟩, hfiled.row, ?_, g,
      hflow ▸ hprovides, rfl⟩
    rw [hfiled.kind]
    exact read_filed _ hcontact hlegible
  apply Ensures.bind
  apply Ensures.modify
  exact Ensures.pure ⟨i, _, hnamed, hracing.noted _, hfiled.kind, hborn, hnode⟩

theorem startFlow_opens (he : e.Ready) (hu : CanWrite e) (hp : Provides e (n : Identifier) g)
    (hid : g.id = some n) (hentry : g.entry? = some entry) (contact : Int) :
    Ensures (startFlow (n : Identifier) (.int contact)) e
      (fun c e' => ∃ i r, c.id = some i ∧ Racing i g.index [] r e' ∧ e'.store.kind = e.store.kind ∧
        Newborn r ∧ r.node = e.store.kind.node entry.uuid)
      (fun f _ => f.isPlain = true) := by
  unfold startFlow
  apply Ensures.bind
  have hfetch := (fetch_provides he.alone hu.unfailing (n : Identifier)).and
    ((fetch_yields (n : Identifier)).quietly e he.alone)
  refine hfetch.mono ?_ fun _ _ h => absurd hp (h.1.1 g)
  rintro found e₁ ⟨⟨hprovides, hcalm, hagain⟩, hquiet⟩
  cases hp.unique hprovides
  rw [← hcalm.store]
  exact start_opens (he.quiet hquiet) (hu.calm hcalm) hagain hid hentry contact

/-! ## Inputs -/

private theorem tryInput_advances (h : Racing i index [] r e) (ho : r.completed = none)
    (hw : r.wakeup = none) : Ensures (tryInput (some i) choice .null) e
      (fun result e' => ∀ c r', result = .ok c → e'.store.row? i = some r' →
        r'.version = r.version ∨ r'.version = r.version + 1)
      (fun _ _ => True) := by
  unfold tryInput
  apply Ensures.bind
  refine (load_races h).mono ?_ fun _ _ h => h.elim
  rintro _ e₁ ⟨rfl, h₁, -⟩
  apply Ensures.bind
  refine Ensures.ofExcept (fun _ _ => ?_) fun _ _ => trivial
  apply Ensures.bind
  apply Ensures.attempt
  apply Ensures.holding
  unfold take
  apply Ensures.bind
  apply Ensures.held
  have hawake : (r.copied e.store.kind index).isSuspended = false := by
    simp [Context.isSuspended, Context.status, Context.copied, ho, hw]
  dsimp only
  rw [if_neg (by rw [hawake]; exact Bool.false_ne_true)]
  apply Ensures.bind
  apply Ensures.pure
  refine Ensures.mono (advance_handles h₁.ready choice) ?_ ?_
  · rintro _ g ⟨-, hacted⟩
    refine Ensures.pure fun _ r' _ hr' => ?_
    obtain ⟨hsame, -⟩ | ⟨d, -, j, r₀, time, updated, hid, -, hch, -, -⟩ := hacted
    · rw [hsame, h₁.row] at hr'
      cases hr'
      exact .inl rfl
    · have hij : some j = some i := hid.symm.trans h.copy.2
      cases hij
      cases h₁.row.symm.trans hch.found
      rw [hch.row] at hr'
      cases hr'
      exact .inr rfl
  · rintro f g -
    cases f with
    | stale context expected actual => exact Ensures.pure fun _ _ hok => by cases hok
    | _ => exact Ensures.throw trivial

private theorem deliver_leads (h : Racing i index [] r e) (ho : r.completed = none)
    (hw : r.wakeup = none) (hb : Roomy e.store.kind r 2) {destination : Option Json}
    (hl : Leads (r.copied e.store.kind index) choice destination)
    (haccept : ∀ v, destination = some v → e.store.kind.accept [.node v, .wakeup none] = .ok ()) :
    Ensures (deliver (some i) choice .null) e
      (fun _ e' => ∃ r', Racing i index [] r' e' ∧ e'.store.kind = e.store.kind ∧ r'.wakeup = none ∧
        (r'.version = r.version ∨ r'.version = r.version + 1) ∧
        r'.node = (destination.map e.store.kind.node).getD r.node ∧
        r'.completed.isSome = destination.isNone)
      (fun _ _ => False) := by
  have hnew : recorded .null r.results = .ok r.results := rfl
  obtain ⟨x, y, hcourse, -, hrow⟩ := course_applies ho hl hnew haccept
  apply deliver_of_try
  refine ((tryInput_reaches choice .null h ho hb).and (tryInput_advances h ho hw)).mono ?_ ?_
  · rintro result e' ⟨hresult, hversion⟩
    cases result with
    | ok c =>
      obtain ⟨r', ⟨rest, hs, hr, hst⟩, hends⟩ := hresult
      cases hs.eq_zero.2
      cases hcourse.symm.trans hends
      obtain ⟨-, hwakeup, hnode, hended, -⟩ := hrow.of_timeless
      exact ⟨c, rfl, r', hr, hst.kind, hwakeup, hversion c r' rfl hr.row, hnode, hended⟩
    | error f =>
      -- no race is to come, and so none is lost
      obtain ⟨-, r', ⟨rest, hs, -, -⟩, -⟩ := hresult
      cases hs.eq_zero.1
  · rintro f e' ⟨⟨_, -, hends⟩, -⟩
    cases hcourse.symm.trans hends

private theorem deliver_dangles (h : Racing i index [] r e) (ho : r.completed = none)
    (hb : Roomy e.store.kind r 2) (hnode : index.lookup? r.node = .ok none) (choice : Json) :
    ∃ e', deliver (some i) choice .null e = .error (.dangling (some i) r.node) e' := by
  have hcheck : checkInput (r.copied e.store.kind index) choice = .ok () := by
    have hopen : (r.copied e.store.kind index).isCompleted = false := by
      simp [Context.isCompleted, Context.copied, ho]
    have hnode' : index.lookup? (r.copied e.store.kind index).node = .ok none := hnode
    unfold checkInput
    rw [hopen]
    dsimp only [Context.copied]
    rw [hnode]
    rfl
  have hnew : recorded .null r.results = .ok r.results := rfl
  have hstrays := course_strays hcheck hnode hnew
  have hconcludes := deliver_concludes h ho hb choice .null
  cases hdone : deliver (some i) choice .null e with
  | ok c e' =>
    obtain ⟨r', -, hends⟩ := hconcludes.of_eq_ok hdone
    cases (congrArg Course.answer hends).symm.trans hstrays
  | error f e' =>
    obtain ⟨r', -, hends⟩ := hconcludes.of_eq_error hdone
    have hf := (congrArg Course.answer hends).symm.trans hstrays
    rw [h.copy.2] at hf
    cases hf
    exact ⟨e', rfl⟩

/-! ## Runs -/

def deliverAll (id : Option String) : List Json → Run Unit
  | [] => return ()
  | choice :: rest => do
    let _ ← deliver id choice .null
    deliverAll id rest

private theorem deliverAll_walks {d : Flow.Definition} {document : Json} {name v : Json} {ended : Bool}
    (hg : Flow.compile d document = .ok g) (h : Racing i g.index [] r e) (ho : r.completed = none)
    (hw : r.wakeup = none) (hnode : r.node = e.store.kind.node name)
    (hb : Roomy e.store.kind r (choices.length + 2))
    (hwalk : g.index.walk? name choices = some (v, ended))
    (hkept : ∀ u, g.index.Passes name choices u → e.store.kind.KeepsName u)
    (haccept : e.store.kind.accept [.node v, .wakeup none] = .ok ()) :
    Ensures (deliverAll (some i) choices) e
      (fun _ e' => ∃ r', Racing i g.index [] r' e' ∧ e'.store.kind = e.store.kind ∧
        r'.node = e.store.kind.node v ∧ r'.completed.isSome = ended ∧
        (ended = true → e.store.kind.KeepsName v) ∧ Roomy e.store.kind r' 2)
      (fun _ _ => False) := by
  induction choices generalizing e r name with
  | nil =>
    obtain ⟨-, rfl, rfl⟩ := NodeIndex.walk?_nil.mp hwalk
    exact Ensures.pure ⟨r, h, rfl, hnode, by rw [ho]; rfl, nofun, hb⟩
  | cons choice rest ih =>
    obtain ⟨node, hfound, hleads⟩ := NodeIndex.walk?_cons hwalk
    have hname : e.store.kind.KeepsName name := hkept name (NodeIndex.passes_first hfound)
    have hstands : r.node = name := hnode.trans hname.node_eq
    have hfirst : g.index.lookup? (r.copied e.store.kind g.index).node = .ok (some node) := by
      rw [← hfound, ← hstands]
      rfl
    have hroom : Roomy e.store.kind r 2 := hb.mono (Int.le_refl _) (by simp; omega)
    unfold deliverAll
    apply Ensures.bind
    obtain ⟨hend, rfl, rfl, rfl⟩ | ⟨next, hnext, hwalk'⟩ := hleads
    · have hl : Leads (r.copied e.store.kind g.index) choice none :=
        ⟨g.index, node, rfl, hfirst, hend, fun _ hv => by cases hv⟩
      refine (deliver_leads h ho hw hroom hl fun _ hv => by cases hv).mono ?_ fun _ _ h => h
      rintro _ e₁ ⟨r₁, h₁, hk, -, hversion, hnode₁, hended₁⟩
      refine Ensures.pure ⟨r₁, h₁, hk, hnode₁.trans hnode, hended₁, fun _ => hname, ?_⟩
      exact hb.mono (by omega) (by simp; omega)
    · have hl : Leads (r.copied e.store.kind g.index) choice (some next) := by
        refine ⟨g.index, node, rfl, hfirst, hnext, ?_⟩
        rintro _ ⟨⟩
        exact Flow.compile_next hg hfound hnext
      have haccept' : e.store.kind.accept [.node next, .wakeup none] = .ok () := by
        cases rest with
        | nil =>
          obtain ⟨-, rfl, -⟩ := NodeIndex.walk?_nil.mp hwalk'
          exact haccept
        | cons _ _ =>
          obtain ⟨_, hthere, -⟩ := NodeIndex.walk?_cons hwalk'
          exact (hkept next ((NodeIndex.passes_first hthere).after hfound hnext)).accept
      refine (deliver_leads h ho hw hroom hl fun _ hv => Option.some.inj hv ▸ haccept').mono ?_
        fun _ _ h => h
      rintro _ e₁ ⟨r₁, h₁, hk, hw₁, hversion, hnode₁, hended₁⟩
      have ho₁ : r₁.completed = none := by simpa using hended₁
      rw [← hk] at hb hkept haccept hnode₁ ⊢
      exact ih h₁ ho₁ hw₁ hnode₁ (hb.mono (by omega) (by simp; omega)) hwalk'
        (fun u hu => hkept u (hu.after hfound hnext)) haccept

/-- A flow in force runs in every kind of store, as long as its contexts stand on names that are kept. A start
never tells of a dangling context. A context that has been started, and then given any exits that can be
taken, if exits were taken from kept names only, can be loaded with the nodes of the flow, and has ended if
the walk has. If the name that the walk comes to is kept as well, then the context stands on it, whatever the
store, and it has a node. If it is not kept but accepted, the context stands on no node or on another one,
and on no node every further input fails. -/
theorem run_follows_kept_names {d : Flow.Definition} {body : List (String × Json)} (he : e.Ready)
    (hu : CanWrite e) (hg : Flow.compile d (.object body) = .ok g) (hid : g.id = some n)
    (hp : Provides e (n : Identifier) g) (hentry : g.entry? = some entry) (contact : Int) :
    (∀ f e', startFlow (n : Identifier) (.int contact) e = .error f e' → ∀ j name, f ≠ .dangling j name) ∧
    ∀ c e₀, startFlow (n : Identifier) (.int contact) e = .ok c e₀ → ∃ i, c.id = some i ∧
      ∀ choices v ended, g.index.walk? entry.uuid choices = some (v, ended) →
        (∀ u, g.index.Passes entry.uuid choices u → e.store.kind.KeepsName u) →
        e.store.kind.accept [.node v, .wakeup none] = .ok () →
        (e.store.kind = .rows → choices.length + 3 ≤ Store.Rows.largest) →
        ∃ e' c', deliverAll (some i) choices e₀ = .ok () e' ∧ LoadsAs e' i c' ∧
          c'.index = some g.index ∧ c'.completed.isSome = ended ∧
          (e.store.kind.KeepsName v →
            c'.node = v ∧ ∃ node, g.index.lookup? c'.node = .ok (some node)) ∧
          (¬ e.store.kind.KeepsName v → g.index.lookup? c'.node ≠ g.index.lookup? v ∧
            (g.index.lookup? c'.node = .ok none → ∀ choice, ∃ e'',
              deliver (some i) choice .null e' = .error (.dangling (some i) c'.node) e'')) := by
  have hopens := startFlow_opens he hu hp hid hentry contact
  constructor
  · rintro _ e' hfails j name rfl
    cases hopens.of_eq_error hfails
  · intro c e₀ hstarted
    obtain ⟨i, r, hi, h, hk, hborn, hnode⟩ := hopens.of_eq_ok hstarted
    refine ⟨i, hi, ?_⟩
    intro choices v ended hwalk hkept haccept hroom
    rw [← hk] at hkept haccept hroom hnode ⊢
    have hb : Roomy e₀.store.kind r (choices.length + 2) := by
      intro hrows
      have hlength := hroom hrows
      have hpos : 0 ≤ Store.Rows.largest := by decide
      rw [hborn.version]
      omega
    have hruns := deliverAll_walks hg h hborn.completed hborn.wakeup hnode hb hwalk hkept haccept
    cases hdone : deliverAll (some i) choices e₀ with
    | error f e' => exact (hruns.of_eq_error hdone).elim
    | ok _ e' =>
      obtain ⟨r', h', hk', hnode', hended, hlast, hb'⟩ := hruns.of_eq_ok hdone
      have hstands : (r'.copied e'.store.kind g.index).node = e₀.store.kind.node v := hnode'
      refine ⟨e', r'.copied e'.store.kind g.index, rfl, h'.copy.1, rfl, hended, ?_, ?_⟩
      · intro hkeeps
        rw [hstands, hkeeps.node_eq]
        exact ⟨rfl, NodeIndex.exists_of_walk? hwalk⟩
      · intro hloses
        obtain ⟨node, hfound⟩ := NodeIndex.exists_of_walk? hwalk
        rw [hstands]
        refine ⟨Kind.lookup?_node_ne hloses hfound, fun hnone choice => ?_⟩
        rw [← hk'] at hb'
        have ho : r'.completed = none := by
          cases hcompleted : r'.completed with
          | none => rfl
          | some t =>
            rw [hcompleted] at hended
            exact absurd (hlast hended.symm) hloses
        rw [← hnode'] at hnone ⊢
        exact deliver_dangles h' ho hb' hnone choice

/-! ## A node with a number for a name -/

private def numbered : List (String × Json) :=
  [("nodes", .array [
    .object [("uuid", .string "n1"), ("exits", .array [
      .object [("uuid", .string "e1"), ("destination_uuid", .int 5)]])],
    .object [("uuid", .int 5), ("exits", .array [.object [("uuid", .string "e2")]])]])]

private def numberedNodes : List Flow.Node :=
  [⟨.string "n1", [], [⟨.string "e1", some (.int 5)⟩], none⟩, ⟨.int 5, [], [⟨.string "e2", none⟩], none⟩]

private def numberedRow : Store.FlowRow := ⟨1, "flow", "greet", "Greeting", "eng", .message, "1"⟩

private def numberedGraph : Graph := Flow.graphOf numberedRow.definition numbered numberedNodes [] []

private theorem compile_numbered (revisions : List Flow.Revision) :
    Flow.compile { numberedRow.definition with revisions } (.object numbered) = .ok numberedGraph := by
  refine Flow.compile_eq_ok.mpr ⟨numbered, _, numberedNodes, [], [], rfl, rfl, ?_, ?_, rfl, rfl⟩
  · change Flow.readNodes (.malformed (some 1)) 0 [] [] _ = _
    rfl
  · change ∀ node ∈ _, ∀ exit ∈ _, Flow.checkExit (.malformed (some 1)) _ _ _ = _
    decide

private def openedOver (store : Store) : Engine := .ofStore store ⟨.int 3, .int 5, .int 200, .int 2⟩ (.int 10) 0

private def inRows : Store.Rows :=
  ⟨none, true, 1, [numberedRow], [⟨1, 0, ⟨.object numbered, .published, 0⟩⟩], []⟩

private def inMemory : Store.Memory :=
  ⟨[(1, numberedRow.definition)], [(1, [⟨1, 0, .object numbered, .published, .utc 0, 0⟩])], [], 2, 1⟩

private theorem provides_inRows : Provides (openedOver (.rows inRows)) (1 : Int) numberedGraph :=
  ⟨_, _, numbered, rfl, rfl, rfl, compile_numbered _⟩

private theorem provides_inMemory : Provides (openedOver (.memory inMemory)) (1 : Int) numberedGraph :=
  ⟨_, _, numbered, rfl, rfl, rfl, compile_numbered _⟩

/-- In tables a context of the flow can be loaded after the start and after the first exit. It stands on the
first node at first; after the exit it stands on no node, and cannot go on. -/
theorem run_follows_kept_names_numbered :
    let e := openedOver (.rows inRows)
    e.Ready ∧ CanWrite e ∧ Provides e (1 : Int) numberedGraph ∧
      ∃ c e₀ i, startFlow (1 : Int) (.int 7) e = .ok c e₀ ∧ c.id = some i ∧
        (∃ c', LoadsAs e₀ i c' ∧ c'.node = .string "n1") ∧
        ∃ e' c', deliverAll (some i) [.int 0] e₀ = .ok () e' ∧ LoadsAs e' i c' ∧
          numberedGraph.index.lookup? c'.node ≠ numberedGraph.index.lookup? (.int 5) := by
  intro e
  have hready : e.Ready := ⟨rfl, rfl, ⟨List.nodup_nil⟩, fun i r hr => by cases hr⟩
  have hu : CanWrite e := ⟨rfl, rfl, _, rfl⟩
  refine ⟨hready, hu, provides_inRows, ?_⟩
  obtain ⟨-, hruns⟩ := run_follows_kept_names hready hu (compile_numbered []) rfl provides_inRows rfl 7
  have hstarts : (match startFlow (1 : Int) (.int 7) e with
      | .ok _ _ => true
      | .error _ _ => false) = true := by decide +kernel
  cases hstarted : startFlow (1 : Int) (.int 7) e with
  | error f e' =>
    rw [hstarted] at hstarts
    cases hstarts
  | ok c e₀ =>
    obtain ⟨i, hi, hwalks⟩ := hruns c e₀ hstarted
    have hlast : (2 : Int) + 3 ≤ Store.Rows.largest := by decide
    obtain ⟨e₁, c₁, hnone, hloads, -, -, hstands, -⟩ := hwalks [] (.string "n1") false rfl
      (fun u hu => absurd hu NodeIndex.not_passes_nil) rfl (fun _ => by simp; omega)
    cases hnone
    obtain ⟨e₂, c₂, hdone, hloads₂, -, -, -, hlost⟩ := hwalks [.int 0] (.int 5) false rfl
      (fun u hu => .inr ⟨_, hu.eq_of_single⟩) rfl (fun _ => by simp; omega)
    refine ⟨c, e₀, i, rfl, hi, ⟨c₁, hloads, (hstands (.inr ⟨_, rfl⟩)).1⟩, e₂, c₂, hdone, hloads₂, ?_⟩
    exact (hlost (by rintro (hk | ⟨s, hs⟩) <;> cases ‹_›)).1

private def run (choices : List Json) : Run Context := do
  let c ← startFlow (1 : Int) (.int 7)
  deliverAll c.id choices
  load c.id

/-- Both exits can be taken, and in memory they lead to the end of the flow. In tables the context is told to
dangle, at a name that the flow does not have. -/
theorem numbered_node_is_lost :
    let choices := [Json.int 0, .int 0]
    numberedGraph.index.walk? (.string "n1") choices = some (.int 5, true) ∧
      Provides (openedOver (.rows inRows)) (1 : Int) numberedGraph ∧
      Provides (openedOver (.memory inMemory)) (1 : Int) numberedGraph ∧
      Outcome.answer (run choices (openedOver (.rows inRows))) =
        .error (.dangling (some (freshId 1)) (.string "5")) ∧
      ∃ c, Outcome.answer (run choices (openedOver (.memory inMemory))) = .ok c ∧
        c.node = .int 5 ∧ c.completed.isSome := by
  intro choices
  refine ⟨rfl, provides_inRows, provides_inMemory, by decide +kernel, ?_⟩
  have hends : (Outcome.answer (run choices (openedOver (.memory inMemory)))).map
      (fun c => (c.node, c.completed.isSome)) = .ok (.int 5, true) := by decide +kernel
  cases hanswer : Outcome.answer (run choices (openedOver (.memory inMemory))) with
  | error f =>
    rw [hanswer] at hends
    cases hends
  | ok c =>
    rw [hanswer] at hends
    obtain ⟨hnode, hended⟩ := Prod.mk.inj (Except.ok.inj hends)
    exact ⟨c, rfl, hnode, hended⟩

end Engine
end DurableFlow
