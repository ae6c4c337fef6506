import Mathlib.Data.List.Nodup
import DurableFlow.Proofs.Flow.WellFormedDocuments

/-! The graphs that are accepted. Among the documents whose parts are of the kinds an author can give
them, exactly the well-drawn graphs are compiled, and the index of a compiled flow lists the nodes of
the document: each once, at its place. -/
namespace DurableFlow.Flow
open Authored (member)
open Store (bind_eq_ok)

/-! ## Documents -/

def Authored.actions (node : Json) : List Json := (member "actions" node).items?.getD []

def MayList (v : Json) : Prop := v = .null ∨ ∃ items, v = .array items

def MayHold (v : Json) : Prop := v = .null ∨ ∃ members, v = .object members

def MaySay (v : Json) : Prop := v = .null ∨ ∃ s, v = .string s

def Says (v : Json) : Prop := ∃ s, v = .string s ∧ s ≠ ""

/-- A document whose lists, names and texts are of the kinds that an author can give them. -/
structure Typed (document : Json) : Prop where
  names : ∀ n ∈ Authored.nodes document, MaySay (member "uuid" n)
  actions : ∀ n ∈ Authored.nodes document, MayList (member "actions" n)
  exits : ∀ n ∈ Authored.nodes document, MayList (member "exits" n)
  cases : ∀ n ∈ Authored.nodes document, MayList (member "cases" (member "router" n))
  categories : ∀ n ∈ Authored.nodes document, MayList (member "categories" (member "router" n))
  exitNames : ∀ n ∈ Authored.nodes document, ∀ x ∈ Authored.exits n, MaySay (member "uuid" x)
  destinations : ∀ n ∈ Authored.nodes document, ∀ x ∈ Authored.exits n,
    MaySay (member "destination_uuid" x)
  localization : MayHold (member "localization" document)

/-- A document that draws a graph: named nodes, no two of one name, and exits that lead to nodes. -/
structure IsGraph (document : Json) : Prop where
  object : ∃ members, document = .object members
  listed : ∃ values, member "nodes" document = .array values
  nodes : ∀ n ∈ Authored.nodes document, ∃ members, n = .object members
  names : ∀ n ∈ Authored.nodes document, Says (member "uuid" n)
  distinct : ((Authored.nodes document).map (member "uuid")).Nodup
  actions : ∀ n ∈ Authored.nodes document, ∀ a ∈ Authored.actions n, ∃ members, a = .object members
  exits : ∀ n ∈ Authored.nodes document, ∀ x ∈ Authored.exits n, ∃ members, x = .object members
  exitNames : ∀ n ∈ Authored.nodes document, ∀ x ∈ Authored.exits n, Says (member "uuid" x)
  routers : ∀ n ∈ Authored.nodes document, MayHold (member "router" n)
  destinations : ∀ n ∈ Authored.nodes document, ∀ x ∈ Authored.exits n,
    Says (member "destination_uuid" x) →
      member "destination_uuid" x ∈ (Authored.nodes document).map (member "uuid")

/-! ## Typed documents -/

section
variable {v : Json} {document : Json}

private theorem members?_isSome : v.members?.isSome = true ↔ ∃ members, v = .object members := by
  cases v <;> simp [Json.members?]

private theorem items?_isSome : v.items?.isSome = true ↔ ∃ items, v = .array items := by
  cases v <;> simp [Json.items?]

private theorem MaySay.isGiven_iff (h : MaySay v) : v.isGiven = true ↔ Says v := by
  obtain rfl | ⟨s, rfl⟩ := h
  · simp [Json.isGiven, Says]
  · simp [Json.isGiven, Says]

private theorem Says.isKey (h : Says v) : v.isKey = true := by
  obtain ⟨s, rfl, _⟩ := h
  rfl

private theorem Says.same_iff (h : Says v) {w : Json} : v.same w = true ↔ v = w := by
  obtain ⟨s, rfl, _⟩ := h
  rw [same_string, eq_comm]

private theorem MayList.listable (h : MayList v) : Listable v := by
  obtain rfl | ⟨items, rfl⟩ := h
  · intro hgiven
    cases hgiven
  · exact fun _ => rfl

private theorem MayList.listsObjects_iff (h : MayList v) :
    ListsObjects v ↔ ∀ x ∈ v.items?.getD [], ∃ members, x = .object members := by
  obtain rfl | ⟨items, rfl⟩ := h
  · simp [ListsObjects, Json.isGiven, Json.items?]
  · simp only [ListsObjects, Json.items?, Option.getD_some, members?_isSome]
    constructor
    · intro hlist x hx
      have hgiven : (Json.array items).isGiven = true := by
        cases items with
        | nil => cases hx
        | cons y rest => rfl
      obtain ⟨_, heq, hall⟩ := hlist hgiven
      cases heq
      exact hall x hx
    · intro hall _
      exact ⟨items, rfl, hall⟩

private theorem MayHold.of_given (h : MayHold v) (hgiven : v.isGiven = true) :
    v.members?.isSome = true := by
  obtain rfl | hobject := h
  · cases hgiven
  · exact members?_isSome.mpr hobject

private theorem Typed.legible (h : Typed document) (hobject : ∃ members, document = .object members) :
    Legible document where
  object := members?_isSome.mpr hobject
  names n hn hgiven := ((h.names n hn).isGiven_iff.mp hgiven).isKey
  actions n hn := (h.actions n hn).listable
  exits n hn := (h.exits n hn).listable
  cases n hn := (h.cases n hn).listable
  categories n hn := (h.categories n hn).listable
  destinations n hn x hx hgiven := ((h.destinations n hn x hx).isGiven_iff.mp hgiven).isKey
  localization := h.localization.of_given

private theorem Typed.wellFormedNode_iff (h : Typed document) {n : Json}
    (hn : n ∈ Authored.nodes document) : WellFormedNode n ↔
      (∃ members, n = .object members) ∧ Says (member "uuid" n) ∧
      (∀ a ∈ Authored.actions n, ∃ members, a = .object members) ∧
      (∀ x ∈ Authored.exits n, ∃ members, x = .object members) ∧
      (∀ x ∈ Authored.exits n, Says (member "uuid" x)) ∧ MayHold (member "router" n) := by
  constructor
  · intro hw
    exact ⟨members?_isSome.mp hw.object, (h.names n hn).isGiven_iff.mp hw.given,
      (h.actions n hn).listsObjects_iff.mp hw.actions, (h.exits n hn).listsObjects_iff.mp hw.exits,
      fun x hx => (h.exitNames n hn x hx).isGiven_iff.mp (hw.exitNames x hx),
      hw.router.imp_right members?_isSome.mp⟩
  · rintro ⟨hobject, hname, hactions, hexits, hexitNames, hrouter⟩
    exact ⟨members?_isSome.mpr hobject, (h.names n hn).isGiven_iff.mpr hname, hname.isKey,
      (h.actions n hn).listsObjects_iff.mpr hactions, (h.exits n hn).listsObjects_iff.mpr hexits,
      fun x hx => (h.exitNames n hn x hx).isGiven_iff.mpr (hexitNames x hx),
      hrouter.imp_right members?_isSome.mpr, (h.cases n hn).listable, (h.categories n hn).listable⟩

private theorem Typed.wellFormed_iff (h : Typed document) : WellFormed document ↔ IsGraph document := by
  constructor
  · intro hw
    have hnodes (n : Json) (hn : n ∈ Authored.nodes document) :=
      (h.wellFormedNode_iff hn).mp (hw.nodes n hn)
    have hnames (n : Json) (hn : n ∈ Authored.nodes document) : Says (member "uuid" n) :=
      (hnodes n hn).2.1
    refine ⟨members?_isSome.mp hw.legible.object, items?_isSome.mp hw.listed,
      fun n hn => (hnodes n hn).1, hnames, ?_, fun n hn => (hnodes n hn).2.2.1,
      fun n hn => (hnodes n hn).2.2.2.1, fun n hn => (hnodes n hn).2.2.2.2.1,
      fun n hn => (hnodes n hn).2.2.2.2.2, ?_⟩
    · refine List.pairwise_map.mpr (hw.distinct.imp_of_mem fun {n m} hn _ hother heq => ?_)
      rw [(hnames n hn).same_iff.mpr heq] at hother
      cases hother
    · intro n hn x hx htold
      obtain ⟨_, m, hm, hsame⟩ := hw.destinations n hn x hx
        ((h.destinations n hn x hx).isGiven_iff.mpr htold)
      exact List.mem_map.mpr ⟨m, hm, (hnames m hm).same_iff.mp hsame⟩
  · intro hg
    refine ⟨items?_isSome.mpr hg.listed, fun n hn => (h.wellFormedNode_iff hn).mpr
      ⟨hg.nodes n hn, hg.names n hn, hg.actions n hn, hg.exits n hn, hg.exitNames n hn,
        hg.routers n hn⟩, ?_, ?_, h.localization.of_given⟩
    · refine (List.pairwise_map.mp hg.distinct).imp_of_mem fun {n m} hn _ hother => ?_
      exact Bool.eq_false_iff.mpr fun hsame => hother ((hg.names n hn).same_iff.mp hsame)
    · intro n hn x hx hgiven
      have htold := (h.destinations n hn x hx).isGiven_iff.mp hgiven
      obtain ⟨m, hm, heq⟩ := List.mem_map.mp (hg.destinations n hn x hx htold)
      exact ⟨htold.isKey, m, hm, (hg.names m hm).same_iff.mpr heq⟩

end

/-! ## The nodes of a document -/

def RendersAction (a : Json) (action : Action) : Prop :=
  ∃ members, a = .object members ∧ action.uuid = givenOr (.string "") "uuid" members ∧
    action.type = givenOr (.string "") "type" members ∧
    action.attributes = members.filter fun m => m.1 ≠ "uuid" && m.1 ≠ "type"

structure RendersExit (x : Json) (exit : Exit) : Prop where
  uuid : exit.uuid = member "uuid" x
  destination : DrawsExit x exit

/-- A node as the document has it, with its actions and its exits in their order. -/
structure Renders (n : Json) (node : Node) : Prop where
  uuid : node.uuid = member "uuid" n
  actions : List.Forall₂ RendersAction (Authored.actions n) node.actions
  exits : List.Forall₂ RendersExit (Authored.exits n) node.exits
  router : member "router" n = node.router.elim .null .object

section
variable {fail : DocumentFault → Failure}

private theorem readAction_renders {node a : Json} {action : Action}
    (h : readAction fail node a = .ok action) : RendersAction a action := by
  unfold readAction at h
  split at h
  · rename_i members
    cases h
    exact ⟨members, rfl, rfl, rfl, rfl⟩
  · cases h

private theorem readExit_renders {node x : Json} {exit : Exit}
    (h : readExit fail node x = .ok exit) :
    (∃ members, x = .object members) ∧ RendersExit x exit := by
  unfold readExit at h
  split at h
  · rename_i members
    dsimp only at h
    split at h
    · cases h
      exact ⟨⟨members, rfl⟩, rfl, rfl⟩
    · cases h
  · cases h

private theorem readNode_renders {position : Nat} {n : Json} {node : Node}
    (h : readNode fail position n = .ok node) : Renders n node := by
  obtain ⟨_, _, raws, actions, xs, exits, router, hraws, hactions, hxs, hexits, hrouter, rfl⟩ :=
    readNode_eq_ok.mp h
  have hrenders := (forall₂_of_mapM hactions).imp fun _ _ ha => readAction_renders ha
  have hobjects (a : Json) (ha : a ∈ raws) : ∃ members, a = .object members := by
    obtain ⟨_, _, members, heq, _⟩ := exists_of_mem hrenders.flip ha
    exact ⟨members, heq⟩
  have hall := (forall₂_of_mapM hexits).imp fun _ _ hx => readExit_renders hx
  obtain ⟨hexitObjects, hexitRenders⟩ := (List.forall₂_and_left _ _).mp hall
  have hactionItems : Authored.actions n = raws := items_of_elements hraws hobjects
  have hexitItems : Authored.exits n = xs := items_of_elements hxs hexitObjects
  exact ⟨rfl, hactionItems ▸ hrenders, hexitItems ▸ hexitRenders, hrouter⟩

end

/-! ## The index of a compiled flow -/

/-- The places of the nodes, entered under their names in authoring order. A name that came before
would take the later place. -/
def NodeIndex.places (i : NodeIndex) : Keyed Nat :=
  i.nodes.zipIdx.foldl (fun places entry => Keyed.put entry.1.uuid entry.2 places) []

/-- A compiled flow that shows its document: the nodes with all their parts, an index that holds each
of them once and at its place, and exits that lead into the index and nowhere else. -/
structure Faithful (document : Json) (g : Graph) : Prop where
  nodes : List.Forall₂ Renders (Authored.nodes document) g.index.nodes
  size : g.index.size = g.index.places.length
  places : g.index.places = ((Authored.nodes document).map (member "uuid")).zipIdx
  position : ∀ u k, g.index.position u = .ok k ↔
    ((Authored.nodes document).map (member "uuid"))[k]? = some u
  get : ∀ u node, g.index.get u = .ok node ↔
    ∃ k, g.index.position u = .ok k ∧ g.index.nodes[k]? = some node
  follows : ∀ node ∈ g.index.nodes, ∀ i : Int, 0 ≤ i → i < node.exits.length →
    ∃ next, node.destination (.int i) = .ok next ∧ ∀ u, next = some u → u ∈ g.index.places.map Prod.fst
  refuses : ∀ node ∈ g.index.nodes, ∀ i : Int, i < 0 ∨ node.exits.length ≤ i →
    node.destination (.int i) = .error (.noSuchExit node.uuid (.int i) node.exits.length)

section
variable {α : Type} {index : NodeIndex} {u : Json} {k : Nat} {node : Node}

private theorem Keyed.put_eq_append {key : Json} {value : α} {table : Keyed α}
    (h : ∀ e ∈ table, e.1.same key = false) : Keyed.put key value table = table ++ [(key, value)] := by
  induction table with
  | nil => rfl
  | cons e rest ih =>
    obtain ⟨hfirst, hrest⟩ := List.forall_mem_cons.mp h
    rw [Keyed.put, if_neg (by simp [hfirst]), ih hrest, List.cons_append]

private theorem places_eq (h : index.nodes.Pairwise fun a b => a.uuid.same b.uuid = false) :
    index.places = (index.nodes.map Node.uuid).zipIdx := by
  suffices hrun : ∀ (nodes : List Node) (table : Keyed Nat) (k : Nat),
      (nodes.Pairwise fun a b => a.uuid.same b.uuid = false) →
      (∀ e ∈ table, ∀ n ∈ nodes, e.1.same n.uuid = false) →
      (nodes.zipIdx k).foldl (fun places entry => Keyed.put entry.1.uuid entry.2 places) table =
        table ++ (nodes.map Node.uuid).zipIdx k from hrun index.nodes [] 0 h (fun _ he => by cases he)
  intro nodes
  induction nodes with
  | nil => intro table k _ _; simp
  | cons n rest ih =>
    intro table k hdistinct hfresh
    obtain ⟨hfirst, hrest⟩ := List.pairwise_cons.mp hdistinct
    have hput : Keyed.put n.uuid k table = table ++ [(n.uuid, k)] :=
      Keyed.put_eq_append fun e he => hfresh e he n List.mem_cons_self
    rw [List.zipIdx_cons, List.foldl_cons, hput, ih _ _ hrest, List.map_cons, List.zipIdx_cons,
      List.append_assoc, List.singleton_append]
    intro e he m hm
    rcases List.mem_append.mp he with hold | hnew
    · exact hfresh e hold m (List.mem_cons_of_mem _ hm)
    · rw [List.mem_singleton.mp hnew]
      exact hfirst m hm

private theorem position_eq_ok (hnames : ∀ n ∈ index.nodes, Says n.uuid)
    (hdistinct : (index.nodes.map Node.uuid).Nodup) :
    index.position u = .ok k ↔ (index.nodes.map Node.uuid)[k]? = some u := by
  have hsame (n : Node) (hn : n ∈ index.nodes) : n.uuid.same u = true ↔ n.uuid = u :=
    (hnames n hn).same_iff
  have hfound : index.nodes.findIdx? (·.uuid.same u) = some k ↔
      (index.nodes.map Node.uuid)[k]? = some u := by
    rw [List.findIdx?_eq_some_iff_getElem, List.getElem?_map, Option.map_eq_some_iff]
    constructor
    · rintro ⟨hk, hat, _⟩
      exact ⟨index.nodes[k], List.getElem?_eq_getElem hk, (hsame _ (List.getElem_mem hk)).mp hat⟩
    · rintro ⟨n, hn, rfl⟩
      obtain ⟨hk, rfl⟩ := List.getElem?_eq_some_iff.mp hn
      refine ⟨hk, (hsame _ (List.getElem_mem hk)).mpr rfl, ?_⟩
      intro j hj hat
      have heq := (hsame _ (List.getElem_mem (Nat.lt_trans hj hk))).mp hat
      have hbelow : j < (index.nodes.map Node.uuid).length := by simpa using Nat.lt_trans hj hk
      have hwithin : k < (index.nodes.map Node.uuid).length := by simpa using hk
      have hplace : (index.nodes.map Node.uuid)[j] = (index.nodes.map Node.uuid)[k] := by
        simpa using heq
      exact absurd ((List.Nodup.getElem_inj_iff hdistinct).mp hplace) (Nat.ne_of_lt hj)
  rw [← hfound]
  unfold NodeIndex.position
  split
  · cases index.nodes.findIdx? (·.uuid.same u) <;> simp
  · rename_i hkey
    simp only [reduceCtorEq, false_iff]
    intro h
    obtain ⟨n, hn, rfl⟩ := List.mem_map.mp (List.mem_of_getElem? (hfound.mp h))
    exact hkey (hnames n hn).isKey

private theorem get_eq_ok : index.get u = .ok node ↔
    ∃ k, index.position u = .ok k ∧ index.nodes[k]? = some node := by
  unfold NodeIndex.get NodeIndex.lookup? NodeIndex.position NodeIndex.find?
  rw [List.find?_eq_bind_findIdx?_getElem?]
  split
  · cases hplace : index.nodes.findIdx? (·.uuid.same u) with
    | none => simp [bind, Except.bind, throw, throwThe, MonadExceptOf.throw]
    | some k =>
      obtain ⟨hk, _⟩ := List.findIdx?_eq_some_iff_getElem.mp hplace
      simp [bind, Except.bind, pure, Except.pure, List.getElem?_eq_getElem hk]
  · simp [bind, Except.bind]

private theorem destination_of_lt {i : Int} (hi : 0 ≤ i) {exit : Exit}
    (hexit : node.exits[i.toNat]? = some exit) :
    node.destination (.int i) = .ok exit.destination := by
  have hat : node.exitAt (.int i) = .ok exit := by
    simp [Node.exitAt, Int.not_lt.mpr hi, hexit]
  rw [Node.destination, hat]
  rfl

private theorem destination_of_ge {i : Int} (hi : i < 0 ∨ node.exits.length ≤ i) :
    node.destination (.int i) = .error (.noSuchExit node.uuid (.int i) node.exits.length) := by
  have hat : node.exitAt (.int i) = .error (.noSuchExit node.uuid (.int i) node.exits.length) := by
    unfold Node.exitAt
    dsimp only
    split
    · rfl
    · rw [List.getElem?_eq_none (by omega)]
  rw [Node.destination, hat]
  rfl

end

/-! ## What is accepted -/

section
variable {d : Definition} {document : Json} {g : Graph}

private theorem IsGraph.faithful (hg : IsGraph document) (h : compile d document = .ok g) :
    Faithful document g := by
  have hrenders : List.Forall₂ Renders (Authored.nodes document) g.index.nodes :=
    (compile_reads h).imp fun _ _ ⟨_, hnode⟩ => readNode_renders hnode
  have hnames : g.index.nodes.map Node.uuid = (Authored.nodes document).map (member "uuid") := by
    rw [← List.forall₂_eq_eq_eq, List.forall₂_map_left_iff, List.forall₂_map_right_iff]
    exact hrenders.flip.imp fun node n hrendered => hrendered.uuid
  have htold : ∀ n ∈ g.index.nodes, Says n.uuid := by
    intro node hnode
    obtain ⟨n, hn, hrendered⟩ := exists_of_mem hrenders hnode
    exact hrendered.uuid ▸ hg.names n hn
  have hdistinct : (g.index.nodes.map Node.uuid).Nodup := hnames ▸ hg.distinct
  have hplaces : g.index.places = (g.index.nodes.map Node.uuid).zipIdx := by
    refine places_eq ((List.pairwise_map.mp hdistinct).imp_of_mem fun {n m} hn _ hother => ?_)
    exact Bool.eq_false_iff.mpr fun hsame => hother ((htold n hn).same_iff.mp hsame)
  refine ⟨hrenders, ?_, hnames ▸ hplaces, ?_, fun _ _ => get_eq_ok, ?_, ?_⟩
  · simp [hplaces, NodeIndex.size]
  · intro u k
    rw [← hnames]
    exact position_eq_ok htold hdistinct
  · intro node hnode i hi hlast
    obtain ⟨exit, hexit⟩ : ∃ exit, node.exits[i.toNat]? = some exit :=
      ⟨_, List.getElem?_eq_getElem (by omega)⟩
    refine ⟨exit.destination, destination_of_lt hi hexit, ?_⟩
    intro u hu
    obtain ⟨next, hnext⟩ := compile_sealed h hnode (List.mem_of_getElem? hexit) hu
    have hfound := NodeIndex.find?_of_lookup? hnext
    have hmem := List.mem_of_find?_eq_some hfound
    have hsame := List.find?_some hfound
    have hname : next.uuid = u := (htold next hmem).same_iff.mp hsame
    rw [hplaces, List.zipIdx_map_fst]
    exact List.mem_map.mpr ⟨next, hmem, hname⟩
  · exact fun node _ i hi => destination_of_ge hi

/-- A typed document is compiled if and only if it draws a graph, and its compilation shows it. In all
other cases it is refused as malformed, under the number of its flow. -/
theorem compile_accepts_graphs (d : Definition) (h : Typed document) :
    (IsGraph document → ∃ g, compile d document = .ok g ∧ Faithful document g) ∧
    (¬ IsGraph document → ∃ fault, compile d document = .error (.malformed d.id fault)) := by
  constructor
  · intro hg
    obtain ⟨g, hcompiled⟩ := succeeds_compile.mpr (h.wellFormed_iff.mpr hg)
    exact ⟨g, hcompiled, hg.faithful hcompiled⟩
  · intro hg
    have hfails : ¬ Succeeds (compile d document) := fun hs =>
      hg (h.wellFormed_iff.mp (succeeds_compile.mp hs))
    cases hc : compile d document with
    | ok g => exact absurd ⟨g, hc⟩ hfails
    | error f =>
      by_cases hobject : ∃ members, document = .object members
      · obtain ⟨fault, rfl⟩ := (h.legible hobject).malformed hc
        exact ⟨fault, rfl⟩
      · -- what is not an object is refused before anything in it is read
        cases document with
        | object members => exact absurd ⟨members, rfl⟩ hobject
        | _ =>
          cases hc
          exact ⟨_, rfl⟩

end

/-- Two nodes: the exit of the first leads where it is told, that of the second back to the first. -/
def nodePair (destination : String) : Json := .object [("nodes", .array [
  .object [("uuid", .string "a"),
    ("actions", .array [.object [("uuid", .string "x"), ("type", .string "send_msg")]]),
    ("exits", .array [.object [("uuid", .string "e"), ("destination_uuid", .string destination)]])],
  .object [("uuid", .string "b"), ("router", .object [("cases", .null)]),
    ("exits", .array [.object [("uuid", .string "f"), ("destination_uuid", .string "a")]])]])]

private theorem typed_nodePair (s : String) : Typed (nodePair s) := by
  constructor <;> simp [nodePair, Authored.nodes, Authored.exits, member, Json.items?, Json.findD,
    Json.find?, Table.find?, MaySay, MayList, MayHold]

private theorem isGraph_nodePair : IsGraph (nodePair "b") := by
  constructor <;> simp [nodePair, Authored.nodes, Authored.exits, Authored.actions, member, Json.items?,
    Json.findD, Json.find?, Table.find?, Says, MayHold]

private theorem not_isGraph_nodePair : ¬ IsGraph (nodePair "c") := by
  intro h
  have hdestinations := h.destinations
  simp [nodePair, Authored.nodes, Authored.exits, member, Json.items?, Json.findD, Json.find?,
    Table.find?, Says] at hdestinations

/-- An exit forward to the second node is accepted, one to a third node is not. -/
theorem compile_accepts_graphs_nodePair :
    (∃ g, compile ⟨none, none, none, none, .message, none, some 7, []⟩ (nodePair "b") = .ok g ∧
      Faithful (nodePair "b") g) ∧
    ∃ fault, compile ⟨none, none, none, none, .message, none, some 7, []⟩ (nodePair "c") =
      .error (.malformed (some 7) fault) :=
  ⟨(compile_accepts_graphs _ (typed_nodePair "b")).1 isGraph_nodePair,
    (compile_accepts_graphs _ (typed_nodePair "c")).2 not_isGraph_nodePair⟩

end DurableFlow.Flow
