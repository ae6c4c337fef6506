import DurableFlow.Proofs.Flow.WellFormedDocuments
import DurableFlow.Proofs.Json.AlikeValues

/-! Documents that are alike. They are compiled alike: the order of members plays no part in the nodes
of a graph, nor in whether there is one. -/
namespace DurableFlow.Flow
open Json (Alike AlikeMembers AlikeTables)
open Authored (member)
open Store (bind_eq_ok)

/-! ## Nodes that are alike -/

structure AlikeAction (a a' : Action) : Prop where
  uuid : Alike a.uuid a'.uuid
  type : Alike a.type a'.type
  attributes : AlikeTables a.attributes a'.attributes

structure AlikeExit (x x' : Exit) : Prop where
  uuid : Alike x.uuid x'.uuid
  destination : Option.Rel Alike x.destination x'.destination

structure AlikeNode (n n' : Node) : Prop where
  uuid : Alike n.uuid n'.uuid
  actions : List.Forall₂ AlikeAction n.actions n'.actions
  exits : List.Forall₂ AlikeExit n.exits n'.exits
  router : Option.Rel AlikeMembers n.router n'.router

theorem AlikeNode.refl (n : Node) : AlikeNode n n := by
  have hactions : List.Forall₂ AlikeAction n.actions n.actions :=
    List.forall₂_same.mpr fun a _ => ⟨.refl _, .refl _, .refl _⟩
  have hexits : List.Forall₂ AlikeExit n.exits n.exits := by
    refine List.forall₂_same.mpr fun exit _ => ⟨.refl _, ?_⟩
    cases exit.destination with
    | none => exact .none
    | some v => exact .some (.refl v)
  refine ⟨.refl _, hactions, hexits, ?_⟩
  cases n.router with
  | none => exact .none
  | some members => exact .some (.refl _)

variable {fail fail' : DocumentFault → Failure} {x x' v v' : Json}

private theorem member_alike (h : Alike v v') (key : String) :
    Alike (member key v) (member key v') := by
  obtain ⟨_, rfl⟩ | ⟨_, _, rfl, rfl, _⟩ | ⟨_, _, rfl, rfl, hms⟩ := h.shapes
  · exact .refl _
  · exact .refl _
  · exact hms.tables.findD key

/-! ## Reading nodes that are alike -/

private theorem mapM_alike {α β γ δ : Type} {R : α → β → Prop} {S : γ → δ → Prop}
    {f : α → Except Failure γ} (g : β → Except Failure δ) {xs : List α} {ys : List β} {cs : List γ}
    (h : List.Forall₂ R xs ys) (hc : xs.mapM f = .ok cs)
    (hf : ∀ x y c, R x y → f x = .ok c → ∃ d, g y = .ok d ∧ S c d) :
    ∃ ds, ys.mapM g = .ok ds ∧ List.Forall₂ S cs ds := by
  induction h generalizing cs with
  | nil =>
    cases hc
    exact ⟨[], rfl, .nil⟩
  | @cons x y xs ys hxy _ ih =>
    rw [List.mapM_cons] at hc ⊢
    obtain ⟨c, hx, hc⟩ := bind_eq_ok.mp hc
    obtain ⟨cs', hxs, hc⟩ := bind_eq_ok.mp hc
    cases hc
    obtain ⟨d, hy, hd⟩ := hf x y c hxy hx
    obtain ⟨ds, hys, hds⟩ := ih hxs
    exact ⟨d :: ds, bind_eq_ok.mpr ⟨d, hy, bind_eq_ok.mpr ⟨ds, hys, rfl⟩⟩, .cons hd hds⟩

private theorem forall₂_refl (xs : List Json) : List.Forall₂ Alike xs xs :=
  List.forall₂_same.mpr fun x _ => .refl x

private theorem elements_array {xs ys : List Json} (h : elements (.array xs) = .ok ys) :
    ys = xs := by
  unfold elements at h
  split at h
  · exact (Except.ok.inj h).symm
  · rename_i hgiven
    cases xs with
    | nil => exact (Except.ok.inj h).symm
    | cons x rest => exact absurd rfl hgiven

private theorem elements_alike (h : Alike v v') {xs : List Json} (hxs : elements v = .ok xs)
    (hobjects : ∀ x ∈ xs, ∃ members, x = .object members) :
    ∃ xs', elements v' = .ok xs' ∧ List.Forall₂ Alike xs xs' := by
  obtain ⟨_, rfl⟩ | ⟨items, items', rfl, rfl, hitems⟩ | ⟨ms, ms', rfl, rfl, hms⟩ := h.shapes
  · exact ⟨xs, hxs, forall₂_refl xs⟩
  · obtain ⟨xs', hxs'⟩ := (succeeds_elements (v := .array items')).mpr fun _ => rfl
    exact ⟨xs', hxs', elements_array hxs ▸ elements_array hxs' ▸ hitems⟩
  · -- the elements of an object are its keys, so it has none
    have hnil : xs = [] := by
      have hitems := items_of_elements hxs hobjects
      exact hitems.symm
    subst hnil
    have hgiven : Json.isGiven (.object ms) = false := by
      cases ms with
      | nil => rfl
      | cons m rest => cases hxs
    refine ⟨[], ?_, .nil⟩
    rw [elements, ← h.isGiven_eq, hgiven]
    rfl

private theorem givenOr_alike {ms ms' : List (String × Json)} (h : AlikeTables ms ms')
    (fallback : Json) (key : String) : Alike (givenOr fallback key ms) (givenOr fallback key ms') := by
  have hv := h.findD key
  unfold givenOr
  dsimp only
  rw [hv.isGiven_eq]
  split
  · exact hv
  · exact .refl _

private theorem readAction_alike {node node' : Json} {a : Action} (h : Alike x x')
    (ha : readAction fail node x = .ok a) :
    ∃ a', readAction fail' node' x' = .ok a' ∧ AlikeAction a a' := by
  unfold readAction at ha
  split at ha
  · rename_i ms
    cases ha
    obtain ⟨hkey, _⟩ | ⟨_, _, hother, _⟩ | ⟨_, ms', heq, rfl, hms⟩ := h.shapes
    · cases hkey
    · cases hother
    cases heq
    refine ⟨_, rfl, ⟨givenOr_alike hms.tables _ _, givenOr_alike hms.tables _ _, ?_⟩⟩
    exact hms.tables.filter fun key => key ≠ "uuid" && key ≠ "type"
  · cases ha

private theorem readExit_alike {node node' : Json} {exit : Exit} (h : Alike x x')
    (hx : readExit fail node x = .ok exit) :
    ∃ exit', readExit fail' node' x' = .ok exit' ∧ AlikeExit exit exit' := by
  unfold readExit at hx
  split at hx
  · rename_i ms
    obtain ⟨hkey, _⟩ | ⟨_, _, hother, _⟩ | ⟨_, ms', heq, rfl, hms⟩ := h.shapes
    · cases hkey
    · cases hother
    cases heq
    have huuid := hms.tables.findD "uuid"
    have hdestination := hms.tables.findD "destination_uuid"
    dsimp only at hx
    split at hx
    · rename_i hgiven
      cases hx
      refine ⟨⟨Json.findD "uuid" ms', if (Json.findD "destination_uuid" ms').isGiven then
        some (Json.findD "destination_uuid" ms') else none⟩, ?_, huuid, ?_⟩
      · simp [readExit, ← huuid.isGiven_eq, hgiven]
      · dsimp only
        rw [hdestination.isGiven_eq]
        split
        · exact .some hdestination
        · exact .none
    · cases hx
  · cases hx

private theorem router_alike {w w' : Json} (h : Alike w w') {router : Option (List (String × Json))}
    (hr : w = router.elim .null .object) :
    ∃ router', w' = router'.elim .null .object ∧ Option.Rel AlikeMembers router router' := by
  subst hr
  cases router with
  | none => exact ⟨none, (h.eq_of_isKey rfl).symm, .none⟩
  | some ms =>
    obtain ⟨hkey, _⟩ | ⟨_, _, hother, _⟩ | ⟨_, ms', heq, rfl, hms⟩ := h.shapes
    · cases hkey
    · cases hother
    · cases heq
      exact ⟨some ms', rfl, .some hms⟩

private theorem readNode_alike {position position' : Nat} {node : Node} (h : Alike v v')
    (hn : readNode fail position v = .ok node) :
    ∃ node', readNode fail' position' v' = .ok node' ∧ AlikeNode node node' := by
  obtain ⟨hobject, hgiven, raws, actions, xs, exits, router, hraws, hactions, hxs, hexits, hrouter, rfl⟩ :=
    readNode_eq_ok.mp hn
  have hread {α : Type} {f : Json → Except Failure α} {ys : List Json} {bs : List α}
      (hf : ∀ x, Succeeds (f x) → x.members?.isSome = true) (hm : ys.mapM f = .ok bs) :
      ∀ x ∈ ys, ∃ members, x = .object members := by
    intro x hx
    have hsome := hf x (succeeds_mapM.mp ⟨bs, hm⟩ x hx)
    cases x with
    | object members => exact ⟨members, rfl⟩
    | _ => cases hsome
  obtain ⟨raws', hraws', halikeRaws⟩ := elements_alike (member_alike h "actions") hraws
    (hread (fun x hx => succeeds_readAction.mp hx) hactions)
  obtain ⟨actions', hactions', halikeActions⟩ := mapM_alike (readAction fail' (member "uuid" v'))
    halikeRaws hactions fun x y a hxy ha => readAction_alike hxy ha
  obtain ⟨xs', hxs', halikeXs⟩ := elements_alike (member_alike h "exits") hxs
    (hread (fun x hx => (succeeds_readExit.mp hx).1) hexits)
  obtain ⟨exits', hexits', halikeExits⟩ := mapM_alike (readExit fail' (member "uuid" v'))
    halikeXs hexits fun x y a hxy ha => readExit_alike hxy ha
  obtain ⟨router', hrouter', halikeRouter⟩ := router_alike (member_alike h "router") hrouter
  have hobject' : v'.members?.isSome = true := by
    obtain ⟨_, rfl⟩ | ⟨_, _, rfl, rfl, _⟩ | ⟨_, _, rfl, rfl, _⟩ := h.shapes
    · exact hobject
    · exact hobject
    · rfl
  refine ⟨⟨member "uuid" v', actions', exits', router'⟩, readNode_eq_ok.mpr ⟨hobject',
    (member_alike h "uuid").isGiven_eq ▸ hgiven, raws', actions', xs', exits', router', hraws',
    hactions', hxs', hexits', hrouter', rfl⟩, ?_⟩
  exact ⟨member_alike h "uuid", halikeActions, halikeExits, halikeRouter⟩

private theorem objects_alike (h : Alike v v') {xs : List Json} (hxs : elements v = .ok xs) :
    ∃ xs', elements v' = .ok xs' ∧
      List.Forall₂ AlikeMembers (xs.filterMap Json.members?) (xs'.filterMap Json.members?) := by
  obtain ⟨_, rfl⟩ | ⟨items, items', rfl, rfl, hitems⟩ | ⟨ms, ms', rfl, rfl, hms⟩ := h.shapes
  · refine ⟨xs, hxs, List.forall₂_same.mpr fun x _ => .refl _⟩
  · obtain ⟨xs', hxs'⟩ := (succeeds_elements (v := .array items')).mpr fun _ => rfl
    refine ⟨xs', hxs', ?_⟩
    rw [elements_array hxs, elements_array hxs']
    clear hxs hxs' h
    induction hitems with
    | nil => exact .nil
    | @cons y y' _ _ hy _ ih =>
      have hmembers := hy.members?
      rw [List.filterMap_cons, List.filterMap_cons]
      generalize y.members? = found, y'.members? = found' at hmembers
      cases hmembers with
      | none => exact ih
      | some hms => exact .cons hms ih
  · obtain ⟨xs', hxs'⟩ := (succeeds_elements (v := .object ms')).mpr fun _ => rfl
    have hnone {ys : List Json} {l : List (String × Json)} (hys : elements (.object l) = .ok ys) :
        ys.filterMap Json.members? = [] := by
      unfold elements at hys
      split at hys
      · cases hys
        refine List.filterMap_eq_nil_iff.mpr fun y hy => ?_
        obtain ⟨m, _, rfl⟩ := List.mem_map.mp hy
        rfl
      · cases hys
        rfl
    refine ⟨xs', hxs', ?_⟩
    rw [hnone hxs, hnone hxs']
    exact .nil

theorem textItems_alike {node node' : Node} (h : AlikeNode node node')
    {items : List (List (String × Json))} (hi : textItems node = .ok items) :
    ∃ items', textItems node' = .ok items' ∧ List.Forall₂ AlikeTables items items' := by
  have hactions : List.Forall₂ AlikeTables (node.actions.map fun a => ("uuid", a.uuid) :: a.attributes)
      (node'.actions.map fun a => ("uuid", a.uuid) :: a.attributes) := by
    rw [List.forall₂_map_left_iff, List.forall₂_map_right_iff]
    exact h.actions.imp fun a a' ha => ha.attributes.cons "uuid" ha.uuid
  have hrouter := h.router
  unfold textItems at hi ⊢
  generalize node.router = router, node'.router = router' at hrouter hi
  cases hrouter with
  | none =>
    cases hi
    exact ⟨_, rfl, hactions⟩
  | @some router router' hms =>
    obtain ⟨cases, hcases, hi⟩ := bind_eq_ok.mp hi
    obtain ⟨categories, hcategories, hi⟩ := bind_eq_ok.mp hi
    cases hi
    obtain ⟨cases', hcases', halikeCases⟩ := objects_alike (hms.tables.findD "cases") hcases
    obtain ⟨categories', hcategories', halikeCategories⟩ :=
      objects_alike (hms.tables.findD "categories") hcategories
    have htables {xs ys : List (List (String × Json))} (hxs : List.Forall₂ AlikeMembers xs ys) :
        List.Forall₂ AlikeTables xs ys := hxs.imp fun _ _ hm => hm.tables
    refine ⟨_, bind_eq_ok.mpr ⟨cases', hcases', bind_eq_ok.mpr ⟨categories', hcategories', rfl⟩⟩, ?_⟩
    exact List.rel_append (List.rel_append hactions (htables halikeCases)) (htables halikeCategories)

/-! ## Reading documents that are alike -/

section Nodes
variable {nodes nodes' : List Node}

private theorem exists_same_iff (h : List.Forall₂ AlikeNode nodes nodes')
    (hkeys : ∀ n ∈ nodes, n.uuid.isKey = true) (v : Json) :
    (∃ m ∈ nodes, m.uuid.same v = true) ↔ ∃ m ∈ nodes', m.uuid.same v = true := by
  constructor
  · rintro ⟨m, hm, hsame⟩
    obtain ⟨m', hm', halike⟩ := exists_of_mem h.flip hm
    exact ⟨m', hm', halike.uuid.eq_of_isKey (hkeys m hm) ▸ hsame⟩
  · rintro ⟨m', hm', hsame⟩
    obtain ⟨m, hm, halike⟩ := exists_of_mem h hm'
    exact ⟨m, hm, (halike.uuid.eq_of_isKey (hkeys m hm)).symm ▸ hsame⟩

private theorem readNodes_alike (fail' : DocumentFault → Failure) {values values' : List Json}
    (h : List.Forall₂ Alike values values') {position : Nat} (position' : Nat) {seen seen' : List Node}
    {defaults texts : List (String × Json)} (defaults' : List (String × Json))
    (hseen : List.Forall₂ AlikeNode seen seen') (hkeys : ∀ n ∈ seen, n.uuid.isKey = true)
    (ho : readNodes fail position seen defaults values = .ok (nodes, texts)) :
    (∀ n ∈ nodes, n.uuid.isKey = true) ∧ ∃ nodes' texts',
      readNodes fail' position' seen' defaults' values' = .ok (nodes', texts') ∧
        List.Forall₂ AlikeNode nodes nodes' := by
  induction h generalizing position position' seen seen' defaults defaults' with
  | nil =>
    cases ho
    exact ⟨hkeys, seen', defaults', rfl, hseen⟩
  | @cons v v' rest rest' hv _ ih =>
    rw [readNodes] at ho ⊢
    obtain ⟨node, hnode, ho⟩ := bind_eq_ok.mp ho
    dsimp only at ho
    split at ho
    · cases ho
    rename_i hkey
    split at ho
    · cases ho
    rename_i hnew
    obtain ⟨items, hitems, ho⟩ := bind_eq_ok.mp ho
    obtain ⟨node', hnode', halike⟩ : ∃ node', readNode fail' position' v' = .ok node' ∧
        AlikeNode node node' := readNode_alike hv hnode
    obtain ⟨items', hitems', _⟩ := textItems_alike halike hitems
    have hname : node.uuid.isKey = true := by simpa using hkey
    have hnames : ∀ n ∈ seen ++ [node], n.uuid.isKey = true := by
      intro n hn
      rcases List.mem_append.mp hn with hold | hlast
      · exact hkeys n hold
      · exact List.mem_singleton.mp hlast ▸ hname
    obtain ⟨hall, nodes', texts', hread, hnodes⟩ := ih (position' + 1)
      (items'.foldl itemDefaults defaults') (List.rel_append hseen (.cons halike .nil)) hnames ho
    refine ⟨hall, nodes', texts', bind_eq_ok.mpr ⟨node', hnode', ?_⟩, hnodes⟩
    have huuid : node'.uuid = node.uuid := (halike.uuid.eq_of_isKey hname).symm
    have hfree : ¬ seen'.any (·.uuid.same node'.uuid) = true := by
      rw [huuid]
      intro hany
      exact hnew (List.any_eq_true.mpr
        ((exists_same_iff hseen hkeys _).mpr (List.any_eq_true.mp hany)))
    dsimp only
    rw [if_neg (by rw [huuid]; exact hkey), if_neg hfree]
    exact bind_eq_ok.mpr ⟨items', hitems', hread⟩

private theorem checkExit_alike (h : List.Forall₂ AlikeNode nodes nodes')
    (hkeys : ∀ n ∈ nodes, n.uuid.isKey = true) {node node' : Node} {exit exit' : Exit}
    (hx : AlikeExit exit exit') (ho : checkExit fail ⟨nodes⟩ node exit = .ok ()) :
    checkExit fail' ⟨nodes'⟩ node' exit' = .ok () := by
  have hcheck := checkExit_eq_ok.mp ho
  refine checkExit_eq_ok.mpr ?_
  intro w hw
  have hdestination := hx.destination
  rw [hw] at hdestination
  generalize hd : exit.destination = destination at hdestination
  cases hdestination with
  | @some v _ hv =>
    obtain ⟨hkey, hsame⟩ := hcheck v hd
    rw [← hv.eq_of_isKey hkey]
    exact ⟨hkey, (exists_same_iff h hkeys v).mp hsame⟩

end Nodes

private theorem flatten_alike (h : Alike v v') (hs : Succeeds (flatten v)) :
    Succeeds (flatten v') := by
  rw [succeeds_flatten] at hs ⊢
  rw [← h.isGiven_eq]
  intro hgiven
  have hobject := hs hgiven
  obtain ⟨_, rfl⟩ | ⟨_, _, rfl, rfl, _⟩ | ⟨_, _, rfl, rfl, _⟩ := h.shapes
  · exact hobject
  · cases hobject
  · rfl

variable {d : Definition} {ms ms' : List (String × Json)} {g : Graph}

/-- What is compiled from a document is compiled from every one that is alike, with nodes that are
alike. -/
theorem compile_alike (d' : Definition) (h : AlikeMembers ms ms') (hg : compile d (.object ms) = .ok g) :
    ∃ g', compile d' (.object ms') = .ok g' ∧
      List.Forall₂ AlikeNode g.index.nodes g'.index.nodes := by
  obtain ⟨_, values, nodes, defaults, overrides, heq, hvalues, hnodes, hchecks, hoverrides, rfl⟩ :=
    compile_eq_ok.mp hg
  cases heq
  have hlist := h.tables.findD "nodes"
  rw [hvalues] at hlist
  obtain ⟨hkey, _⟩ | ⟨_, values', heq, hvalues', halike⟩ | ⟨_, _, hother, _⟩ := hlist.shapes
  · cases hkey
  · cases heq
    obtain ⟨hkeys, nodes', defaults', hnodes', halikeNodes⟩ :=
      readNodes_alike (.malformed d'.id) halike 0 [] .nil (fun n hn => by cases hn) hnodes
    obtain ⟨overrides', hoverrides'⟩ := flatten_alike (h.tables.findD "localization") ⟨_, hoverrides⟩
    refine ⟨graphOf d' ms' nodes' defaults' overrides', compile_eq_ok.mpr ⟨ms', values', nodes',
      defaults', overrides', rfl, hvalues', hnodes', ?_, hoverrides', rfl⟩, halikeNodes⟩
    intro node' hnode' exit' hexit'
    obtain ⟨node, hnode, hn⟩ := exists_of_mem halikeNodes hnode'
    obtain ⟨exit, hexit, hx⟩ := exists_of_mem hn.exits hexit'
    exact checkExit_alike halikeNodes hkeys hx (hchecks node hnode exit hexit)
  · cases hother

/-- The order of members plays no part in whether a document is well-formed. -/
theorem wellFormed_alike (h : AlikeMembers ms ms') (hw : WellFormed (.object ms)) :
    WellFormed (.object ms') := by
  let d : Definition := ⟨none, none, none, none, .message, none, none, []⟩
  obtain ⟨g, hg⟩ := (succeeds_compile (d := d)).mpr hw
  obtain ⟨g', hg', _⟩ := compile_alike d h hg
  exact succeeds_compile.mp ⟨g', hg'⟩

end DurableFlow.Flow
