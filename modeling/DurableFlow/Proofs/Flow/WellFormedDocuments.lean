import DurableFlow.Proofs.Flow.AuthoredGraphs

/-! Documents that can be compiled, told from their members alone. Every other document is refused:
as malformed, as long as the places that are read without a check hold values of the right kind. -/
namespace DurableFlow.Flow
open Authored (member)
open Store (bind_eq_ok)

/-! ## Documents -/

def Listable (v : Json) : Prop := v.isGiven = true → v.elements?.isSome = true

def ListsObjects (v : Json) : Prop :=
  v.isGiven = true → ∃ items, v = .array items ∧ ∀ x ∈ items, x.members?.isSome = true

structure WellFormedNode (n : Json) : Prop where
  object : n.members?.isSome = true
  given : (member "uuid" n).isGiven = true
  key : (member "uuid" n).isKey = true
  actions : ListsObjects (member "actions" n)
  exits : ListsObjects (member "exits" n)
  exitNames : ∀ x ∈ Authored.exits n, (member "uuid" x).isGiven = true
  router : member "router" n = .null ∨ (member "router" n).members?.isSome = true
  cases : Listable (member "cases" (member "router" n))
  categories : Listable (member "categories" (member "router" n))

/-- A document that can be compiled: no two nodes have one name, and exits lead to nodes. -/
structure WellFormed (document : Json) : Prop where
  listed : (member "nodes" document).items?.isSome = true
  nodes : ∀ n ∈ Authored.nodes document, WellFormedNode n
  distinct : (Authored.nodes document).Pairwise fun a b =>
    (member "uuid" a).same (member "uuid" b) = false
  destinations : ∀ n ∈ Authored.nodes document, ∀ x ∈ Authored.exits n,
    (member "destination_uuid" x).isGiven = true → (member "destination_uuid" x).isKey = true ∧
      ∃ m ∈ Authored.nodes document, (member "uuid" m).same (member "destination_uuid" x) = true
  localization : (member "localization" document).isGiven = true →
    (member "localization" document).members?.isSome = true

/-- A document with values of the right kind where they are read without a check. -/
structure Legible (document : Json) : Prop where
  object : document.members?.isSome = true
  names : ∀ n ∈ Authored.nodes document,
    (member "uuid" n).isGiven = true → (member "uuid" n).isKey = true
  actions : ∀ n ∈ Authored.nodes document, Listable (member "actions" n)
  exits : ∀ n ∈ Authored.nodes document, Listable (member "exits" n)
  cases : ∀ n ∈ Authored.nodes document, Listable (member "cases" (member "router" n))
  categories : ∀ n ∈ Authored.nodes document, Listable (member "categories" (member "router" n))
  destinations : ∀ n ∈ Authored.nodes document, ∀ x ∈ Authored.exits n,
    (member "destination_uuid" x).isGiven = true → (member "destination_uuid" x).isKey = true
  localization : (member "localization" document).isGiven = true →
    (member "localization" document).members?.isSome = true

theorem WellFormed.legible {document : Json} (h : WellFormed document) : Legible document := by
  have hlistable {v : Json} (hv : ListsObjects v) : Listable v := by
    intro hgiven
    obtain ⟨items, rfl, _⟩ := hv hgiven
    rfl
  have hobject : document.members?.isSome = true := by
    have hlisted := h.listed
    cases document with
    | object members => rfl
    | _ => cases hlisted
  exact ⟨hobject, fun n hn _ => (h.nodes n hn).key, fun n hn => hlistable (h.nodes n hn).actions,
    fun n hn => hlistable (h.nodes n hn).exits, fun n hn => (h.nodes n hn).cases,
    fun n hn => (h.nodes n hn).categories,
    fun n hn x hx hgiven => (h.destinations n hn x hx hgiven).1, h.localization⟩

/-! ## Steps that succeed -/

section Succeeding
variable {α β : Type} {x : Except Failure α}

def Succeeds (x : Except Failure α) : Prop := ∃ a, x = .ok a

theorem succeeds_ok (a : α) : Succeeds (.ok a : Except Failure α) := ⟨a, rfl⟩

theorem not_succeeds_error (f : Failure) : ¬ Succeeds (.error f : Except Failure α) := by
  rintro ⟨a, ha⟩
  cases ha

theorem succeeds_bind {f : α → Except Failure β} :
    Succeeds (x >>= f) ↔ ∃ a, x = .ok a ∧ Succeeds (f a) := by
  simp only [Succeeds, bind_eq_ok]
  constructor
  · rintro ⟨b, a, ha, hb⟩
    exact ⟨a, ha, b, hb⟩
  · rintro ⟨a, ha, b, hb⟩
    exact ⟨b, a, ha, hb⟩

theorem succeeds_mapM {f : α → Except Failure β} {xs : List α} :
    Succeeds (xs.mapM f) ↔ ∀ x ∈ xs, Succeeds (f x) := by
  induction xs with
  | nil => simp [succeeds_ok, pure, Except.pure]
  | cons x rest ih =>
    rw [List.mapM_cons, succeeds_bind, List.forall_mem_cons, ← ih]
    simp only [succeeds_bind]
    constructor
    · rintro ⟨y, hy, ys, hys, _⟩
      exact ⟨⟨y, hy⟩, ys, hys⟩
    · rintro ⟨⟨y, hy⟩, ys, hys⟩
      exact ⟨y, hy, ys, hys, succeeds_ok _⟩

end Succeeding

variable {fail : DocumentFault → Failure} {document : Json} {d : Definition}

/-! ## Nodes that are read -/

theorem succeeds_readAction {node x : Json} :
    Succeeds (readAction fail node x) ↔ x.members?.isSome = true := by
  cases x <;> simp [readAction, succeeds_ok, not_succeeds_error, Json.members?]

theorem succeeds_readExit {node x : Json} : Succeeds (readExit fail node x) ↔
    x.members?.isSome = true ∧ (member "uuid" x).isGiven = true := by
  cases x with
  | object members =>
    simp only [readExit, member, Json.members?, Option.isSome_some, true_and]
    split
    · simp_all [succeeds_ok]
    · simp_all [not_succeeds_error]
  | _ => simp [readExit, not_succeeds_error, Json.members?]

theorem succeeds_elements {v : Json} : Succeeds (elements v) ↔ Listable v := by
  unfold elements Listable
  split
  · rename_i hgiven
    cases v.elements? <;> simp [hgiven, succeeds_ok, not_succeeds_error]
  · rename_i hgiven
    simp [hgiven, succeeds_ok]

private theorem succeeds_items {α : Type} {v : Json} {f : Json → Except Failure α}
    (hf : ∀ x, Succeeds (f x) → x.members?.isSome = true) :
    (∃ xs, elements v = .ok xs ∧ Succeeds (xs.mapM f)) ↔
      ListsObjects v ∧ ∀ x ∈ v.items?.getD [], Succeeds (f x) := by
  simp only [succeeds_mapM]
  constructor
  · rintro ⟨xs, hxs, hall⟩
    have hobjects (x : Json) (hx : x ∈ xs) : ∃ members, x = .object members := by
      have hsome := hf x (hall x hx)
      cases x with
      | object members => exact ⟨members, rfl⟩
      | _ => cases hsome
    have hitems := items_of_elements hxs hobjects
    refine ⟨?_, hitems ▸ hall⟩
    intro hgiven
    cases v with
    | array items => exact ⟨items, rfl, fun x hx => hf x (hall x (hitems ▸ hx))⟩
    | _ =>
      -- nothing but a list has items, so what is given would have no elements
      cases hitems
      simp_all [elements, Json.elements?, Json.isGiven, Json.items?]
  · rintro ⟨hlist, hall⟩
    by_cases hgiven : v.isGiven = true
    · obtain ⟨items, rfl, _⟩ := hlist hgiven
      refine ⟨items, ?_, hall⟩
      rw [elements, if_pos hgiven]
      rfl
    · refine ⟨[], by rw [elements, if_neg hgiven], ?_⟩
      intro x hx
      cases hx

/-- What it takes to read a node. -/
theorem readNode_eq_ok {position : Nat} {n : Json} {node : Node} :
    readNode fail position n = .ok node ↔ n.members?.isSome = true ∧
      (member "uuid" n).isGiven = true ∧ ∃ raws actions xs exits router,
        elements (member "actions" n) = .ok raws ∧
        raws.mapM (readAction fail (member "uuid" n)) = .ok actions ∧
        elements (member "exits" n) = .ok xs ∧
        xs.mapM (readExit fail (member "uuid" n)) = .ok exits ∧
        member "router" n = router.elim .null .object ∧
        node = ⟨member "uuid" n, actions, exits, router⟩ := by
  cases n with
  | object members =>
    simp only [readNode, member, Json.members?, Option.isSome_some, true_and]
    constructor
    · intro h
      split at h
      · cases h
      rename_i hgiven
      obtain ⟨raws, hraws, h⟩ := bind_eq_ok.mp h
      obtain ⟨actions, hactions, h⟩ := bind_eq_ok.mp h
      obtain ⟨xs, hxs, h⟩ := bind_eq_ok.mp h
      obtain ⟨exits, hexits, h⟩ := bind_eq_ok.mp h
      refine ⟨by simpa using hgiven, raws, actions, xs, exits, ?_⟩
      split at h
      · rename_i hrouter
        cases h
        exact ⟨none, hraws, hactions, hxs, hexits, hrouter, rfl⟩
      · rename_i router hrouter
        cases h
        exact ⟨some router, hraws, hactions, hxs, hexits, hrouter, rfl⟩
      · cases h
    · rintro ⟨hgiven, raws, actions, xs, exits, router, hraws, hactions, hxs, hexits, hrouter, rfl⟩
      rw [if_neg (by simp [hgiven])]
      refine bind_eq_ok.mpr ⟨raws, hraws, bind_eq_ok.mpr ⟨actions, hactions,
        bind_eq_ok.mpr ⟨xs, hxs, bind_eq_ok.mpr ⟨exits, hexits, ?_⟩⟩⟩⟩
      rw [hrouter]
      cases router <;> rfl
  | _ => simp [readNode, Json.members?]

private theorem succeeds_textItems {node : Node} : Succeeds (textItems node) ↔
    Listable (member "cases" (node.router.elim .null .object)) ∧
      Listable (member "categories" (node.router.elim .null .object)) := by
  unfold textItems
  cases node.router with
  | none => simp [member, Listable, Json.isGiven, succeeds_ok, pure, Except.pure]
  | some router =>
    simp only [succeeds_bind, Option.elim_some, member, ← succeeds_elements]
    constructor
    · rintro ⟨cases, hcases, categories, hcategories, _⟩
      exact ⟨⟨cases, hcases⟩, categories, hcategories⟩
    · rintro ⟨⟨cases, hcases⟩, categories, hcategories⟩
      exact ⟨cases, hcases, categories, hcategories, succeeds_ok _⟩

private theorem isNull_or_isObject {v : Json} :
    v = .null ∨ v.members?.isSome = true ↔ ∃ router : Option _, v = router.elim .null .object := by
  constructor
  · rintro (rfl | hsome)
    · exact ⟨none, rfl⟩
    · obtain ⟨members, hmembers⟩ := Option.isSome_iff_exists.mp hsome
      cases v with
      | object members => exact ⟨some members, rfl⟩
      | _ => cases hmembers
  · rintro ⟨router, rfl⟩
    cases router with
    | none => exact .inl rfl
    | some members => exact .inr rfl

private theorem wellFormedNode_iff {position : Nat} {n : Json} : WellFormedNode n ↔
    ∃ node, readNode fail position n = .ok node ∧ node.uuid.isKey = true ∧
      Succeeds (textItems node) := by
  have hactions := succeeds_items (v := member "actions" n)
    (f := readAction fail (member "uuid" n)) fun x hx => succeeds_readAction.mp hx
  have hexits := succeeds_items (v := member "exits" n)
    (f := readExit fail (member "uuid" n)) fun x hx => (succeeds_readExit.mp hx).1
  constructor
  · intro h
    have hobjects {v : Json} (hv : ListsObjects v) : ∀ x ∈ v.items?.getD [], x.members?.isSome = true := by
      intro x hx
      cases v with
      | array items =>
        cases items with
        | nil => cases hx
        | cons y rest =>
          obtain ⟨_, heq, hall⟩ := hv rfl
          cases heq
          exact hall x hx
      | _ => cases hx
    obtain ⟨raws, hraws, actions, hread⟩ := hactions.mpr
      ⟨h.actions, fun x hx => succeeds_readAction.mpr (hobjects h.actions x hx)⟩
    obtain ⟨xs, hxs, exits, hexit⟩ := hexits.mpr
      ⟨h.exits, fun x hx => succeeds_readExit.mpr ⟨hobjects h.exits x hx, h.exitNames x hx⟩⟩
    obtain ⟨router, hrouter⟩ := isNull_or_isObject.mp h.router
    refine ⟨_, readNode_eq_ok.mpr ⟨h.object, h.given, raws, actions, xs, exits, router, hraws, hread,
      hxs, hexit, hrouter, rfl⟩, h.key, succeeds_textItems.mpr ?_⟩
    rw [← hrouter]
    exact ⟨h.cases, h.categories⟩
  · rintro ⟨node, hnode, hkey, htexts⟩
    obtain ⟨hobject, hgiven, raws, actions, xs, exits, router, hraws, hread, hxs, hexit, hrouter, rfl⟩ :=
      readNode_eq_ok.mp hnode
    obtain ⟨hlistsActions, _⟩ := hactions.mp ⟨raws, hraws, actions, hread⟩
    obtain ⟨hlistsExits, hnames⟩ := hexits.mp ⟨xs, hxs, exits, hexit⟩
    obtain ⟨hcases, hcategories⟩ := succeeds_textItems.mp htexts
    rw [← hrouter] at hcases hcategories
    exact ⟨hobject, hgiven, hkey, hlistsActions, hlistsExits,
      fun x hx => (succeeds_readExit.mp (hnames x hx)).2,
      isNull_or_isObject.mpr ⟨router, hrouter⟩, hcases, hcategories⟩

private theorem succeeds_readNodes {values : List Json} (position : Nat) (seen : List Node)
    (defaults : List (String × Json)) : Succeeds (readNodes fail position seen defaults values) ↔
      (∀ n ∈ values, WellFormedNode n) ∧
      (values.Pairwise fun a b => (member "uuid" a).same (member "uuid" b) = false) ∧
      ∀ s ∈ seen, ∀ n ∈ values, s.uuid.same (member "uuid" n) = false := by
  induction values generalizing position seen defaults with
  | nil => simp [readNodes, succeeds_ok]
  | cons v rest ih =>
    rw [readNodes, succeeds_bind, List.forall_mem_cons, List.pairwise_cons, wellFormedNode_iff]
    simp only [List.forall_mem_cons, forall_and]
    constructor
    · rintro ⟨node, hnode, h⟩
      have huuid := (readNode_draws hnode).uuid
      split at h
      · exact absurd h (not_succeeds_error _)
      rename_i hkey
      split at h
      · exact absurd h (not_succeeds_error _)
      rename_i hseen
      obtain ⟨items, hitems, h⟩ := succeeds_bind.mp h
      obtain ⟨hwell, hdistinct, hothers⟩ := (ih _ _ _).mp h
      refine ⟨⟨⟨node, hnode, by simpa using hkey, items, hitems⟩, hwell⟩, ⟨?_, hdistinct⟩, ?_, ?_⟩
      · intro n hn
        rw [← huuid]
        exact hothers node (List.mem_append_right _ (List.mem_singleton_self _)) n hn
      · intro s hs
        rw [← huuid]
        simpa using fun hsame => hseen (List.any_eq_true.mpr ⟨s, hs, hsame⟩)
      · intro s hs n hn
        exact hothers s (List.mem_append_left _ hs) n hn
    · rintro ⟨⟨⟨node, hnode, hkey, items, hitems⟩, hwell⟩, ⟨hfirst, hdistinct⟩, hseen, hothers⟩
      have huuid := (readNode_draws hnode).uuid
      refine ⟨node, hnode, ?_⟩
      have hfree : ¬ seen.any (·.uuid.same node.uuid) = true := by
        intro hany
        obtain ⟨s, hs, hsame⟩ := List.any_eq_true.mp hany
        rw [huuid, hseen s hs] at hsame
        cases hsame
      rw [if_neg (by simp [hkey]), if_neg hfree]
      refine succeeds_bind.mpr ⟨items, hitems, (ih _ _ _).mpr ⟨hwell, hdistinct, ?_⟩⟩
      intro s hs n hn
      rcases List.mem_append.mp hs with hold | hnew
      · exact hothers s hold n hn
      · rw [List.mem_singleton.mp hnew, huuid]
        exact hfirst n hn

/-! ## Documents that are compiled -/

theorem checkExit_eq_ok {index : NodeIndex} {node : Node} {exit : Exit} :
    checkExit fail index node exit = .ok () ↔ ∀ v, exit.destination = some v →
      v.isKey = true ∧ ∃ m ∈ index.nodes, m.uuid.same v = true := by
  unfold checkExit
  cases exit.destination with
  | none => simp
  | some v =>
    simp only [NodeIndex.lookup?, NodeIndex.find?, Option.some.injEq, forall_eq']
    by_cases hkey : v.isKey = true
    · rw [if_pos hkey]
      cases hfound : index.nodes.find? (·.uuid.same v) with
      | none =>
        have hnone := List.find?_eq_none.mp hfound
        constructor
        · intro h
          cases h
        · rintro ⟨_, m, hm, hsame⟩
          exact absurd hsame (hnone m hm)
      | some m =>
        have hmem := List.mem_of_find?_eq_some hfound
        have hsame := List.find?_some hfound
        exact ⟨fun _ => ⟨hkey, m, hmem, hsame⟩, fun _ => rfl⟩
    · rw [if_neg hkey]
      constructor
      · intro h
        cases h
      · rintro ⟨h, _⟩
        exact absurd h hkey

private theorem destinations_iff {values : List Json} {nodes : List Node}
    (h : List.Forall₂ Draws values nodes) :
    (∀ node ∈ nodes, ∀ exit ∈ node.exits, checkExit fail ⟨nodes⟩ node exit = .ok ()) ↔
      ∀ n ∈ values, ∀ x ∈ Authored.exits n, (member "destination_uuid" x).isGiven = true →
        (member "destination_uuid" x).isKey = true ∧
          ∃ m ∈ values, (member "uuid" m).same (member "destination_uuid" x) = true := by
  constructor
  · intro hchecks n hn x hx hgiven
    obtain ⟨node, hnode, hdraws⟩ := exists_of_mem h.flip hn
    obtain ⟨exit, hexit, hdrawn⟩ := exists_of_mem hdraws.exits.flip hx
    have hdestination : exit.destination = some (member "destination_uuid" x) := by
      rw [hdrawn, if_pos hgiven]
    obtain ⟨hkey, m, hm, hsame⟩ := checkExit_eq_ok.mp (hchecks node hnode exit hexit) _ hdestination
    obtain ⟨n', hn', hdraws'⟩ := exists_of_mem h hm
    exact ⟨hkey, n', hn', hdraws'.uuid ▸ hsame⟩
  · intro hall node hnode exit hexit
    obtain ⟨n, hn, hdraws⟩ := exists_of_mem h hnode
    obtain ⟨x, hx, hdrawn⟩ := exists_of_mem hdraws.exits hexit
    refine checkExit_eq_ok.mpr ?_
    intro v hv
    rw [hdrawn] at hv
    split at hv
    · rename_i hgiven
      cases hv
      obtain ⟨hkey, m, hm, hsame⟩ := hall n hn x hx hgiven
      obtain ⟨node', hnode', hdraws'⟩ := exists_of_mem h.flip hm
      exact ⟨hkey, node', hnode', hdraws'.uuid.symm ▸ hsame⟩
    · cases hv

theorem succeeds_flatten {v : Json} :
    Succeeds (flatten v) ↔ (v.isGiven = true → v.members?.isSome = true) := by
  unfold flatten
  split
  · rename_i hgiven
    cases v <;> simp [hgiven, succeeds_ok, not_succeeds_error, Json.members?]
  · rename_i hgiven
    simp [hgiven, succeeds_ok]

/-- A document is compiled if and only if it is well-formed. -/
theorem succeeds_compile : Succeeds (compile d document) ↔ WellFormed document := by
  constructor
  · rintro ⟨g, hg⟩
    obtain ⟨members, values, nodes, defaults, overrides, rfl, hvalues, hnodes, hchecks, hoverrides, -⟩ :=
      compile_eq_ok.mp hg
    have hlist : Authored.nodes (.object members) = values := by
      simp [Authored.nodes, member, hvalues, Json.items?]
    obtain ⟨new, hnew, hdraws⟩ := readNodes_draws hnodes
    rw [List.nil_append] at hnew
    subst hnew
    obtain ⟨hwell, hdistinct, -⟩ := (succeeds_readNodes 0 [] []).mp ⟨_, hnodes⟩
    exact ⟨by simp [member, hvalues, Json.items?], hlist ▸ hwell, hlist ▸ hdistinct,
      hlist ▸ (destinations_iff hdraws).mp hchecks, succeeds_flatten.mp ⟨overrides, hoverrides⟩⟩
  · intro h
    obtain ⟨members, rfl⟩ : ∃ members, document = .object members := by
      have hobject := h.legible.object
      cases document with
      | object members => exact ⟨members, rfl⟩
      | _ => cases hobject
    obtain ⟨values, hvalues⟩ : ∃ values, Json.findD "nodes" members = .array values := by
      have hlisted := h.listed
      cases hv : Json.findD "nodes" members with
      | array values => exact ⟨values, rfl⟩
      | _ =>
        simp only [member, hv] at hlisted
        cases hlisted
    have hlist : Authored.nodes (.object members) = values := by
      simp [Authored.nodes, member, hvalues, Json.items?]
    obtain ⟨-, hwell, hdistinct, hdestinations, hlocalization⟩ := h
    rw [hlist] at hwell hdistinct hdestinations
    obtain ⟨⟨nodes, defaults⟩, hnodes⟩ : Succeeds (readNodes (.malformed d.id) 0 [] [] values) :=
      (succeeds_readNodes 0 [] []).mpr ⟨hwell, hdistinct, fun s hs => by cases hs⟩
    obtain ⟨new, hnew, hdraws⟩ := readNodes_draws hnodes
    rw [List.nil_append] at hnew
    subst hnew
    obtain ⟨overrides, hoverrides⟩ := succeeds_flatten.mpr hlocalization
    exact ⟨_, compile_eq_ok.mpr ⟨members, values, nodes, defaults, overrides, rfl, hvalues, hnodes,
      (destinations_iff hdraws).mpr hdestinations, hoverrides, rfl⟩⟩

/-! ## Documents that are refused -/

section Refusing
variable {α β : Type} {x : Except Failure α} {flow : Option Int} {stumbles : Prop}

/-- A step that refuses a document of a flow as malformed if it fails, or else stumbles. -/
def Refuses (flow : Option Int) (stumbles : Prop) (x : Except Failure α) : Prop :=
  ∀ f, x = .error f →
    (∃ fault, f = .malformed flow fault) ∨ stumbles ∧ ∀ g fault, f ≠ .malformed g fault

theorem Refuses.ok (a : α) : Refuses flow stumbles (.ok a : Except Failure α) := by
  intro f h
  cases h

theorem Refuses.error (fault : DocumentFault) :
    Refuses flow stumbles (.error (.malformed flow fault) : Except Failure α) := by
  intro f h
  cases h
  exact .inl ⟨fault, rfl⟩

/-- A step that fails only where the document is to be stumbled over. -/
theorem Refuses.unless (h : ¬ stumbles → Succeeds x)
    (hother : ∀ g fault, x ≠ .error (.malformed g fault)) : Refuses flow stumbles x := by
  intro f hf
  refine .inr ⟨?_, fun g fault he => hother g fault (he ▸ hf)⟩
  by_contra hsteady
  obtain ⟨a, ha⟩ := h hsteady
  cases ha.symm.trans hf

theorem Refuses.bind {f : α → Except Failure β} (h : Refuses flow stumbles x)
    (hf : ∀ a, x = .ok a → Refuses flow stumbles (f a)) : Refuses flow stumbles (x >>= f) := by
  cases x with
  | ok a => exact hf a rfl
  | error e =>
    intro g hg
    cases hg
    exact h e rfl

theorem Refuses.mapM {f : α → Except Failure β} {xs : List α}
    (h : ∀ x ∈ xs, Refuses flow stumbles (f x)) : Refuses flow stumbles (xs.mapM f) := by
  induction xs with
  | nil => exact .ok []
  | cons x rest ih =>
    rw [List.mapM_cons]
    obtain ⟨hx, hrest⟩ := List.forall_mem_cons.mp h
    exact hx.bind fun y _ => (ih hrest).bind fun ys _ => .ok (y :: ys)

theorem Refuses.forIn {f : α → Except Failure Unit} {xs : List α}
    (h : ∀ x ∈ xs, Refuses flow stumbles (f x)) :
    Refuses flow stumbles (forIn xs () fun x _ => do f x; pure (ForInStep.yield ())) := by
  induction xs with
  | nil => exact .ok ()
  | cons x rest ih =>
    rw [List.forIn_cons]
    obtain ⟨hx, hrest⟩ := List.forall_mem_cons.mp h
    refine (hx.bind fun _ _ => .ok (ForInStep.yield ())).bind fun step hstep => ?_
    obtain ⟨_, _, hyield⟩ := bind_eq_ok.mp hstep
    cases hyield
    exact ih hrest

end Refusing

section
variable {stumbles : Prop} {v : Json}

private theorem refuses_elements (h : ¬ stumbles → Listable v) :
    Refuses d.id stumbles (elements v) := by
  refine .unless (fun hsteady => succeeds_elements.mpr (h hsteady)) ?_
  intro g fault he
  unfold elements at he
  split at he
  · split at he <;> cases he
  · cases he

private theorem refuses_readAction {node x : Json} :
    Refuses d.id stumbles (readAction (.malformed d.id) node x) := by
  unfold readAction
  split
  · exact .ok _
  · exact .error _

private theorem refuses_readExit {node x : Json} :
    Refuses d.id stumbles (readExit (.malformed d.id) node x) := by
  unfold readExit
  split
  · dsimp only
    split
    · exact .ok _
    · exact .error _
  · exact .error _

private theorem refuses_readNode {position : Nat} {n : Json}
    (ha : ¬ stumbles → Listable (member "actions" n))
    (hx : ¬ stumbles → Listable (member "exits" n)) :
    Refuses d.id stumbles (readNode (.malformed d.id) position n) := by
  unfold readNode
  split
  · dsimp only
    split
    · exact .error _
    · refine (refuses_elements ha).bind fun raws _ => ?_
      refine (Refuses.mapM fun _ _ => refuses_readAction).bind fun actions _ => ?_
      refine (refuses_elements hx).bind fun xs _ => ?_
      refine (Refuses.mapM fun _ _ => refuses_readExit).bind fun exits _ => ?_
      split
      · exact .ok _
      · exact .ok _
      · exact .error _
  · exact .error _

private theorem refuses_textItems {node : Node}
    (hcases : ¬ stumbles → Listable (member "cases" (node.router.elim .null .object)))
    (hcategories : ¬ stumbles → Listable (member "categories" (node.router.elim .null .object))) :
    Refuses d.id stumbles (textItems node) := by
  unfold textItems
  generalize node.router = router at hcases hcategories
  cases router with
  | none => exact .ok _
  | some router =>
    refine (refuses_elements hcases).bind fun cases _ => ?_
    exact (refuses_elements hcategories).bind fun categories _ => .ok _

private theorem refuses_readNodes {values : List Json} (position : Nat) (seen : List Node)
    (defaults : List (String × Json))
    (hkeys : ∀ n ∈ values, ¬ stumbles → (member "uuid" n).isGiven = true →
      (member "uuid" n).isKey = true)
    (hlists : ∀ n ∈ values, ¬ stumbles → Listable (member "actions" n) ∧
      Listable (member "exits" n) ∧ Listable (member "cases" (member "router" n)) ∧
      Listable (member "categories" (member "router" n))) :
    Refuses d.id stumbles (readNodes (.malformed d.id) position seen defaults values) := by
  induction values generalizing position seen defaults with
  | nil => exact .ok _
  | cons v rest ih =>
    obtain ⟨hkey, hkeys⟩ := List.forall_mem_cons.mp hkeys
    obtain ⟨hlist, hlists⟩ := List.forall_mem_cons.mp hlists
    rw [readNodes]
    refine (refuses_readNode (fun h => (hlist h).1) fun h => (hlist h).2.1).bind fun node hnode => ?_
    obtain ⟨_, hgiven, _, actions, _, exits, router, _, _, _, _, hrouter, rfl⟩ :=
      readNode_eq_ok.mp hnode
    rw [hrouter] at hlist
    have htexts : Refuses d.id stumbles (textItems ⟨member "uuid" v, actions, exits, router⟩) :=
      refuses_textItems (fun h => (hlist h).2.2.1) fun h => (hlist h).2.2.2
    dsimp only
    split
    · rename_i hother
      refine .unless (fun h => absurd (hkey h hgiven) (by simpa using hother)) ?_
      intro g fault he
      cases he
    · split
      · exact .error _
      · exact htexts.bind fun items _ => ih _ _ _ hkeys hlists

private theorem refuses_checkExit {index : NodeIndex} {node : Node} {exit : Exit}
    (h : ∀ v, exit.destination = some v → ¬ stumbles → v.isKey = true) :
    Refuses d.id stumbles (checkExit (.malformed d.id) index node exit) := by
  unfold checkExit
  cases hd : exit.destination with
  | none => exact .ok ()
  | some v =>
    have hlookup : Refuses d.id stumbles (index.lookup? v) := by
      refine .unless (fun hsteady => ?_) ?_
      · rw [NodeIndex.lookup?, if_pos (h v hd hsteady)]
        exact succeeds_ok _
      · intro g fault he
        unfold NodeIndex.lookup? at he
        split at he <;> cases he
    refine hlookup.bind fun found _ => ?_
    cases found with
    | none => exact .error _
    | some m => exact .ok ()

private theorem refuses_flatten
    (h : ¬ stumbles → v.isGiven = true → v.members?.isSome = true) :
    Refuses d.id stumbles (flatten v) := by
  refine .unless (fun hsteady => succeeds_flatten.mpr (h hsteady)) ?_
  intro g fault he
  unfold flatten at he
  split at he
  · split at he <;> cases he
  · cases he

end

/-- A document that is not compiled is refused as malformed, under the number of its flow, as long as it
is legible. -/
theorem compile_refuses : Refuses d.id (¬ Legible document) (compile d document) := by
  unfold compile
  dsimp only
  split
  · rename_i members
    split
    · rename_i values hvalues
      have hlist : Authored.nodes (.object members) = values := by
        simp [Authored.nodes, member, hvalues, Json.items?]
      refine (refuses_readNodes 0 [] [] ?_ ?_).bind fun read hread => ?_
      · intro n hn h
        exact (not_not.mp h).names n (hlist.symm ▸ hn)
      · intro n hn h
        have hlegible := not_not.mp h
        have hmem : n ∈ Authored.nodes (.object members) := hlist.symm ▸ hn
        exact ⟨hlegible.actions n hmem, hlegible.exits n hmem, hlegible.cases n hmem,
          hlegible.categories n hmem⟩
      obtain ⟨nodes, defaults⟩ := read
      obtain ⟨new, hnew, hdraws⟩ := readNodes_draws hread
      rw [List.nil_append] at hnew
      subst hnew
      refine (Refuses.forIn fun node hnode => Refuses.forIn fun exit hexit => ?_).bind fun _ _ => ?_
      · refine refuses_checkExit fun v hv h => ?_
        obtain ⟨n, hn, hdrawn⟩ := exists_of_mem hdraws hnode
        obtain ⟨x, hx, hexit⟩ := exists_of_mem hdrawn.exits hexit
        rw [hexit] at hv
        split at hv
        · rename_i hgiven
          cases hv
          exact (not_not.mp h).destinations n (hlist.symm ▸ hn) x hx hgiven
        · cases hv
      · exact (refuses_flatten fun h => (not_not.mp h).localization).bind fun _ _ => .ok _
    · exact .error _
  · exact .error _

/-- A legible document that is not compiled is refused as malformed. -/
theorem Legible.malformed (h : Legible document) {f : Failure} (hf : compile d document = .error f) :
    ∃ fault, f = .malformed d.id fault := by
  obtain hfault | ⟨hnot, _⟩ := compile_refuses f hf
  · exact hfault
  · exact absurd h hnot

/-- What is refused is refused under the number of its flow. -/
theorem flow_of_malformed {flow : Option Int} {fault : DocumentFault}
    (h : compile d document = .error (.malformed flow fault)) : flow = d.id := by
  obtain ⟨_, heq⟩ | ⟨_, hother⟩ := compile_refuses _ h
  · cases heq
    rfl
  · exact absurd rfl (hother _ _)

end DurableFlow.Flow
