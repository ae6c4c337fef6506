import Mathlib.Data.List.Forall2
import DurableFlow.Flow.Compile
import DurableFlow.Proofs.Store.StoredRows

/-! Graphs as they are authored. A walk can be read off the document alone; the compiled nodes are
those of the document, in its order, and every exit that leads somewhere leads to one of them. -/
namespace DurableFlow.Flow
open Store (bind_eq_ok)

/-! ## Documents -/

namespace Authored

def member (key : String) : Json → Json
  | .object members => Json.findD key members
  | _ => .null

def nodes (document : Json) : List Json := (member "nodes" document).items?.getD []

def exits (node : Json) : List Json := (member "exits" node).items?.getD []

/-- The name of the node behind an exit. Without one, or with an empty one, the flow ends there. -/
def destination? (exit : Json) : Option Json :=
  match member "destination_uuid" exit with
  | .string s => if s = "" then none else some (.string s)
  | _ => none

def node? (document name : Json) : Option Json :=
  (nodes document).find? fun n => member "uuid" n = name

def place? : Json → Option Nat
  | .int k => if k < 0 then none else some k.toNat
  | .bool b => some (if b then 1 else 0)
  | _ => none

def exit? (document name choice : Json) : Option Json :=
  (node? document name).bind fun n => (place? choice).bind fun k => (exits n)[k]?

def entry (document : Json) : Json := ((nodes document).head?.map (member "uuid")).getD .null

/-- The node after a choice: the one behind the chosen exit, or the same where the flow ends. -/
def follow (document name choice : Json) : Json :=
  ((exit? document name choice).bind destination?).getD name

def walk (document : Json) (choices : List Json) : Json :=
  choices.foldl (follow document) (entry document)

structure InTexts (document : Json) : Prop where
  names : ∀ n ∈ nodes document, ∃ s, member "uuid" n = .string s
  destinations : ∀ n ∈ nodes document, ∀ x ∈ exits n,
    member "destination_uuid" x = .null ∨ ∃ s, member "destination_uuid" x = .string s

end Authored

open Authored (member)

/-! ## Compiled nodes and those of the document -/

def DrawsExit (x : Json) (exit : Exit) : Prop :=
  exit.destination = if (member "destination_uuid" x).isGiven then some (member "destination_uuid" x)
    else none

structure Draws (n : Json) (node : Node) : Prop where
  uuid : node.uuid = member "uuid" n
  exits : List.Forall₂ DrawsExit (Authored.exits n) node.exits

/-- Only a text means what a text means. -/
theorem same_string {s : String} {v : Json} : (Json.string s).same v = true ↔ v = .string s := by
  cases v <;> simp [Json.same, Json.place?, eq_comm]

theorem exists_of_mem {α β : Type} {R : α → β → Prop} {xs : List α} {ys : List β}
    (h : List.Forall₂ R xs ys) {y : β} (hy : y ∈ ys) : ∃ x ∈ xs, R x y := by
  induction h with
  | nil => cases hy
  | @cons x _ xs _ hx _ ih =>
    rcases List.mem_cons.mp hy with rfl | hy
    · exact ⟨x, List.mem_cons_self, hx⟩
    · obtain ⟨x', hx', hr⟩ := ih hy
      exact ⟨x', List.mem_cons_of_mem _ hx', hr⟩

theorem forall₂_of_mapM {α β : Type} {f : α → Except Failure β} {xs : List α} {ys : List β}
    (h : xs.mapM f = .ok ys) : List.Forall₂ (fun x y => f x = .ok y) xs ys := by
  induction xs generalizing ys with
  | nil =>
    cases h
    exact .nil
  | cons x rest ih =>
    rw [List.mapM_cons] at h
    obtain ⟨y, hy, h⟩ := bind_eq_ok.mp h
    obtain ⟨rest', hrest, h⟩ := bind_eq_ok.mp h
    cases h
    exact .cons hy (ih hrest)

variable {fail fail' : DocumentFault → Failure}

private theorem readExit_draws {node x : Json} {exit : Exit} (h : readExit fail node x = .ok exit) :
    DrawsExit x exit ∧ ∃ members, x = .object members := by
  unfold readExit at h
  split at h
  · rename_i members
    dsimp only at h
    split at h
    · cases h
      exact ⟨rfl, members, rfl⟩
    · cases h
  · cases h

/-- Elements that are all objects are the items of a list. -/
theorem items_of_elements {v : Json} {xs : List Json} (h : elements v = .ok xs)
    (hxs : ∀ x ∈ xs, ∃ members, x = .object members) : v.items?.getD [] = xs := by
  have hnil (hstrings : ∀ x ∈ xs, ∃ s, x = .string s) : xs = [] := by
    refine List.eq_nil_iff_forall_not_mem.mpr fun x hx => ?_
    obtain ⟨members, rfl⟩ := hxs x hx
    obtain ⟨s, hs⟩ := hstrings _ hx
    cases hs
  unfold elements at h
  split at h
  · split at h
    · rename_i items hitems
      cases h
      cases v with
      | array items =>
        cases hitems
        rfl
      | string s =>
        cases hitems
        refine (hnil fun x hx => ?_).symm
        obtain ⟨c, _, rfl⟩ := List.mem_map.mp hx
        exact ⟨_, rfl⟩
      | object members =>
        cases hitems
        refine (hnil fun x hx => ?_).symm
        obtain ⟨m, _, rfl⟩ := List.mem_map.mp hx
        exact ⟨_, rfl⟩
      | null | bool | int | double => cases hitems
    · cases h
  · rename_i hgiven
    cases h
    cases v with
    | array items =>
      simp [Json.isGiven] at hgiven
      simp [Json.items?, hgiven]
    | null | bool | int | double | string | object => rfl

theorem readNode_draws {position : Nat} {n : Json} {node : Node}
    (h : readNode fail position n = .ok node) : Draws n node := by
  unfold readNode at h
  split at h
  · rename_i members
    dsimp only at h
    split at h
    · cases h
    · obtain ⟨_, _, h⟩ := bind_eq_ok.mp h
      obtain ⟨_, _, h⟩ := bind_eq_ok.mp h
      obtain ⟨xs, hxs, h⟩ := bind_eq_ok.mp h
      obtain ⟨exits, hexits, h⟩ := bind_eq_ok.mp h
      have hall : List.Forall₂
          (fun x exit => (∃ members, x = .object members) ∧ DrawsExit x exit) xs exits :=
        (forall₂_of_mapM hexits).imp fun _ _ hx => (readExit_draws hx).symm
      obtain ⟨hobjects, hdraws⟩ := (List.forall₂_and_left _ _).mp hall
      have hitems : Authored.exits (.object members) = xs := items_of_elements hxs hobjects
      rw [← hitems] at hdraws
      split at h
      · cases h
        exact ⟨rfl, hdraws⟩
      · cases h
        exact ⟨rfl, hdraws⟩
      · cases h
  · cases h

/-- Nodes are read one by one, in the order of the document. -/
theorem readNodes_reads {position : Nat} {seen : List Node} {defaults : List (String × Json)}
    {values : List Json} {nodes : List Node} {texts : List (String × Json)}
    (h : readNodes fail position seen defaults values = .ok (nodes, texts)) :
    ∃ new, nodes = seen ++ new ∧
      List.Forall₂ (fun v node => ∃ k, readNode fail k v = .ok node) values new := by
  induction values generalizing position seen defaults with
  | nil =>
    cases h
    exact ⟨[], (List.append_nil _).symm, .nil⟩
  | cons v rest ih =>
    rw [readNodes] at h
    obtain ⟨node, hnode, h⟩ := bind_eq_ok.mp h
    dsimp only at h
    split at h
    · cases h
    · split at h
      · cases h
      · obtain ⟨_, _, h⟩ := bind_eq_ok.mp h
        obtain ⟨new, hnodes, hread⟩ := ih h
        refine ⟨node :: new, ?_, .cons ⟨position, hnode⟩ hread⟩
        rw [hnodes, List.append_assoc, List.singleton_append]

theorem readNodes_draws {position : Nat} {seen : List Node} {defaults : List (String × Json)}
    {values : List Json} {nodes : List Node} {texts : List (String × Json)}
    (h : readNodes fail position seen defaults values = .ok (nodes, texts)) :
    ∃ new, nodes = seen ++ new ∧ List.Forall₂ Draws values new := by
  obtain ⟨new, hnew, hread⟩ := readNodes_reads h
  exact ⟨new, hnew, hread.imp fun _ _ ⟨_, hnode⟩ => readNode_draws hnode⟩

/-! ## What is refused -/

private theorem mapM_congr {α β : Type} {f f' : α → Except Failure β} {xs : List α} {ys : List β}
    (h : xs.mapM f = .ok ys) (hf : ∀ x y, f x = .ok y → f' x = .ok y) : xs.mapM f' = .ok ys := by
  induction xs generalizing ys with
  | nil => exact h
  | cons x rest ih =>
    rw [List.mapM_cons] at h ⊢
    obtain ⟨y, hy, h⟩ := bind_eq_ok.mp h
    obtain ⟨rest', hrest, h⟩ := bind_eq_ok.mp h
    exact bind_eq_ok.mpr ⟨y, hf x y hy, bind_eq_ok.mpr ⟨rest', ih hrest, h⟩⟩

private theorem readNode_congr {position : Nat} {n : Json} {node : Node}
    (h : readNode fail position n = .ok node) : readNode fail' position n = .ok node := by
  have haction (uuid x : Json) (a : Action) (h : readAction fail uuid x = .ok a) :
      readAction fail' uuid x = .ok a := by
    unfold readAction at h ⊢
    split at h
    · exact h
    · cases h
  have hexit (uuid x : Json) (exit : Exit) (h : readExit fail uuid x = .ok exit) :
      readExit fail' uuid x = .ok exit := by
    unfold readExit at h ⊢
    split at h
    · dsimp only at h ⊢
      split at h
      · rename_i hgiven
        rw [if_pos hgiven]
        exact h
      · cases h
    · cases h
  unfold readNode at h ⊢
  split at h
  · dsimp only at h ⊢
    split at h
    · cases h
    · rename_i hgiven
      rw [if_neg hgiven]
      obtain ⟨raws, hraws, h⟩ := bind_eq_ok.mp h
      obtain ⟨actions, hactions, h⟩ := bind_eq_ok.mp h
      obtain ⟨xs, hxs, h⟩ := bind_eq_ok.mp h
      obtain ⟨exits, hexits, h⟩ := bind_eq_ok.mp h
      refine bind_eq_ok.mpr ⟨raws, hraws, bind_eq_ok.mpr ⟨actions, mapM_congr hactions (haction _),
        bind_eq_ok.mpr ⟨xs, hxs, bind_eq_ok.mpr ⟨exits, mapM_congr hexits (hexit _), ?_⟩⟩⟩⟩
      split at h
      · exact h
      · exact h
      · cases h
  · cases h

private theorem readNodes_congr {position : Nat} {seen : List Node} {defaults : List (String × Json)}
    {values : List Json} {r : List Node × List (String × Json)}
    (h : readNodes fail position seen defaults values = .ok r) :
    readNodes fail' position seen defaults values = .ok r := by
  induction values generalizing position seen defaults with
  | nil => exact h
  | cons v rest ih =>
    rw [readNodes] at h ⊢
    obtain ⟨node, hnode, h⟩ := bind_eq_ok.mp h
    refine bind_eq_ok.mpr ⟨node, readNode_congr hnode, ?_⟩
    dsimp only at h ⊢
    split at h
    · cases h
    · rename_i hkey
      split at h
      · cases h
      · rename_i hseen
        obtain ⟨texts, htexts, h⟩ := bind_eq_ok.mp h
        rw [if_neg hkey, if_neg hseen]
        exact bind_eq_ok.mpr ⟨texts, htexts, ih h⟩

/-! ## Compiled documents -/

theorem forIn_eq_ok {α : Type} {f : α → Except Failure Unit} {xs : List α} :
    (forIn xs () fun x _ => do f x; pure (ForInStep.yield ())) = .ok () ↔
      ∀ x ∈ xs, f x = .ok () := by
  induction xs with
  | nil => simp [pure, Except.pure]
  | cons x rest ih =>
    rw [List.forIn_cons, List.forall_mem_cons, ← ih, bind_eq_ok]
    constructor
    · rintro ⟨step, hstep, h⟩
      obtain ⟨_, hx, hyield⟩ := bind_eq_ok.mp hstep
      cases hyield
      exact ⟨hx, h⟩
    · rintro ⟨hx, h⟩
      exact ⟨.yield (), bind_eq_ok.mpr ⟨(), hx, rfl⟩, h⟩

def graphOf (d : Definition) (members : List (String × Json)) (nodes : List Node)
    (defaults : List (String × Json)) (overrides : List (String × List (String × String))) : Graph where
  id := d.id
  uuid := d.uuid
  shortcode := d.shortcode
  name := d.name
  language := languageOf d members
  kind := d.kind
  format := d.format
  index := ⟨nodes⟩
  localization := ⟨overrides.map fun (l, texts) => (l, Keyed.ofTexts .string texts),
    Keyed.ofTexts id defaults, languageOf d members⟩
  checksum := (Json.object members).checksum

/-- What it takes to compile a document. -/
theorem compile_eq_ok {d : Definition} {document : Json} {g : Graph} : compile d document = .ok g ↔
    ∃ members values nodes defaults overrides, document = .object members ∧
      Json.findD "nodes" members = .array values ∧
      readNodes (.malformed d.id) 0 [] [] values = .ok (nodes, defaults) ∧
      (∀ node ∈ nodes, ∀ exit ∈ node.exits, checkExit (.malformed d.id) ⟨nodes⟩ node exit = .ok ()) ∧
      flatten (Json.findD "localization" members) = .ok overrides ∧
      g = graphOf d members nodes defaults overrides := by
  constructor
  · intro h
    unfold compile at h
    dsimp only at h
    split at h
    · rename_i members
      split at h
      · rename_i values hvalues
        obtain ⟨⟨nodes, defaults⟩, hnodes, h⟩ := bind_eq_ok.mp h
        obtain ⟨_, hloop, h⟩ := bind_eq_ok.mp h
        obtain ⟨overrides, hoverrides, h⟩ := bind_eq_ok.mp h
        cases h
        exact ⟨members, values, nodes, defaults, overrides, rfl, hvalues, hnodes,
          fun node hnode => forIn_eq_ok.mp (forIn_eq_ok.mp hloop node hnode), hoverrides, rfl⟩
      · cases h
    · cases h
  · rintro ⟨members, values, nodes, defaults, overrides, rfl, hvalues, hnodes, hchecks, hoverrides, rfl⟩
    have hloop := forIn_eq_ok.mpr fun node hnode => forIn_eq_ok.mpr (hchecks node hnode)
    unfold compile
    dsimp only
    rw [hvalues]
    exact bind_eq_ok.mpr ⟨_, hnodes, bind_eq_ok.mpr ⟨_, hloop, bind_eq_ok.mpr ⟨_, hoverrides, rfl⟩⟩⟩

variable {d d' : Definition} {document : Json} {g g' : Graph}

theorem compile_id (h : compile d document = .ok g) : g.id = d.id := by
  obtain ⟨_, _, _, _, _, _, _, _, _, _, rfl⟩ := compile_eq_ok.mp h
  rfl

/-- The nodes of a compiled flow are read off its document, in their order. -/
theorem compile_reads (h : compile d document = .ok g) :
    List.Forall₂ (fun v node => ∃ k, readNode (.malformed d.id) k v = .ok node)
      (Authored.nodes document) g.index.nodes := by
  obtain ⟨members, values, nodes, _, _, rfl, hvalues, hnodes, _, _, rfl⟩ := compile_eq_ok.mp h
  obtain ⟨new, hnew, hread⟩ := readNodes_reads hnodes
  rw [List.nil_append] at hnew
  subst hnew
  have hlist : Authored.nodes (.object members) = values := by
    simp [Authored.nodes, member, hvalues, Json.items?]
  exact hlist ▸ hread

theorem compile_draws (h : compile d document = .ok g) :
    List.Forall₂ Draws (Authored.nodes document) g.index.nodes :=
  (compile_reads h).imp fun _ _ ⟨_, hnode⟩ => readNode_draws hnode

/-- Every exit of a compiled flow that leads somewhere leads to one of its nodes. -/
theorem compile_sealed (h : compile d document = .ok g) {node : Node} (hn : node ∈ g.index.nodes)
    {exit : Exit} (hx : exit ∈ node.exits) {v : Json} (hv : exit.destination = some v) :
    ∃ next, g.index.lookup? v = .ok (some next) := by
  obtain ⟨_, _, nodes, _, _, _, _, _, hchecks, _, rfl⟩ := compile_eq_ok.mp h
  have hcheck := hchecks node hn exit hx
  simp only [checkExit, hv] at hcheck
  obtain ⟨found, hfound, hcheck⟩ := bind_eq_ok.mp hcheck
  cases found with
  | none => cases hcheck
  | some next => exact ⟨next, hfound⟩

theorem NodeIndex.find?_of_lookup? {index : NodeIndex} {name : Json} {node : Node}
    (h : index.lookup? name = .ok (some node)) :
    index.nodes.find? (·.uuid.same name) = some node := by
  unfold NodeIndex.lookup? at h
  split at h
  · exact Except.ok.inj h
  · cases h

theorem Node.destination_eq_ok {node : Node} {choice : Json} {destination : Option Json} :
    node.destination choice = .ok destination ↔
      ∃ exit, node.exitAt choice = .ok exit ∧ exit.destination = destination := by
  unfold Node.destination
  cases node.exitAt choice <;> simp [Except.map]

/-- A choice that is taken names the place of an exit. -/
theorem place?_of_destination {node : Node} {choice : Json} {destination : Option Json}
    (h : node.destination choice = .ok destination) : ∃ k exit, Authored.place? choice = some k ∧
      node.exits[k]? = some exit ∧ exit.destination = destination := by
  obtain ⟨exit, he, rfl⟩ := Node.destination_eq_ok.mp h
  unfold Node.exitAt at he
  dsimp only at he
  split at he
  · rename_i k
    split at he
    · cases he
    · rename_i hk
      split at he
      · rename_i e hexit
        cases he
        exact ⟨k.toNat, exit, by simp [Authored.place?, hk], hexit, rfl⟩
      · cases he
  · rename_i b
    cases b
    all_goals
      simp only [if_true, if_false, Bool.false_eq_true, Int.lt_irrefl, Int.reduceLT] at he
      split at he
      · rename_i e hexit
        cases he
        exact ⟨_, exit, rfl, hexit, rfl⟩
      · cases he
  · split at he
    · split at he
      · cases he
      · cases he
    · cases he
  · cases he

/-- A choice that is taken at a node of a compiled flow leads to one of its nodes, or to the end. -/
theorem compile_next (h : compile d document = .ok g) {node : Node} {name choice v : Json}
    (hl : g.index.lookup? name = .ok (some node)) (hd : node.destination choice = .ok (some v)) :
    ∃ next, g.index.lookup? v = .ok (some next) := by
  obtain ⟨k, exit, _, hexit, hv⟩ := place?_of_destination hd
  exact compile_sealed h (List.mem_of_find?_eq_some (NodeIndex.find?_of_lookup? hl))
    (List.mem_of_getElem? hexit) hv

/-- The nodes depend on the document alone, not on the flow that it is compiled for. -/
theorem compile_index_eq (h : compile d document = .ok g) (h' : compile d' document = .ok g') :
    g'.index = g.index := by
  obtain ⟨members, values, nodes, _, _, rfl, hvalues, hnodes, _, _, rfl⟩ := compile_eq_ok.mp h
  obtain ⟨members', values', nodes', _, _, hmembers, hvalues', hnodes', _, _, rfl⟩ :=
    compile_eq_ok.mp h'
  cases hmembers
  rw [hvalues] at hvalues'
  cases hvalues'
  have hsame : readNodes (.malformed d'.id) 0 [] [] values = _ := readNodes_congr hnodes
  rw [hnodes'] at hsame
  have hlist : nodes' = nodes := congrArg Prod.fst (Except.ok.inj hsame)
  exact congrArg NodeIndex.mk hlist

end DurableFlow.Flow
