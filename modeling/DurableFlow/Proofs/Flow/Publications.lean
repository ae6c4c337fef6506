import DurableFlow.Proofs.Flow.AuthoredGraphs

/-! Publications: documents that are put into force for a flow. The compiled nodes lead where the
document says, under whatever identity the document is compiled. -/
namespace DurableFlow.Flow
open Authored (member)

/-- A document as it is published for a flow. It compiles, and names its nodes by texts. -/
structure Publication where
  flow : Int
  raw : Json
  body : List (String × Json)
  definition : Definition
  graph : Graph
  cleaned : clean raw = .ok body
  compiled : compile definition (.object body) = .ok graph
  inTexts : Authored.InTexts (.object body)

namespace Publication
variable (p : Publication)

def document : Json := .object p.body

def index : NodeIndex := p.graph.index

variable {p} {name : Json} {node : Node}

theorem exists_text_of_mem (hn : node ∈ p.index.nodes) : ∃ s, node.uuid = .string s := by
  obtain ⟨n, hmem, hdraws⟩ := exists_of_mem (compile_draws p.compiled) hn
  obtain ⟨s, hs⟩ := p.inTexts.names n hmem
  exact ⟨s, hdraws.uuid.trans hs⟩

private theorem find?_draws {ns : List Json} {nodes : List Node} (h : List.Forall₂ Draws ns nodes)
    (hnames : ∀ n ∈ ns, ∃ s, member "uuid" n = .string s)
    (hf : nodes.find? (·.uuid.same name) = some node) :
    ∃ n ∈ ns, ns.find? (fun n => member "uuid" n = name) = some n ∧ Draws n node := by
  induction h with
  | nil => cases hf
  | @cons n first ns rest hdraws _ ih =>
    obtain ⟨s, hs⟩ := hnames n List.mem_cons_self
    have hfirst : first.uuid.same name = true ↔ member "uuid" n = name := by
      rw [hdraws.uuid, hs, same_string, eq_comm]
    rw [List.find?_cons] at hf ⊢
    by_cases hname : member "uuid" n = name
    · rw [hfirst.mpr hname] at hf
      cases hf
      exact ⟨n, List.mem_cons_self, by simp [hname], hdraws⟩
    · rw [Bool.eq_false_iff.mpr fun h => hname (hfirst.mp h)] at hf
      obtain ⟨n', hmem, hfind, hn'⟩ := ih (fun m hm => hnames m (List.mem_cons_of_mem _ hm)) hf
      exact ⟨n', List.mem_cons_of_mem _ hmem, by simpa [hname] using hfind, hn'⟩

/-- Only texts name nodes. -/
theorem exists_text_of_lookup? (h : p.index.lookup? name = .ok (some node)) :
    ∃ s, name = .string s := by
  have hf := NodeIndex.find?_of_lookup? h
  obtain ⟨s, hs⟩ := exists_text_of_mem (List.mem_of_find?_eq_some hf)
  have hsame := List.find?_some hf
  rw [hs, same_string] at hsame
  exact ⟨s, hsame⟩

/-- An exit of a node of the document leads to a node of the document. -/
theorem exists_next (hl : p.index.lookup? name = .ok (some node)) {choice v : Json}
    (hd : node.destination choice = .ok (some v)) :
    ∃ next, p.index.lookup? v = .ok (some next) := compile_next p.compiled hl hd

private theorem destination?_of_draws {x : Json} {exit : Exit} (h : DrawsExit x exit)
    (hx : member "destination_uuid" x = .null ∨ ∃ s, member "destination_uuid" x = .string s) :
    Authored.destination? x = exit.destination := by
  rw [h, Authored.destination?]
  rcases hx with hnull | ⟨s, hs⟩
  · rw [hnull]
    rfl
  · rw [hs]
    by_cases hempty : s = ""
    · simp [Json.isGiven, hempty]
    · simp [Json.isGiven, hempty]

/-- What an exit of a compiled node leads to is what the document says. -/
theorem exit?_of_destination (hl : p.index.lookup? name = .ok (some node)) {choice : Json}
    {destination : Option Json} (hd : node.destination choice = .ok destination) :
    ∃ x, Authored.exit? p.document name choice = some x ∧
      Authored.destination? x = destination := by
  obtain ⟨n, hmem, hnode, hdraws⟩ :=
    find?_draws (compile_draws p.compiled) p.inTexts.names (NodeIndex.find?_of_lookup? hl)
  obtain ⟨k, exit, hplace, hexit, rfl⟩ := place?_of_destination hd
  obtain ⟨hk, hget⟩ := List.getElem?_eq_some_iff.mp hexit
  have hk' : k < (Authored.exits n).length := hdraws.exits.length_eq ▸ hk
  have hx : DrawsExit (Authored.exits n)[k] exit := hget ▸ hdraws.exits.get hk' hk
  refine ⟨(Authored.exits n)[k], ?_,
    destination?_of_draws hx (p.inTexts.destinations n hmem _ (List.getElem_mem hk'))⟩
  have hfound : Authored.node? p.document name = some n := hnode
  simp [Authored.exit?, hfound, hplace, hk']

private theorem head?_draws {ns : List Json} {nodes : List Node} (h : List.Forall₂ Draws ns nodes)
    (hn : nodes.head? = some node) : ns.head?.map (member "uuid") = some node.uuid := by
  cases h with
  | nil => cases hn
  | cons hdraws _ =>
    cases hn
    exact congrArg some hdraws.uuid.symm

/-- Contexts start on the first node of the document. -/
theorem entry_of_head {entry : Node} (h : p.index.nodes.head? = some entry) :
    Authored.entry p.document = entry.uuid ∧
      ∃ node, p.index.lookup? entry.uuid = .ok (some node) := by
  have hmem := List.mem_of_head? h
  obtain ⟨s, hs⟩ := exists_text_of_mem hmem
  constructor
  · rw [Authored.entry, document, head?_draws (compile_draws p.compiled) h, Option.getD_some]
  · have hsame : entry.uuid.same entry.uuid = true := by
      rw [hs, same_string]
    have hsome : (p.index.nodes.find? (·.uuid.same entry.uuid)).isSome :=
      List.find?_isSome.mpr ⟨entry, hmem, hsame⟩
    obtain ⟨node, hnode⟩ := Option.isSome_iff_exists.mp hsome
    refine ⟨node, ?_⟩
    simp [NodeIndex.lookup?, NodeIndex.find?, hs, Json.isKey] at hnode ⊢
    exact hnode

end Publication
end DurableFlow.Flow
