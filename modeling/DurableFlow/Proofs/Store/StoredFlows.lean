import DurableFlow.Proofs.Store.Insertions

/-! Stored flows beside stored contexts. Nothing that is written to a context is seen by the reads of
flows, for on a server the two are kept under keys of different families. -/
namespace DurableFlow.Store
open DurableFlow.Action (Ensures)

structure SameFlows (s s' : Store) : Prop where
  getFlow : ∀ identifier, s'.getFlow identifier = s.getFlow identifier
  liveRevision : ∀ flow, s'.liveRevision flow = s.liveRevision flow
  activeFlows : ∀ only, s'.activeFlows only = s.activeFlows only

namespace SameFlows
variable {s s' s'' : Store}

theorem refl : SameFlows s s := ⟨fun _ => rfl, fun _ => rfl, fun _ => rfl⟩

theorem of_eq (h : s' = s) : SameFlows s s' := h ▸ refl

theorem trans (h : SameFlows s s') (h' : SameFlows s' s'') : SameFlows s s'' :=
  ⟨fun i => (h'.getFlow i).trans (h.getFlow i), fun f => (h'.liveRevision f).trans (h.liveRevision f),
    fun o => (h'.activeFlows o).trans (h.activeFlows o)⟩

end SameFlows

namespace Keys

def initial (k : Keys) (key : String) : Option Char :=
  (key.toList.drop (k.ns.toList.length + 1)).head?

theorem initial_key (k : Keys) (part : String) (parts : List String) :
    k.initial (k.key (part :: parts)) = (":".intercalate (part :: parts)).toList.head? := by
  have hdrop (cs : List Char) : (k.ns.toList ++ (':' :: cs)).drop (k.ns.toList.length + 1) = cs := by
    rw [← List.drop_drop, List.drop_left]
    rfl
  simp only [initial, key, String.intercalate_cons_cons, String.toList_append]
  rw [List.append_assoc, show (":" : String).toList = [':'] from rfl, List.singleton_append, hdrop]

@[simp] theorem initial_contextKey (k : Keys) (id : Option String) :
    k.initial (k.contextKey id) = some 'c' := by
  simp [contextKey, initial_key, String.intercalate_cons_cons]

@[simp] theorem initial_wakeupsKey (k : Keys) : k.initial k.wakeupsKey = some 'w' := by
  simp [wakeupsKey, initial_key]

@[simp] theorem initial_childrenKey (k : Keys) (parent : Option String) :
    k.initial (k.childrenKey parent) = some 'c' := by
  simp [childrenKey, initial_key, String.intercalate_cons_cons]

@[simp] theorem initial_contactKey (k : Keys) (contact : Json) :
    k.initial (k.contactKey contact) = some 'c' := by
  simp [contactKey, initial_key, String.intercalate_cons_cons]

@[simp] theorem initial_flowKey (k : Keys) (flow : Int) :
    k.initial (k.flowKey flow) = some 'f' := by
  simp [flowKey, initial_key, String.intercalate_cons_cons]

@[simp] theorem initial_revisionsKey (k : Keys) (flow : Int) :
    k.initial (k.revisionsKey flow) = some 'r' := by
  simp [revisionsKey, initial_key, String.intercalate_cons_cons]

def SpareFlows (k : Keys) (s s' : Server) : Prop :=
  ∀ key, k.initial key = some 'f' ∨ k.initial key = some 'r' → Table.find? key s' = Table.find? key s

namespace SpareFlows
variable {k : Keys} {s s' s'' : Server} {other member : String}

theorem refl : SpareFlows k s s := fun _ _ => rfl

theorem trans (h : SpareFlows k s s') (h' : SpareFlows k s' s'') : SpareFlows k s s'' :=
  fun key hkey => (h' key hkey).trans (h key hkey)

private theorem of_others (hf : k.initial other ≠ some 'f') (hr : k.initial other ≠ some 'r')
    (h : ∀ key, key ≠ other → Table.find? key s' = Table.find? key s) : SpareFlows k s s' := by
  intro key hkey
  apply h
  rintro rfl
  exact hkey.elim hf hr

theorem put (hf : k.initial other ≠ some 'f') (hr : k.initial other ≠ some 'r') (entry : Entry) :
    SpareFlows k s (Table.put other entry s) :=
  of_others hf hr fun key hne => by rw [Table.find?_put, if_neg (Ne.symm hne)]

theorem addMember (hf : k.initial other ≠ some 'f') (hr : k.initial other ≠ some 'r') {score : Int}
    (h : s.addMember other member score = .ok s') : SpareFlows k s s' :=
  of_others hf hr fun _ hne => Server.find?_addMember h hne

theorem removeMember (hf : k.initial other ≠ some 'f') (hr : k.initial other ≠ some 'r')
    (h : s.removeMember other member = .ok s') : SpareFlows k s s' :=
  of_others hf hr fun _ hne => Server.find?_removeMember h hne

end SpareFlows

private structure SameEntries (k k' : Keys) : Prop where
  ns : k'.ns = k.ns
  connected : k'.connected = k.connected
  entries : SpareFlows k k.server k'.server

namespace SameEntries
variable {k k' : Keys}

private theorem key (h : SameEntries k k') (parts : List String) : k'.key parts = k.key parts := by
  simp only [Keys.key, h.ns]

private theorem owners (h : SameEntries k k') (name : String)
    (hn : k.initial (k.key [name]) = some 'f') :
    k'.server.owners (k'.key [name]) = k.server.owners (k.key [name]) := by
  simp only [Server.owners, h.key, h.entries _ (.inl hn)]

private theorem numbers (h : SameEntries k k') :
    k'.server.numbers (k'.key ["flows"]) = k.server.numbers (k.key ["flows"]) := by
  have hinitial : k.initial (k.key ["flows"]) = some 'f' := by simp [initial_key]
  simp only [Server.numbers, h.key, h.entries _ (.inl hinitial)]

private theorem flow? (h : SameEntries k k') (n : Int) :
    k'.server.flow? (k'.flowKey n) = k.server.flow? (k.flowKey n) := by
  have hkey : k'.flowKey n = k.flowKey n := h.key _
  simp only [Server.flow?, hkey, h.entries _ (.inl (k.initial_flowKey n))]

private theorem snapshots (h : SameEntries k k') (n : Int) :
    k'.server.snapshots (k'.revisionsKey n) = k.server.snapshots (k.revisionsKey n) := by
  have hkey : k'.revisionsKey n = k.revisionsKey n := h.key _
  simp only [Server.snapshots, hkey, h.entries _ (.inr (k.initial_revisionsKey n))]

private theorem checkConnected (h : SameEntries k k') : k'.checkConnected = k.checkConnected := by
  simp only [Keys.checkConnected, h.connected]

private theorem resolve? (h : SameEntries k k') (i : Identifier) :
    k'.resolve? i = k.resolve? i := by
  unfold Keys.resolve?
  rw [h.owners "flow_by_uuid" (by simp [initial_key]),
    h.owners "flow_by_shortcode" (by simp [initial_key])]

private theorem flows (h : SameEntries k k') : SameFlows (.keys k) (.keys k') := by
  constructor
  · intro i
    change k'.getFlow i = k.getFlow i
    simp only [Keys.getFlow, h.checkConnected, h.resolve?, h.flow?, h.snapshots]
  · intro n
    change k'.liveRevision n = k.liveRevision n
    simp only [Keys.liveRevision, h.checkConnected, h.snapshots]
  · intro only
    change k'.activeFlows only = k.activeFlows only
    simp only [Keys.activeFlows, h.checkConnected, h.numbers, h.flow?, h.snapshots]

end SameEntries

/-- The reads of flows use no other entries. -/
theorem SpareFlows.flows {k : Keys} {server : Server} (h : SpareFlows k k.server server) :
    SameFlows (.keys k) (.keys { k with server }) := by
  have hsame : SameEntries k { k with server } := ⟨rfl, rfl, h⟩
  exact hsame.flows

private theorem writeRow_spareFlows {k : Keys} {id : Option String} {i : String} {row : ContextRow}
    {server : Server} (h : k.writeRow (k.contextKey id) i row = .ok server) :
    SpareFlows k k.server server := by
  have hput : SpareFlows k k.server (Table.put (k.contextKey id) (.context row) k.server) :=
    .put (by simp) (by simp) _
  unfold writeRow at h
  split at h
  · exact hput.trans (.addMember (by simp) (by simp) h)
  · exact hput.trans (.removeMember (by simp) (by simp) h)

private theorem fileRow_spareFlows {k : Keys} {i : String} {parent : Option String}
    {row : ContextRow} {server : Server} (h : k.fileRow i parent row = .ok server) :
    SpareFlows k k.server server := by
  simp only [fileRow, bind_eq_ok] at h
  obtain ⟨s₁, h₁, s₂, h₂, h₃⟩ := h
  have hput : SpareFlows k k.server (Table.put (k.contextKey (some i)) (.context row) k.server) :=
    .put (by simp) (by simp) _
  have hcontact := hput.trans (.addMember (by simp) (by simp) h₁)
  have hadopted : SpareFlows k s₁ s₂ := by
    unfold adopt at h₂
    split at h₂
    · exact .addMember (by simp) (by simp) h₂
    · cases h₂
      exact .refl
  refine (hcontact.trans hadopted).trans ?_
  unfold schedule at h₃
  split at h₃
  · exact .addMember (by simp) (by simp) h₃
  · cases h₃
    exact .refl

end Keys

/-! ## Writes of contexts -/

/-- An update of a context changes no flow. -/
theorem update_sameFlows {now : Moment} {fault id : Option String} {changes : List Context.Change}
    {expected : Option Int} {s s' : Store} {v : Int}
    (h : s.update now fault id changes expected = .ok (v, s')) : SameFlows s s' := by
  cases s with
  | memory m =>
    obtain ⟨m', hm, rfl⟩ := wrapped_eq_ok.mp h
    obtain ⟨_, _, _, _, _, _, _, rfl⟩ := Memory.update_eq_ok.mp hm
    exact ⟨fun _ => rfl, fun _ => rfl, fun _ => rfl⟩
  | rows r =>
    obtain ⟨r', hr, rfl⟩ := wrapped_eq_ok.mp h
    obtain ⟨_, _, _, _, _, _, _, _, _, rfl⟩ := Rows.update_eq_ok.mp hr
    exact ⟨fun _ => rfl, fun _ => rfl, fun _ => rfl⟩
  | keys k =>
    obtain ⟨k', hk, rfl⟩ := wrapped_eq_ok.mp h
    obtain ⟨_, _, i, row, server, _, _, _, _, _, hw, rfl⟩ := Keys.update_eq_ok.mp hk
    exact (Keys.writeRow_spareFlows hw).flows

/-- Nor does an insertion of one, whether it succeeds or fails. -/
theorem insert_sameFlows (fresh : String) (now : Moment) (s : Store) (c : Context) :
    Ensures (insert fresh now) ⟨s, c⟩ (fun _ g => SameFlows s g.state)
      (fun _ g => SameFlows s g.state) := by
  apply Ensures.bind
  apply Ensures.get
  cases s with
  | memory m =>
    apply within_ensures
    refine (Memory.insert_ensures fresh now m c).mono ?_ (fun _ _ h => .of_eq (congrArg _ h))
    rintro _ g ⟨_, _, hg⟩
    rw [hg]
    exact ⟨fun _ => rfl, fun _ => rfl, fun _ => rfl⟩
  | rows r =>
    apply within_ensures
    refine (Rows.insert_ensures fresh now r c).mono ?_ (fun _ _ h => .of_eq (congrArg _ h))
    rintro _ g ⟨_, row, _, _, hg⟩
    rw [hg]
    exact ⟨fun _ => rfl, fun _ => rfl, fun _ => rfl⟩
  | keys k =>
    apply within_ensures
    refine (Keys.insert_ensures fresh now k c).mono ?_ (fun _ _ h => .of_eq (congrArg _ h))
    rintro _ g ⟨_, _, server, hs, hg⟩
    rw [hg]
    exact (Keys.fileRow_spareFlows hs).flows

end DurableFlow.Store
