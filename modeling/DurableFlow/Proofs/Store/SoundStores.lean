import DurableFlow.Proofs.Store.ServerEntries
import DurableFlow.Proofs.Store.StoredRows

/-! Stores whose parts fit together: every row stands under its own id, and the sets of a server
list exactly the rows that wait and the rows of a parent. Insertions and updates keep stores sound. -/
namespace DurableFlow

/-! ## What changes leave alone -/

/-- Two states of a context that agree in all that changes leave alone. -/
structure Context.SameFrame (c c' : Context) : Prop where
  id : c'.id = c.id
  contact : c'.contact = c.contact
  flow : c'.flow = c.flow
  flowUuid : c'.flowUuid = c.flowUuid
  parent : c'.parent = c.parent
  inserted : c'.inserted = c.inserted
  index : c'.index = c.index

namespace Context.SameFrame

theorem refl {c : Context} : c.SameFrame c := ⟨rfl, rfl, rfl, rfl, rfl, rfl, rfl⟩

theorem trans {c c' c'' : Context} (h : c.SameFrame c') (h' : c'.SameFrame c'') :
    c.SameFrame c'' :=
  ⟨h'.id.trans h.id, h'.contact.trans h.contact, h'.flow.trans h.flow,
    h'.flowUuid.trans h.flowUuid, h'.parent.trans h.parent, h'.inserted.trans h.inserted,
    h'.index.trans h.index⟩

private theorem apply (c : Context) (ch : Change) : c.SameFrame (c.apply ch) := by
  cases ch <;> exact ⟨rfl, rfl, rfl, rfl, rfl, rfl, rfl⟩

theorem applyAll (c : Context) (changes : List Change) : c.SameFrame (c.applyAll changes) := by
  induction changes generalizing c with
  | nil => exact refl
  | cons ch rest ih => exact (apply c ch).trans (ih _)

/-- A row keeps its frame through an update. -/
theorem changed (k : Store.Kind) (changes : List Change) (now : Moment) (r : Context) :
    r.SameFrame (k.changed changes now r) := by
  obtain ⟨hid, hc, hf, hu, hp, ht, hi⟩ := applyAll r (changes.map k.change)
  exact ⟨hid, hc, hf, hu, hp, ht, hi⟩

end Context.SameFrame

namespace Table
variable {κ α : Type} [DecidableEq κ]

theorem mem_keys_put {key other : κ} {value : α} {table : List (κ × α)} :
    other ∈ (put key value table).map Prod.fst ↔ other = key ∨ other ∈ table.map Prod.fst := by
  induction table with
  | nil => simp [put]
  | cons e rest ih =>
    obtain ⟨k, v⟩ := e
    by_cases h : k = key
    · simp [put, h]
    · simp only [put, if_neg h, List.map_cons, List.mem_cons, ih]
      exact or_left_comm

/-- Whatever stands in a table after a put has been put, or stood there before. -/
theorem mem_put {key : κ} {value : α} {table : List (κ × α)} {x : κ × α}
    (h : x ∈ put key value table) : x = (key, value) ∨ x ∈ table := by
  induction table with
  | nil => simpa [put] using h
  | cons e rest ih =>
    obtain ⟨k, v⟩ := e
    rw [put] at h
    split at h
    · rename_i hk
      rcases List.mem_cons.mp h with rfl | hx
      · exact .inl (by rw [hk])
      · exact .inr (List.mem_cons_of_mem _ hx)
    · rcases List.mem_cons.mp h with rfl | hx
      · exact .inr List.mem_cons_self
      · exact (ih hx).imp id (List.mem_cons_of_mem _)

theorem nodup_keys_put {key : κ} {value : α} {table : List (κ × α)}
    (h : (table.map Prod.fst).Nodup) : ((put key value table).map Prod.fst).Nodup := by
  induction table with
  | nil => simp [put]
  | cons e rest ih =>
    obtain ⟨k, v⟩ := e
    rw [List.map_cons, List.nodup_cons] at h
    by_cases hk : k = key
    · subst hk
      rw [put, if_pos rfl, List.map_cons, List.nodup_cons]
      exact h
    · simp only [put, if_neg hk, List.map_cons, List.nodup_cons, mem_keys_put]
      exact ⟨fun hm => hm.elim hk h.1, ih h.2⟩

theorem find?_eq_some_of_mem {key : κ} {value : α} {table : List (κ × α)}
    (h : (table.map Prod.fst).Nodup) (hm : (key, value) ∈ table) :
    find? key table = some value := by
  induction table with
  | nil => simp at hm
  | cons e rest ih =>
    obtain ⟨k, v⟩ := e
    rw [List.map_cons, List.nodup_cons] at h
    rcases List.mem_cons.mp hm with he | hr
    · cases he
      simp [find?]
    · have hne : k ≠ key := by
        rintro rfl
        exact h.1 (List.mem_map.mpr ⟨_, hr, rfl⟩)
      simp only [find?, if_neg hne]
      exact ih h.2 hr

theorem mem_of_find?_eq_some {key : κ} {value : α} {table : List (κ × α)}
    (h : find? key table = some value) : (key, value) ∈ table := by
  induction table with
  | nil => cases h
  | cons e rest ih =>
    obtain ⟨k, v⟩ := e
    unfold find? at h
    split at h
    · rename_i hk
      cases h
      exact hk ▸ List.mem_cons_self
    · exact List.mem_cons_of_mem _ (ih h)

end Table

namespace Store

/-! ## Soundness -/

/-- In memory no id stands twice, and a row carries the id it stands under and no node index. -/
structure Memory.Sound (m : Memory) : Prop where
  keys : (m.contexts.map Prod.fst).Nodup
  ids : ∀ i c, Table.find? i m.contexts = some c → c.id = some i ∧ c.index = none

theorem Memory.Sound.of_entries {m : Memory} (hkeys : (m.contexts.map Prod.fst).Nodup)
    (hrows : ∀ x ∈ m.contexts, x.2.id = some x.1 ∧ x.2.index = none) : m.Sound :=
  ⟨hkeys, fun i c h => hrows (i, c) (Table.mem_of_find?_eq_some h)⟩

structure Rows.Sound (r : Rows) : Prop where
  ids : (r.contexts.map ContextRow.id).Nodup

/-- On a server a context key holds a row of its own id, the wakeup set lists the rows that wait,
each with the score of its wakeup time, and the set of a parent lists its rows once each. -/
structure Keys.Sound (k : Keys) : Prop where
  rows : ∀ i e, Table.find? (k.contextKey (some i)) k.server = some e →
    ∃ row, e = .context row ∧ row.id = i
  wakeups : ∃ set, k.server.members k.wakeupsKey = .ok set ∧ ∀ i x, (i, x) ∈ set ↔
    ∃ row, Table.find? (k.contextKey (some i)) k.server = some (.context row) ∧
      row.completed = none ∧ row.wakeup.map Scored.scoreOf = some x
  families : ∀ p, p ≠ "" → ∃ set, k.server.members (k.childrenKey (some p)) = .ok set ∧
    (set.map Prod.fst).Nodup ∧ ∀ i, i ∈ set.map Prod.fst ↔
      ∃ row, Table.find? (k.contextKey (some i)) k.server = some (.context row) ∧
        row.parent = some p

def Sound : Store → Prop
  | .memory m => m.Sound
  | .rows r => r.Sound
  | .keys k => k.Sound

/-! ## Updates -/

/-- The row under one id has taken changes, and nothing else has happened to the rows. -/
structure Changed (s : Store) (i : String) (changes : List Context.Change) (now : Moment)
    (r : Context) (s' : Store) : Prop where
  kind : s'.kind = s.kind
  connected : s'.isConnected = s.isConnected
  found : s.row? i = some r
  row : s'.row? i = some (s.kind.changed changes now r)
  others : ∀ j, j ≠ i → s'.row? j = s.row? j

private theorem find?_putContext (row : ContextRow) (r : Rows) (j : String) :
    (r.putContext row).contexts.find? (·.id = j) =
      if j = row.id then (r.contexts.find? (·.id = row.id)).map fun _ => row
      else r.contexts.find? (·.id = j) := by
  unfold Rows.putContext
  induction r.contexts with
  | nil => simp
  | cons x rest ih =>
    simp only [List.map_cons, List.find?_cons] at ih ⊢
    by_cases hx : x.id = row.id
    · by_cases hj : j = row.id
      · simp [hx, hj]
      · simp [hx, hj, Ne.symm hj, ih]
    · by_cases hj : j = row.id
      · simpa [hx, hj] using ih
      · simp [hx, hj, ih]

private theorem find?_some_id (contexts : List ContextRow) (id : Option String) :
    contexts.find? (fun x => some x.id = id) =
      id.bind fun i => contexts.find? (·.id = i) := by
  cases id <;> simp

private theorem update_rows {now : Moment} {id : Option String} {changes : List Context.Change}
    {expected : Option Int} {r r' : Rows} {v : Int}
    (h : r.update now id changes expected = .ok (v, r')) :
    ∃ i c, id = some i ∧ Changed (.rows r) i changes now c (.rows r') ∧
      v = c.version + 1 ∧ ∀ n, expected = some n → n = c.version := by
  obtain ⟨_, _, _, _, row, hrow, _, hv, rfl, rfl⟩ := Rows.update_eq_ok.mp h
  rw [find?_some_id] at hrow
  obtain ⟨i, rfl, hi⟩ := Option.bind_eq_some_iff.mp hrow
  have hid : row.id = i := by simpa using List.find?_some hi
  subst hid
  have hadv := context_advanced .rows Rows.textCell rfl rfl changes now row
  refine ⟨row.id, row.context, rfl, ⟨rfl, rfl, ?_, ?_, ?_⟩, rfl, hv⟩
  · simp only [row?, hi, Option.map_some]
  · simp only [row?, find?_putContext, advanced_id, hi, if_pos, Option.map_some, hadv, kind]
  · intro j hj
    simp only [row?, find?_putContext, advanced_id, if_neg hj]

theorem find?_writeRow {k : Keys} {i : String} {row : ContextRow} {server : Server}
    (h : k.writeRow (k.contextKey (some i)) i row = .ok server) {key : String}
    (hk : key ≠ k.wakeupsKey) :
    Table.find? key server =
      if k.contextKey (some i) = key then some (.context row) else Table.find? key k.server := by
  rw [← Table.find?_put]
  unfold Keys.writeRow at h
  split at h
  · exact Server.find?_addMember h hk
  · exact Server.find?_removeMember h hk

private theorem update_keys {now : Moment} {fault id : Option String}
    {changes : List Context.Change} {expected : Option Int} {k k' : Keys} {v : Int}
    (h : k.update now fault id changes expected = .ok (v, k')) :
    ∃ i c, id = some i ∧ Changed (.keys k) i changes now c (.keys k') ∧
      v = c.version + 1 ∧ ∀ n, expected = some n → n = c.version := by
  obtain ⟨_, _, i, row, server, rfl, hrow, _, hv, rfl, hs, rfl⟩ := Keys.update_eq_ok.mp h
  have hadv := context_advanced .keys Keys.fieldText rfl rfl changes now row
  have hkey (j : String) : ({ k with server } : Keys).contextKey (some j) = k.contextKey (some j) :=
    rfl
  have hfind (j : String) := find?_writeRow hs (k.contextKey_ne_wakeupsKey (some j))
  refine ⟨i, row.context, rfl, ⟨rfl, rfl, ?_, ?_, ?_⟩, rfl, hv⟩
  · simp only [row?, Server.context?_eq_some.mp hrow]
  · simp only [row?, hkey, hfind, if_pos, hadv, kind]
  · intro j hj
    have hne : k.contextKey (some i) ≠ k.contextKey (some j) := fun he =>
      hj (k.contextKey_inj he).symm
    simp only [row?, hkey, hfind, if_neg hne]

private theorem update_memory {now : Moment} {id : Option String} {changes : List Context.Change}
    {expected : Option Int} {m m' : Memory} {v : Int}
    (h : m.update now id changes expected = .ok (v, m')) :
    ∃ i c, id = some i ∧ Changed (.memory m) i changes now c (.memory m') ∧
      v = c.version + 1 ∧ ∀ n, expected = some n → n = c.version := by
  obtain ⟨i, c, rfl, hc, _, hv, rfl, rfl⟩ := Memory.update_eq_ok.mp h
  refine ⟨i, c, rfl, ⟨rfl, rfl, hc, ?_, ?_⟩, rfl, hv⟩
  · simp only [row?, Table.find?_put, if_pos, kind]
  · intro j hj
    simp only [row?, Table.find?_put, if_neg (Ne.symm hj)]

theorem wrapped_eq_ok {σ α : Type} {wrap : σ → Store} {r : Except Failure (α × σ)} {a : α}
    {s : Store} : wrapped wrap r = .ok (a, s) ↔ ∃ t, r = .ok (a, t) ∧ s = wrap t := by
  cases r with
  | error f => simp [wrapped, Except.map]
  | ok p =>
    obtain ⟨b, t⟩ := p
    simp only [wrapped, Except.map, Except.ok.injEq, Prod.mk.injEq]
    constructor
    · rintro ⟨rfl, rfl⟩
      exact ⟨t, ⟨rfl, rfl⟩, rfl⟩
    · rintro ⟨_, ⟨rfl, rfl⟩, rfl⟩
      exact ⟨rfl, rfl⟩

/-- An update that succeeds found the row at the expected version and moved it on by one. -/
theorem update_changed {now : Moment} {fault id : Option String} {changes : List Context.Change}
    {expected : Option Int} {s s' : Store} {v : Int}
    (h : s.update now fault id changes expected = .ok (v, s')) :
    ∃ i c, id = some i ∧ Changed s i changes now c s' ∧ v = c.version + 1 ∧
      ∀ n, expected = some n → n = c.version := by
  cases s with
  | memory m =>
    obtain ⟨m', hm, rfl⟩ := wrapped_eq_ok.mp h
    exact update_memory hm
  | rows r =>
    obtain ⟨r', hr, rfl⟩ := wrapped_eq_ok.mp h
    exact update_rows hr
  | keys k =>
    obtain ⟨k', hk, rfl⟩ := wrapped_eq_ok.mp h
    exact update_keys hk

theorem Memory.Sound.put {m : Memory} (h : m.Sound) {i : String} {c : Context}
    (hc : c.id = some i ∧ c.index = none) :
    ({ m with contexts := Table.put i c m.contexts } : Memory).Sound := by
  refine ⟨Table.nodup_keys_put h.keys, ?_⟩
  intro j d hd
  simp only [Table.find?_put] at hd
  split at hd
  · rename_i hij
    cases hd
    exact hij ▸ hc
  · exact h.ids j d hd

private theorem Rows.Sound.putContext {r : Rows} (h : r.Sound) (row : ContextRow) :
    (r.putContext row).Sound := by
  have hids : (r.putContext row).contexts.map ContextRow.id = r.contexts.map ContextRow.id := by
    simp only [Rows.putContext, List.map_map]
    apply List.map_congr_left
    intro x _
    by_cases hx : x.id = row.id <;> simp [hx]
  exact ⟨hids ▸ h.ids⟩

/-- A wakeup set follows the row that is written: it lists the row exactly when it waits. -/
theorem Keys.Sound.write {k : Keys} (h : k.Sound) {i : String} {row : ContextRow}
    (hid : row.id = i) {server : Server}
    (hfind : ∀ j, Table.find? (k.contextKey (some j)) server =
      if k.contextKey (some i) = k.contextKey (some j) then some (.context row)
      else Table.find? (k.contextKey (some j)) k.server)
    {set' : List (String × Int)} (hmem : server.members k.wakeupsKey = .ok set')
    (hset : ∀ set, k.server.members k.wakeupsKey = .ok set → ∀ j x, (j, x) ∈ set' ↔
      j ≠ i ∧ (j, x) ∈ set ∨ j = i ∧ row.completed = none ∧ row.wakeup.map Scored.scoreOf = some x)
    (hfamilies : ∀ p, p ≠ "" → ∃ set, server.members (k.childrenKey (some p)) = .ok set ∧
      (set.map Prod.fst).Nodup ∧ ∀ j, j ∈ set.map Prod.fst ↔
        ∃ row, Table.find? (k.contextKey (some j)) server = some (.context row) ∧
          row.parent = some p) :
    ({ k with server } : Keys).Sound := by
  have hkey (j : String) : ({ k with server } : Keys).contextKey (some j) = k.contextKey (some j) :=
    rfl
  constructor
  · intro j e he
    rw [hkey, hfind] at he
    split at he
    · rename_i hij
      cases he
      exact ⟨row, rfl, hid.trans (k.contextKey_inj hij)⟩
    · exact h.rows j e he
  · obtain ⟨set, hs, hiff⟩ := h.wakeups
    refine ⟨set', hmem, ?_⟩
    intro j x
    rw [hset set hs j x, hkey, hfind]
    by_cases hij : j = i
    · subst hij
      simp
    · have hne : k.contextKey (some i) ≠ k.contextKey (some j) := fun he =>
        hij (k.contextKey_inj he).symm
      rw [if_neg hne, hiff j x]
      simp [hij]
  · exact hfamilies

theorem mem_added {i j : String} {x t : Int} {set : List (String × Int)}
    {row : ContextRow} (hc : row.completed = none) (hw : row.wakeup = some t) :
    (j, x) ∈ Scored.add id i t set ↔
      j ≠ i ∧ (j, x) ∈ set ∨ j = i ∧ row.completed = none ∧
        row.wakeup.map Scored.scoreOf = some x := by
  rw [Scored.mem_add, Prod.mk.injEq]
  simp only [hc, hw, Option.map_some, Option.some.injEq, true_and]
  constructor
  · rintro (⟨hj, hx⟩ | ⟨hm, hj⟩)
    · exact .inr ⟨hj, hx.symm⟩
    · exact .inl ⟨hj, hm⟩
  · rintro (⟨hj, hm⟩ | ⟨hj, hx⟩)
    · exact .inr ⟨hm, hj⟩
    · exact .inl ⟨hj, hx.symm⟩

theorem waiting_iff {row : ContextRow} :
    (∃ t, row.isSuspended = true ∧ row.wakeup = some t) ↔
      row.completed = none ∧ row.wakeup.isSome := by
  cases hw : row.wakeup <;> simp [ContextRow.isSuspended, hw]

theorem isSome_of_map {α β : Type} {f : α → β} {o : Option α} {b : β}
    (h : o.map f = some b) : o.isSome := by
  cases o with
  | none => cases h
  | some a => rfl

private theorem Keys.Sound.families_writeRow {k : Keys} (h : k.Sound) {i : String}
    {old row : ContextRow} (hold : Table.find? (k.contextKey (some i)) k.server = some (.context old))
    (hparent : row.parent = old.parent) {server : Server}
    (hw : k.writeRow (k.contextKey (some i)) i row = .ok server) (p : String) (hp : p ≠ "") :
    ∃ set, server.members (k.childrenKey (some p)) = .ok set ∧ (set.map Prod.fst).Nodup ∧
      ∀ j, j ∈ set.map Prod.fst ↔
        ∃ row, Table.find? (k.contextKey (some j)) server = some (.context row) ∧
          row.parent = some p := by
  obtain ⟨set, hset, hnodup, hiff⟩ := h.families p hp
  have hsame : server.members (k.childrenKey (some p)) = .ok set := by
    rw [← hset]
    apply Server.members_congr
    rw [find?_writeRow hw (k.wakeupsKey_ne_childrenKey _).symm,
      if_neg (k.contextKey_ne_childrenKey _ _)]
  refine ⟨set, hsame, hnodup, ?_⟩
  intro j
  rw [hiff j, find?_writeRow hw (k.contextKey_ne_wakeupsKey (some j))]
  by_cases hij : k.contextKey (some i) = k.contextKey (some j)
  · rw [← hij, if_pos rfl, hold]
    simp [hparent]
  · rw [if_neg hij]

private theorem Keys.Sound.writeRow {k : Keys} (h : k.Sound) {i : String} {old row : ContextRow}
    (hold : Table.find? (k.contextKey (some i)) k.server = some (.context old))
    (hid : row.id = i) (hparent : row.parent = old.parent) {server : Server}
    (hw : k.writeRow (k.contextKey (some i)) i row = .ok server) :
    ({ k with server } : Keys).Sound := by
  have hfamilies := h.families_writeRow hold hparent hw
  have hbefore : Server.members k.wakeupsKey
      (Table.put (k.contextKey (some i)) (.context row) k.server) =
        k.server.members k.wakeupsKey := by
    apply Server.members_congr
    rw [Table.find?_put, if_neg (k.contextKey_ne_wakeupsKey _)]
  have hfind (j : String) := find?_writeRow hw (k.contextKey_ne_wakeupsKey (some j))
  unfold Keys.writeRow at hw
  split at hw
  · rename_i t hsus hwake
    obtain ⟨set, hset, hmem⟩ := Server.members_addMember hw
    rw [hbefore] at hset
    refine Keys.Sound.write h hid hfind hmem ?_ hfamilies
    intro set₀ hset₀ j x
    have hsame : set = set₀ := by simpa [hset] using hset₀
    exact hsame ▸ mem_added (waiting_iff.mp ⟨t, hsus, hwake⟩).1 hwake
  · rename_i hnot
    obtain ⟨set, hset, hmem⟩ := Server.members_removeMember hw
    rw [hbefore] at hset
    refine Keys.Sound.write h hid hfind hmem ?_ hfamilies
    intro set₀ hset₀ j x
    have hsame : set = set₀ := by simpa [hset] using hset₀
    subst hsame
    rw [Scored.mem_remove]
    constructor
    · exact fun hm => .inl ⟨hm.2, hm.1⟩
    · rintro (⟨hj, hm⟩ | ⟨_, hc, hx⟩)
      · exact ⟨hm, hj⟩
      · obtain ⟨t, hs, ht⟩ := waiting_iff.mpr ⟨hc, isSome_of_map hx⟩
        exact absurd ht (hnot t hs)

/-- An update keeps a store sound. -/
theorem Sound.update {now : Moment} {fault id : Option String} {changes : List Context.Change}
    {expected : Option Int} {s s' : Store} {v : Int} (hs : s.Sound)
    (h : s.update now fault id changes expected = .ok (v, s')) : s'.Sound := by
  cases s with
  | memory m =>
    obtain ⟨m', hm, rfl⟩ := wrapped_eq_ok.mp h
    obtain ⟨i, c, rfl, hc, _, _, rfl, rfl⟩ := Memory.update_eq_ok.mp hm
    have hf := Context.SameFrame.changed .memory changes now c
    have hi := Memory.Sound.ids hs i c hc
    exact Memory.Sound.put hs ⟨hf.id.trans hi.1, hf.index.trans hi.2⟩
  | rows r =>
    obtain ⟨r', hr, rfl⟩ := wrapped_eq_ok.mp h
    obtain ⟨_, _, _, _, row, _, _, _, rfl, rfl⟩ := Rows.update_eq_ok.mp hr
    exact Rows.Sound.putContext hs _
  | keys k =>
    obtain ⟨k', hk, rfl⟩ := wrapped_eq_ok.mp h
    obtain ⟨_, _, i, row, server, rfl, hrow, _, _, rfl, hw, rfl⟩ := Keys.update_eq_ok.mp hk
    have hold := Server.context?_eq_some.mp hrow
    obtain ⟨row', he, hid⟩ := Keys.Sound.rows hs i _ hold
    cases he
    exact Keys.Sound.writeRow hs hold ((advanced_id _ _ _ _).trans hid) (advanced_parent _ _ _ _) hw

/-! ## Stores without contexts -/

def Vacant : Store → Prop
  | .memory m => m.contexts = []
  | .rows r => r.contexts = []
  | .keys k => (∀ i, Table.find? (k.contextKey (some i)) k.server = none) ∧
      k.server.members k.wakeupsKey = .ok [] ∧
      ∀ p, k.server.members (k.childrenKey (some p)) = .ok []

theorem Vacant.row?_eq_none {s : Store} (hv : s.Vacant) (i : String) : s.row? i = none := by
  cases s with
  | memory m =>
    have hm : m.contexts = [] := hv
    simp only [row?, hm, Table.find?]
  | rows r =>
    have hr : r.contexts = [] := hv
    simp only [row?, hr, List.find?_nil, Option.map_none]
  | keys k => simp only [row?, hv.1 i]

theorem Vacant.sound {s : Store} (hv : s.Vacant) : s.Sound := by
  cases s with
  | memory m =>
    have hm : m.contexts = [] := hv
    refine ⟨by simp [hm], ?_⟩
    intro i c hi
    rw [hm] at hi
    cases hi
  | rows r =>
    have hr : r.contexts = [] := hv
    exact ⟨by simp [hr]⟩
  | keys k =>
    obtain ⟨hnone, hset, hchildren⟩ := hv
    constructor
    · intro i e he
      rw [hnone i] at he
      cases he
    · refine ⟨[], hset, ?_⟩
      intro i x
      constructor
      · intro hm
        cases hm
      · rintro ⟨row, hrow, _⟩
        rw [hnone i] at hrow
        cases hrow
    · intro p _
      refine ⟨[], hchildren p, List.nodup_nil, ?_⟩
      intro i
      constructor
      · intro hm
        cases hm
      · rintro ⟨row, hrow, _⟩
        rw [hnone i] at hrow
        cases hrow

end Store
end DurableFlow
