import DurableFlow.Proofs.Store.SoundStores

/-! Insertions. A context that is filed gets a row of its own, and a place in the set of its parent;
no other row is touched, and a sound store stays sound. -/
namespace DurableFlow.Store
open DurableFlow.Action (Ensures)

/-- A context has been filed under an id, and nothing else has happened to the rows. -/
structure Filed (s : Store) (i : String) (c : Context) (s' : Store) : Prop where
  kind : s'.kind = s.kind
  connected : s'.isConnected = s.isConnected
  row : s'.row? i = some (s.kind.filed c)
  others : ∀ j, j ≠ i → s'.row? j = s.row? j

private theorem textCell_of_cell {v w : Json} (h : Rows.cell v = .ok w) :
    Rows.textCell w = Rows.textCell v := by
  unfold Rows.cell at h
  split at h
  · cases h
  · cases h
  · cases h
    rename_i b
    cases b <;> rfl
  · rename_i n
    cases hn : Rows.checkSize n <;> simp only [hn, Except.map] at h <;> cases h
    rfl
  · cases h
    rfl

private theorem presentText_eq_ok {id column s : String} {v : Option String} :
    Rows.presentText id column v = .ok s ↔ v = some s := by
  cases v <;> simp [Rows.presentText]

private theorem context_contextRow {c : Context} {i : String} {row : ContextRow}
    (hi : c.id = some i) (h : Rows.contextRow c = .ok row) :
    row.id = i ∧ row.context = Kind.rows.filed c := by
  simp only [Rows.contextRow, bind_eq_ok, presentText_eq_ok] at h
  obtain ⟨contact, hcontact, _, _, node, hnode, _, _, flowUuid, hflow, _, _, h⟩ := h
  cases h
  have hc : Kind.rows.contact c.contact = Rows.integerCell contact := by
    simp only [Kind.contact, hcontact, Except.toOption, Option.getD_some]
  refine ⟨by simp [hi], ?_⟩
  simp only [ContextRow.context, Kind.filed, hc, Kind.node, textCell_of_cell hnode, hflow, hi,
    Option.getD_some, Option.map_map]
  rfl

private theorem context_keys_contextRow {c : Context} {i : String} (hi : c.id = some i) :
    (Keys.contextRow c).context = Kind.keys.filed c := by
  simp only [Keys.contextRow, ContextRow.context, Kind.filed, Kind.contact, Kind.node, hi,
    Option.getD_some, Option.map_map, if_pos]
  rfl

private theorem insert_rows (fresh : String) (now : Moment) (r : Rows) (c : Context) :
    Ensures (Rows.insert fresh now) ⟨r, c⟩
      (fun _ g => g.held = (c.named fresh).stamped now ∧
        Filed (.rows r) (c.id.getD fresh) g.held (.rows g.state) ∧
        (r.Sound → g.state.Sound) ∧ (Store.rows r).row? (c.id.getD fresh) = none)
      (fun _ g => g.state = r) := by
  apply (Rows.insert_ensures fresh now r c).mono
  · rintro _ ⟨state, held⟩ ⟨rfl, row, hrow, hfree, rfl⟩
    obtain ⟨hid, hctx⟩ := context_contextRow (i := c.id.getD fresh) rfl hrow
    have hnone : r.contexts.find? (·.id = c.id.getD fresh) = none := by
      unfold Rows.checkFree at hfree
      split at hfree
      · cases hfree
      · rename_i hany
        simpa [hid] using hany
    refine ⟨rfl, ⟨rfl, rfl, ?_, ?_⟩, ?_, ?_⟩
    · simp only [row?, List.find?_append, hnone, hid, List.find?_cons]
      simp [hctx, kind]
    · intro j hj
      simp [row?, List.find?_append, hid, Ne.symm hj]
    · intro h
      refine ⟨?_⟩
      have hm : row.id ∉ r.contexts.map ContextRow.id := by
        rw [hid]
        simpa using hnone
      simpa [List.nodup_append] using ⟨h.ids, fun x hx he => hm (List.mem_map.mpr ⟨x, hx, he⟩)⟩
    · simp only [row?, hnone, Option.map_none]
  · intro _ _ h
    exact h

private theorem insert_memory (fresh : String) (now : Moment) (m : Memory) (c : Context) :
    Ensures (Memory.insert fresh now) ⟨m, c⟩
      (fun _ g => g.held = (c.named fresh).stamped now ∧
        Filed (.memory m) (c.id.getD fresh) g.held (.memory g.state) ∧
        (m.Sound → g.state.Sound) ∧
        (c.id.isSome → (Store.memory m).row? (c.id.getD fresh) = none))
      (fun _ g => g.state = m) := by
  apply (Memory.insert_ensures fresh now m c).mono
  · rintro _ ⟨state, held⟩ ⟨hfree, hheld, hstate⟩
    dsimp only at hheld hstate
    subst hheld hstate
    have hfiled : ((c.named fresh).stamped now).unbound =
        Kind.memory.filed ((c.named fresh).stamped now) := by
      simp [Kind.filed, Kind.contact, Kind.node, memory_time, Context.unbound]
    refine ⟨rfl, ⟨rfl, rfl, ?_, ?_⟩, ?_, ?_⟩
    · simp only [row?, Table.find?_put, if_pos, hfiled, kind]
    · intro j hj
      simp only [row?, Table.find?_put, if_neg (Ne.symm hj)]
    · exact fun h => Memory.Sound.put h ⟨rfl, rfl⟩
    · intro hid
      obtain ⟨i, hi⟩ := Option.isSome_iff_exists.mp hid
      simp only [Memory.checkFree, hi] at hfree
      split at hfree
      · cases hfree
      · rename_i hn
        simpa [row?, hi] using hn
  · intro _ _ h
    exact h

theorem fileRow_eq_ok {k : Keys} {i : String} {parent : Option String} {row : ContextRow}
    {server : Server} (h : k.fileRow i parent row = .ok server) :
    ∃ s, (∀ j, Table.find? (k.contextKey (some j)) s =
        if k.contextKey (some i) = k.contextKey (some j) then some (.context row)
        else Table.find? (k.contextKey (some j)) k.server) ∧
      Server.members k.wakeupsKey s = k.server.members k.wakeupsKey ∧
      (∀ p set, k.server.members (k.childrenKey (some p)) = .ok set →
        Server.members (k.childrenKey (some p)) s =
          .ok (if parent = some p then Scored.add id i row.inserted set else set)) ∧
      k.schedule i row s = .ok server := by
  simp only [Keys.fileRow, bind_eq_ok] at h
  obtain ⟨s₁, h₁, s₂, h₂, h₃⟩ := h
  have hother (key : String) (hk : ∀ p, parent = some p → key ≠ k.childrenKey (some p)) :
      Table.find? key s₂ = Table.find? key s₁ := by
    unfold Keys.adopt at h₂
    split at h₂
    · rename_i hp
      obtain ⟨p, rfl⟩ := Option.isSome_iff_exists.mp hp
      exact Server.find?_addMember h₂ (hk p rfl)
    · cases h₂
      rfl
  refine ⟨s₂, ?_, ?_, ?_, h₃⟩
  · intro j
    rw [hother _ fun p _ => k.contextKey_ne_childrenKey _ _,
      Server.find?_addMember h₁ (k.contextKey_ne_contactKey _ _), Table.find?_put]
  · apply Server.members_congr
    rw [hother _ fun p _ => k.wakeupsKey_ne_childrenKey _,
      Server.find?_addMember h₁ (k.wakeupsKey_ne_contactKey _), Table.find?_put,
      if_neg (k.contextKey_ne_wakeupsKey _)]
  · intro p set hset
    have hbefore : Server.members (k.childrenKey (some p)) s₁ = .ok set := by
      rw [← hset]
      apply Server.members_congr
      rw [Server.find?_addMember h₁ (k.childrenKey_ne_contactKey _ _), Table.find?_put,
        if_neg (k.contextKey_ne_childrenKey _ _)]
    by_cases hp : parent = some p
    · subst hp
      obtain ⟨set', hset', hmem⟩ := Server.members_addMember h₂
      rw [hbefore] at hset'
      cases hset'
      rw [if_pos rfl, hmem]
    · rw [if_neg hp, ← hbefore]
      apply Server.members_congr
      apply hother
      rintro q hq he
      exact hp (hq.trans (congrArg some (k.childrenKey_inj he).symm))

theorem find?_schedule {k : Keys} {i : String} {row : ContextRow} {s server : Server}
    (h : k.schedule i row s = .ok server) {key : String} (hk : key ≠ k.wakeupsKey) :
    Table.find? key server = Table.find? key s := by
  unfold Keys.schedule at h
  split at h
  · exact Server.find?_addMember h hk
  · cases h
    rfl

private theorem Keys.Sound.families_fileRow {k : Keys} (h : k.Sound) {i : String}
    {parent : Option String} {row : ContextRow} (hparent : row.parent = parent.filter (· ≠ ""))
    (hfree : Table.find? (k.contextKey (some i)) k.server = none) {server : Server}
    (hf : k.fileRow i parent row = .ok server) (p : String) (hp : p ≠ "") :
    ∃ set, server.members (k.childrenKey (some p)) = .ok set ∧ (set.map Prod.fst).Nodup ∧
      ∀ j, j ∈ set.map Prod.fst ↔
        ∃ row, Table.find? (k.contextKey (some j)) server = some (.context row) ∧
          row.parent = some p := by
  obtain ⟨s, hrows, _, hsets, hs⟩ := fileRow_eq_ok hf
  obtain ⟨set, hset, hnodup, hiff⟩ := h.families p hp
  have hmem : server.members (k.childrenKey (some p)) =
      .ok (if parent = some p then Scored.add id i row.inserted set else set) := by
    rw [← hsets p set hset]
    exact Server.members_congr (find?_schedule hs (k.wakeupsKey_ne_childrenKey _).symm)
  have hrow : row.parent = some p ↔ parent = some p := by
    cases parent with
    | none => simp [hparent]
    | some q =>
      by_cases hq : q = ""
      · simp [hparent, hq, Ne.symm hp]
      · simp [hparent, Option.filter, hq]
  refine ⟨_, hmem, ?_, ?_⟩
  · split
    · exact Scored.nodup_names_add _ _ _ hnodup
    · exact hnodup
  · intro j
    rw [find?_schedule hs (k.contextKey_ne_wakeupsKey (some j)), hrows j]
    by_cases hij : k.contextKey (some i) = k.contextKey (some j)
    · have := k.contextKey_inj hij
      subst this
      have hnot : i ∉ set.map Prod.fst := by
        intro hm
        obtain ⟨r, hr, _⟩ := (hiff i).mp hm
        rw [hfree] at hr
        cases hr
      by_cases hpar : parent = some p
      · simp [hrow.mpr hpar, hpar, Scored.mem_names_add]
      · simp only [hpar, if_false, if_pos, hnot, Option.some.injEq,
          Entry.context.injEq, exists_eq_left', hrow]
    · have hne : j ≠ i := by
        rintro rfl
        exact hij rfl
      rw [if_neg hij, ← hiff j]
      by_cases hpar : parent = some p
      · simp only [hpar, if_pos, Scored.mem_names_add, hne, false_or]
      · simp only [hpar, if_false]

private theorem Keys.Sound.fileRow {k : Keys} (h : k.Sound) {i : String} {parent : Option String}
    {row : ContextRow} (hid : row.id = i) (hparent : row.parent = parent.filter (· ≠ ""))
    (hfree : Table.find? (k.contextKey (some i)) k.server = none) {server : Server}
    (hf : k.fileRow i parent row = .ok server) : ({ k with server } : Keys).Sound := by
  have hfamilies := h.families_fileRow hparent hfree hf
  obtain ⟨s, hrows, hbefore, _, hs⟩ := fileRow_eq_ok hf
  have hfind (j : String) :=
    (find?_schedule hs (k.contextKey_ne_wakeupsKey (some j))).trans (hrows j)
  unfold Keys.schedule at hs
  split at hs
  · rename_i t hsus hwake
    obtain ⟨set, hset, hmem⟩ := Server.members_addMember hs
    rw [hbefore] at hset
    refine Keys.Sound.write h hid hfind hmem ?_ hfamilies
    intro set₀ hset₀ j x
    have hsame : set = set₀ := by simpa [hset] using hset₀
    exact hsame ▸ mem_added (waiting_iff.mp ⟨t, hsus, hwake⟩).1 hwake
  · rename_i hnot
    cases hs
    obtain ⟨set, hset, hiff⟩ := h.wakeups
    refine Keys.Sound.write h hid hfind (hbefore.trans hset) ?_ hfamilies
    intro set₀ hset₀ j x
    have hsame : set = set₀ := by simpa [hset] using hset₀
    subst hsame
    constructor
    · intro hm
      refine .inl ⟨?_, hm⟩
      rintro rfl
      obtain ⟨r, hr, _⟩ := (hiff j x).mp hm
      rw [hfree] at hr
      cases hr
    · rintro (⟨_, hm⟩ | ⟨_, hc, hx⟩)
      · exact hm
      · obtain ⟨t, hs, ht⟩ := waiting_iff.mpr ⟨hc, isSome_of_map hx⟩
        exact absurd ht (hnot t hs)

theorem insert_keys (fresh : String) (now : Moment) (k : Keys) (c : Context) :
    Ensures (Keys.insert fresh now) ⟨k, c⟩
      (fun _ g => g.held = (c.named fresh).stamped now ∧
        Filed (.keys k) (c.id.getD fresh) g.held (.keys g.state) ∧
        (k.Sound → g.state.Sound) ∧ (Store.keys k).row? (c.id.getD fresh) = none)
      (fun _ g => g.state = k) := by
  apply (Keys.insert_ensures fresh now k c).mono
  · rintro _ ⟨state, held⟩ ⟨rfl, hfree, server, hserver, rfl⟩
    have hnone : Table.find? (k.contextKey (some (c.id.getD fresh))) k.server = none := by
      unfold Keys.checkFree Server.holds at hfree
      split at hfree
      · cases hfree
      · rename_i hn
        simpa using hn
    have hctx : (Keys.contextRow ((c.named fresh).stamped now)).context =
        Kind.keys.filed ((c.named fresh).stamped now) := context_keys_contextRow rfl
    obtain ⟨s, hrows, _, _, hs⟩ := fileRow_eq_ok hserver
    have hfind (j : String) :=
      (find?_schedule hs (k.contextKey_ne_wakeupsKey (some j))).trans (hrows j)
    have hkey (j : String) :
        ({ k with server } : Keys).contextKey (some j) = k.contextKey (some j) := rfl
    refine ⟨rfl, ⟨rfl, rfl, ?_, ?_⟩, ?_, ?_⟩
    · simp only [row?, hkey, hfind, if_pos, hctx, kind]
    · intro j hj
      have hne : k.contextKey (some (c.id.getD fresh)) ≠ k.contextKey (some j) := fun he =>
        hj (k.contextKey_inj he).symm
      simp only [row?, hkey, hfind, if_neg hne]
    · exact fun h => Keys.Sound.fileRow h rfl rfl hnone hserver
    · simp only [row?, hnone]
  · intro _ _ h
    exact h

/-- An operation of one kind of store does the same within a store of any kind. -/
theorem within_ensures {σ κ : Type} {wrap : σ → Store} {t : σ}
    {act : Action (Holding σ κ) Unit} {c : κ} {post : Unit → Holding Store κ → Prop}
    {fails : Failure → Holding Store κ → Prop} (h : Ensures act ⟨t, c⟩
      (fun a g => post a ⟨wrap g.state, g.held⟩) (fun f g => fails f ⟨wrap g.state, g.held⟩)) :
    Ensures (within wrap t act) ⟨wrap t, c⟩ post fails := by
  unfold Ensures within at *
  cases he : act ⟨t, c⟩ with
  | ok a g =>
    rw [he] at h
    exact h
  | error f g =>
    rw [he] at h
    exact h

/-- An insertion that succeeds files the held context, stamped, under its own id or the fresh one.
In memory a fresh id is not looked up; elsewhere, and with an id of its own, it must be free. An
insertion that fails leaves the store alone. -/
theorem insert_ensures (fresh : String) (now : Moment) (s : Store) (c : Context) :
    Ensures (Store.insert fresh now) ⟨s, c⟩
      (fun _ g => g.held = (c.named fresh).stamped now ∧
        Filed s (c.id.getD fresh) g.held g.state ∧ (s.Sound → g.state.Sound) ∧
        (s.kind ≠ .memory ∨ c.id.isSome → s.row? (c.id.getD fresh) = none))
      (fun _ g => g.state = s) := by
  cases s with
  | memory m =>
    exact within_ensures ((insert_memory fresh now m c).mono
      (fun _ _ ⟨hh, hf, hs, hn⟩ => ⟨hh, hf, hs, fun h => hn (h.resolve_left (fun hk => hk rfl))⟩)
      (fun _ _ h => congrArg Store.memory h))
  | rows r =>
    exact within_ensures ((insert_rows fresh now r c).mono
      (fun _ _ ⟨hh, hf, hs, hn⟩ => ⟨hh, hf, hs, fun _ => hn⟩) (fun _ _ h => congrArg Store.rows h))
  | keys k =>
    exact within_ensures ((insert_keys fresh now k c).mono
      (fun _ _ ⟨hh, hf, hs, hn⟩ => ⟨hh, hf, hs, fun _ => hn⟩) (fun _ _ h => congrArg Store.keys h))

end DurableFlow.Store
