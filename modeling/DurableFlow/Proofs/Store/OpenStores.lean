import DurableFlow.Proofs.Store.TimelyRuns

/-! Stores in tables and on servers that answer callers of the declared types: an insertion under a
free id succeeds, every row can be read, and a scan finds all rows that are due. -/
namespace DurableFlow

/-- A context of the declared types under an id of its own. Contacts and flows have at most 64 bits,
and a context that has a parent names it. -/
structure Context.Storable (i : String) (c : Context) : Prop where
  id : c.id = some i
  contact : ∃ n : Int, c.contact = .int n ∧ IsWord n
  flow : IsWord c.flow
  flowUuid : ∃ uuid, c.flowUuid = some uuid
  node : ∃ name, c.node = .string name
  parent : c.parent ≠ some ""
  wakeup : ∀ t, c.wakeup = some t → t.IsShown
  completed : ∀ t, c.completed = some t → t.IsShown

namespace Store
variable {s : Store} {k : Keys} {i key member fresh : String} {parent : Option String}
  {row : ContextRow} {c r : Context} {t now : Moment} {server server' : Server}

/-! ## Sets on a server -/

def Server.HoldsSet (key : String) (server : Server) : Prop := ∃ set, server.members key = .ok set

namespace Server.HoldsSet

theorem put (h : server.HoldsSet key) {other : String} (hne : other ≠ key) (e : Entry) :
    HoldsSet key (Table.put other e server) := by
  obtain ⟨set, hset⟩ := h
  refine ⟨set, (members_congr ?_).trans hset⟩
  rw [Table.find?_put, if_neg hne]

theorem addMember (h : server.HoldsSet key) {other : String} {score : Int}
    (ha : server.addMember other member score = .ok server') : server'.HoldsSet key := by
  by_cases hk : key = other
  · subst hk
    obtain ⟨set, -, hset⟩ := members_addMember ha
    exact ⟨_, hset⟩
  · obtain ⟨set, hset⟩ := h
    exact ⟨set, (members_congr (find?_addMember ha hk)).trans hset⟩

theorem removeMember (h : server.HoldsSet key) {other : String}
    (hr : server.removeMember other member = .ok server') : server'.HoldsSet key := by
  by_cases hk : key = other
  · subst hk
    obtain ⟨set, -, hset⟩ := members_removeMember hr
    exact ⟨_, hset⟩
  · obtain ⟨set, hset⟩ := h
    exact ⟨set, (members_congr (find?_removeMember hr hk)).trans hset⟩

theorem adopt (h : server.HoldsSet key) {inserted : Int}
    (ha : k.adopt i parent inserted server = .ok server') : server'.HoldsSet key := by
  unfold Keys.adopt at ha
  split at ha
  · exact h.addMember ha
  · cases ha
    exact h

theorem schedule (h : server.HoldsSet key) (hs : k.schedule i row server = .ok server') :
    server'.HoldsSet key := by
  unfold Keys.schedule at hs
  split at hs
  · exact h.addMember hs
  · cases hs
    exact h

/-- A row is filed under the key of its context; sets stay under all other keys. -/
theorem fileRow (h : k.server.HoldsSet key) (hne : k.contextKey (some i) ≠ key)
    (hf : k.fileRow i parent row = .ok server) : server.HoldsSet key := by
  obtain ⟨_, hcontact, hf⟩ := bind_eq_ok.mp hf
  obtain ⟨_, hadopt, hschedule⟩ := bind_eq_ok.mp hf
  exact (((h.put hne _).addMember hcontact).adopt hadopt).schedule hschedule

theorem writeRow (h : k.server.HoldsSet key) (hne : k.contextKey (some i) ≠ key)
    (hw : k.writeRow (k.contextKey (some i)) i row = .ok server) : server.HoldsSet key := by
  unfold Keys.writeRow at hw
  split at hw
  · exact (h.put hne _).addMember hw
  · exact (h.put hne _).removeMember hw

end Server.HoldsSet

structure Keys.Enrols (k : Keys) : Prop extends k.Timed where
  contacts : ∀ contact, k.server.HoldsSet (k.contactKey contact)

private theorem Keys.Enrols.perform (h : k.Enrols) {call : Call} (hc : call.IsTyped) :
    ∃ k' : Keys, (call.perform (.keys k)).2 = .keys k' ∧ k'.Enrols := by
  obtain ⟨k', hk', htimed⟩ := h.toTimed.perform hc
  refine ⟨k', hk', htimed, fun contact => ?_⟩
  obtain hsame | ⟨fresh, now, c, g, -, hi, hg⟩ |
    ⟨now, fault, id, changes, expected, v, k'', -, hu, hk⟩ := perform_keys call k
  · cases hk'.symm.trans hsame
    exact h.contacts contact
  · cases hk'.symm.trans hg
    obtain ⟨-, -, server, hf, hstate⟩ := (Keys.insert_ensures fresh now k c).of_eq_ok hi
    rw [hstate]
    exact (h.contacts contact).fileRow (k.contextKey_ne_contactKey _ _) hf
  · cases hk'.symm.trans hk
    obtain ⟨-, -, i, row, server, -, -, -, -, -, hw, rfl⟩ := Keys.update_eq_ok.mp hu
    exact (h.contacts contact).writeRow (k.contextKey_ne_contactKey _ _) hw

/-! ## Open stores -/

/-- A store outside of memory that answers: connected and sound, and on a server with typed rows and
all sets in place. -/
structure Open (s : Store) : Prop where
  durable : s.kind ≠ .memory
  connected : s.isConnected = true
  sound : s.Sound
  served : ∀ k, s = .keys k → k.Enrols

/-- A store that holds no context, and on a server no set of a contact either. -/
structure Blank (s : Store) : Prop where
  vacant : s.Vacant
  contacts : ∀ k, s = .keys k → ∀ contact, k.server.members (k.contactKey contact) = .ok []

theorem Blank.opened (hb : s.Blank) (hc : s.isConnected = true) (hk : s.kind ≠ .memory) :
    s.Open where
  durable := hk
  connected := hc
  sound := hb.vacant.sound
  served k hs := by
    subst hs
    exact ⟨timed_of_vacant hb.vacant hc, fun contact => ⟨[], hb.contacts k rfl contact⟩⟩

/-- A call of the declared types leaves a store open. -/
theorem Open.step {h : History} (ho : h.store.Open) {call : Call} (hc : call.IsTyped) :
    (h.step call).store.Open := by
  obtain ⟨hkind, hconnected, hsound⟩ := perform_spares call h.store
  refine ⟨hkind ▸ ho.durable, hconnected.trans ho.connected, hsound ho.sound, fun k' hs => ?_⟩
  have hs : (call.perform h.store).2 = .keys k' := hs
  cases hstore : h.store with
  | memory m => exact absurd (congrArg kind hstore) ho.durable
  | rows r =>
    rw [hs, hstore] at hkind
    cases hkind
  | keys k =>
    obtain ⟨k'', hs', henrols⟩ := (ho.served k hstore).perform hc
    rw [← hstore] at hs'
    cases hs.symm.trans hs'
    exact henrols

theorem Open.run {h : History} (ho : h.store.Open) {calls : List Call}
    (hc : ∀ call ∈ calls, call.IsTyped) : (h.run calls).store.Open := by
  induction calls generalizing h with
  | nil => exact ho
  | cons call rest ih =>
    obtain ⟨hcall, hrest⟩ := List.forall_mem_cons.mp hc
    exact ih (ho.step hcall) hrest

/-! ## Reads -/

theorem Open.getContext (ho : s.Open) (hr : s.row? i = some r) :
    s.getContext (some i) = r.dated.map some := by
  cases s with
  | memory m => exact absurd rfl ho.durable
  | rows t =>
    have hconnected : t.checkConnected = .ok () := Rows.checkConnected_eq_ok.mpr ho.connected
    obtain ⟨row, hrow, rfl⟩ := Option.map_eq_some_iff.mp hr
    change t.getContext (some i) = _
    simp only [Rows.getContext, hconnected, Option.some.injEq, hrow, Option.mapM_some]
    rfl
  | keys k =>
    have hconnected : k.checkConnected = .ok () := Keys.checkConnected_eq_ok.mpr ho.connected
    change k.getContext (some i) = _
    simp only [Keys.getContext, hconnected, contextAt_row (ho.served k rfl).toTimed hr]
    rfl

/-- A scan without a limit finds every open context whose time has come, if it can read them all. -/
theorem Open.due (ho : s.Open) (ht : t.IsShown) (hl : s.LegibleBy t) :
    ∃ cs, s.due (some t) .null = .ok cs ∧
      ∀ i r, s.row? i = some r → r.completed = none → Come t r → r ∈ cs := by
  have hall (cs : List Context) : cs.take ((none : Option Nat).getD cs.length) = cs := List.take_length
  have hall' : (s.queue t).mapM Context.dated = .ok (s.queue t) :=
    mapM_dated_eq_ok.mpr ⟨hl ho.durable, rfl⟩
  have htakes (s : Store) : s.Takes none := fun _ _ h => by cases h
  have hfinds (hq : Queued t s) (i : String) (r : Context) (hr : s.row? i = some r)
      (hopen : r.completed = none) (hcome : Come t r) : r ∈ s.queue t :=
    (hq.members r).mpr ⟨i, hr, hopen, hcome⟩
  cases s with
  | memory m => exact absurd rfl ho.durable
  | rows r =>
    have hq := rows_queued ho.sound t
    have hdue : (Store.rows r).due (some t) .null = _ :=
      rows_due ho.connected (htakes (.rows r))
    rw [hall, hall'] at hdue
    exact ⟨_, hdue, hfinds hq⟩
  | keys k =>
    have htimed := (ho.served k rfl).toTimed
    have hq := keys_queued htimed ht
    have hdue : (Store.keys k).due (some t) .null = _ :=
      keys_due htimed ht (htakes (.keys k))
    rw [hall, hall'] at hdue
    exact ⟨_, hdue, hfinds hq⟩

/-! ## Insertions -/

private theorem contextRow_storable (hc : c.Storable i) (fresh : String) (now : Moment) :
    ∃ row, Rows.contextRow ((c.named fresh).stamped now) = .ok row ∧ row.id = i := by
  obtain ⟨n, hn, hsize⟩ := hc.contact
  obtain ⟨uuid, huuid⟩ := hc.flowUuid
  obtain ⟨name, hname⟩ := hc.node
  have hcontact : Rows.cell (.int n) = .ok (.int n) := by
    simp only [Rows.cell, Rows.checkSize_eq_ok hsize, Except.map]
  simp only [Rows.contextRow, Context.stamped, Context.named, hn, hcontact, hname, huuid, hc.id,
    Rows.checkSize_eq_ok hc.flow]
  exact ⟨_, rfl, rfl⟩

private theorem rows_insert {r : Rows} (hr : r.connected = true) (hc : c.Storable i)
    (hfree : (Store.rows r).row? i = none) :
    ∃ g, Store.insert fresh now ⟨.rows r, c⟩ = .ok () g := by
  obtain ⟨row, hrow, hid⟩ := contextRow_storable hc fresh now
  have hnone : r.contexts.find? (·.id = i) = none := Option.map_eq_none_iff.mp hfree
  have hunused : r.checkFree row = .ok () := by
    refine if_neg ?_
    rw [hid]
    simpa using hnone
  exact ⟨_, Rows.insert_of_ok (Rows.checkConnected_eq_ok.mpr hr) hrow hunused⟩

private theorem fileRow_succeeds (h : k.Enrols) (hp : parent ≠ some "") (i : String)
    (row : ContextRow) : ∃ server, k.fileRow i parent row = .ok server := by
  have hwakeups : k.server.HoldsSet k.wakeupsKey := h.sound.wakeups.imp fun _ => And.left
  have hput (key : String) (hne : k.contextKey (some i) ≠ key) (h : k.server.HoldsSet key) :
      Server.HoldsSet key (Table.put (k.contextKey (some i)) (.context row) k.server) := h.put hne _
  obtain ⟨_, hcontacts⟩ := hput _ (k.contextKey_ne_contactKey _ row.contact) (h.contacts row.contact)
  obtain ⟨s₁, h₁⟩ := addMember_of_members hcontacts i row.inserted
  obtain ⟨s₂, h₂⟩ : ∃ s₂, k.adopt i parent row.inserted s₁ = .ok s₂ := by
    unfold Keys.adopt
    cases parent with
    | none => exact ⟨s₁, rfl⟩
    | some p =>
      have hfamily : k.server.HoldsSet (k.childrenKey (some p)) :=
        (h.sound.families p fun h => hp (congrArg some h)).imp fun _ => And.left
      obtain ⟨_, hset⟩ := (hput _ (k.contextKey_ne_childrenKey _ _) hfamily).addMember h₁
      exact addMember_of_members hset _ _
  obtain ⟨_, hset⟩ := ((hput _ (k.contextKey_ne_wakeupsKey _) hwakeups).addMember h₁).adopt h₂
  obtain ⟨s₃, h₃⟩ : ∃ s₃, k.schedule i row s₂ = .ok s₃ := by
    unfold Keys.schedule
    split
    · exact addMember_of_members hset _ _
    · exact ⟨s₂, rfl⟩
  exact ⟨s₃, bind_eq_ok.mpr ⟨s₁, h₁, bind_eq_ok.mpr ⟨s₂, h₂, h₃⟩⟩⟩

private theorem keys_insert (h : k.Enrols) (hc : c.Storable i) (hfree : (Store.keys k).row? i = none) :
    ∃ g, Store.insert fresh now ⟨.keys k, c⟩ = .ok () g := by
  have hid : c.id.getD fresh = i := by rw [hc.id, Option.getD_some]
  have hnone : Table.find? (k.contextKey (some i)) k.server = none := by
    cases hf : Table.find? (k.contextKey (some i)) k.server with
    | none => rfl
    | some e =>
      obtain ⟨row, rfl, -⟩ := h.sound.rows i e hf
      simp only [row?, hf] at hfree
      cases hfree
  have hunused : k.checkFree (c.id.getD fresh) = .ok () := by
    simp [hid, Keys.checkFree, Server.holds, hnone]
  obtain ⟨_, hf⟩ := fileRow_succeeds h hc.parent (c.id.getD fresh)
    (Keys.contextRow ((c.named fresh).stamped now))
  exact ⟨_, Keys.insert_of_ok (Keys.checkConnected_eq_ok.mpr h.connected) hunused hf⟩

/-- A storable context whose id is free is filed, at version one. -/
theorem Open.insert (ho : s.Open) (hc : c.Storable i) (hfree : s.row? i = none) (fresh : String)
    (now : Moment) : ∃ s', (Call.insert fresh now c).perform s = (.ok 1, s') ∧
      s'.row? i = some (s.kind.filed (c.stamped now)) := by
  have hsucceeds : ∃ g, Store.insert fresh now ⟨s, c⟩ = .ok () g := by
    cases s with
    | memory m => exact absurd rfl ho.durable
    | rows r => exact rows_insert ho.connected hc hfree
    | keys k => exact keys_insert (ho.served k rfl) hc hfree
  obtain ⟨g, hg⟩ := hsucceeds
  obtain ⟨hheld, hfiled, -, -⟩ := (insert_ensures fresh now s c).of_eq_ok hg
  have hnamed : c.named fresh = c := by
    have hid : some (c.id.getD fresh) = c.id := by rw [hc.id]; rfl
    exact congrArg (fun id => { c with id }) hid
  rw [hnamed] at hheld
  have hversion : g.held.version = 1 := by rw [hheld]; rfl
  refine ⟨g.state, by simp only [Call.perform, hg, hversion], ?_⟩
  have hrow := hfiled.row
  rwa [hc.id, hheld] at hrow

end Store
end DurableFlow
