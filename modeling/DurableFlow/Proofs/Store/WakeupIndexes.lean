import DurableFlow.Proofs.Store.DueTimes
import DurableFlow.Proofs.Store.GivenWakeups
import DurableFlow.Proofs.Store.ScoredSets

/-! The wakeup set of a server under insertions and updates. It lists the rows that wait and no
others, each with its wakeup time, so that both reads of the set tell what the rows would tell. -/
namespace DurableFlow.Store

/-- A row as callers of the declared types make it: the contact is a number, and the milliseconds of
the wakeup time are a score as they are. -/
def ContextRow.IsTyped (row : ContextRow) : Prop :=
  (∃ n : Int, row.contact = .int n) ∧ ∀ ms, row.wakeup = some ms → Scored.scoreOf ms = ms

/-- A call of the declared types: the contact of a new context is a number, and clocks show the
wakeup times. -/
def Call.IsTyped : Call → Prop
  | .insert _ _ c => (∃ n : Int, c.contact = .int n) ∧ ∀ t, c.wakeup = some t → t.IsShown
  | .update _ _ _ changes _ => ∀ t, Context.Change.wakeup (some t) ∈ changes → t.IsShown

def Keys.Waits (k : Keys) (i : String) (ms : Int) : Prop :=
  ∃ row, k.server.context? (k.contextKey (some i)) = .ok (some row) ∧
    row.completed = none ∧ row.wakeup = some ms

/-- A sound server whose wakeup set is in order and whose rows are typed. -/
structure Keys.Timed (k : Keys) : Prop where
  connected : k.connected = true
  sound : k.Sound
  ordered : ∃ set, k.server.members k.wakeupsKey = .ok set ∧ Scored.Ordered set
  typed : ∀ i row, Table.find? (k.contextKey (some i)) k.server = some (.context row) → row.IsTyped

/-! ## Typed rows -/

private theorem typed_contextRow {c : Context} (hn : ∃ n : Int, c.contact = .int n)
    (hw : ∀ t, c.wakeup = some t → t.IsShown) : (Keys.contextRow c).IsTyped := by
  refine ⟨hn, ?_⟩
  intro ms hms
  obtain ⟨t, ht, rfl⟩ := Option.map_eq_some_iff.mp hms
  exact scoreOf_shown (hw t ht)

private theorem ContextRow.IsTyped.apply {row : ContextRow} (h : row.IsTyped)
    {ch : Context.Change} (hch : ∀ t, ch = .wakeup (some t) → t.IsShown) :
    (row.apply Keys.fieldText ch).IsTyped := by
  cases ch with
  | wakeup t =>
    refine ⟨h.1, ?_⟩
    intro ms hms
    obtain ⟨u, rfl, rfl⟩ := Option.map_eq_some_iff.mp hms
    exact scoreOf_shown (hch u rfl)
  | node v => exact h
  | completed t => exact h
  | results v => exact h
  | other name => exact h

private theorem ContextRow.IsTyped.advanced {row : ContextRow} (h : row.IsTyped)
    {changes : List Context.Change}
    (hch : ∀ t, Context.Change.wakeup (some t) ∈ changes → t.IsShown) (now : Moment) :
    (row.advanced Keys.fieldText changes now).IsTyped := by
  have hfold : (changes.foldl (ContextRow.apply Keys.fieldText) row).IsTyped := by
    induction changes generalizing row with
    | nil => exact h
    | cons ch rest ih =>
      have hfirst : ∀ t, ch = .wakeup (some t) → t.IsShown := by
        rintro t rfl
        exact hch t List.mem_cons_self
      exact ih (h.apply hfirst) fun t ht => hch t (List.mem_cons_of_mem _ ht)
  exact hfold

/-! ## One call -/

private theorem ordered_writeRow {k : Keys} (h : k.Timed) {i : String} {row : ContextRow}
    {server : Server} (hw : k.writeRow (k.contextKey (some i)) i row = .ok server) :
    ∃ set, server.members k.wakeupsKey = .ok set ∧ Scored.Ordered set := by
  obtain ⟨set, hset, hordered⟩ := h.ordered
  have hbefore : Server.members k.wakeupsKey
      (Table.put (k.contextKey (some i)) (.context row) k.server) = .ok set := by
    rw [← hset]
    apply Server.members_congr
    rw [Table.find?_put, if_neg (k.contextKey_ne_wakeupsKey _)]
  unfold Keys.writeRow at hw
  split at hw
  · obtain ⟨set', hset', hmem⟩ := Server.members_addMember hw
    rw [hbefore] at hset'
    cases hset'
    exact ⟨_, hmem, hordered.add _ _⟩
  · obtain ⟨set', hset', hmem⟩ := Server.members_removeMember hw
    rw [hbefore] at hset'
    cases hset'
    exact ⟨_, hmem, hordered.remove _⟩

private theorem ordered_fileRow {k : Keys} (h : k.Timed) {i : String} {parent : Option String}
    {row : ContextRow} {server : Server} (hf : k.fileRow i parent row = .ok server) :
    ∃ set, server.members k.wakeupsKey = .ok set ∧ Scored.Ordered set := by
  obtain ⟨set, hset, hordered⟩ := h.ordered
  obtain ⟨s, _, hbefore, _, hs⟩ := fileRow_eq_ok hf
  rw [hset] at hbefore
  unfold Keys.schedule at hs
  split at hs
  · obtain ⟨set', hset', hmem⟩ := Server.members_addMember hs
    rw [hbefore] at hset'
    cases hset'
    exact ⟨_, hmem, hordered.add _ _⟩
  · cases hs
    exact ⟨set, hbefore, hordered⟩

private theorem typed_written {k : Keys} (h : k.Timed) {i : String} {row : ContextRow}
    (hrow : row.IsTyped) {server : Server}
    (hfind : ∀ j, Table.find? (k.contextKey (some j)) server =
      if k.contextKey (some i) = k.contextKey (some j) then some (.context row)
      else Table.find? (k.contextKey (some j)) k.server) (j : String) (r : ContextRow)
    (hr : Table.find? (k.contextKey (some j)) server = some (.context r)) : r.IsTyped := by
  rw [hfind] at hr
  split at hr
  · cases hr
    exact hrow
  · exact h.typed j r hr

theorem Keys.Timed.update {k k' : Keys} (h : k.Timed) {now : Moment}
    {fault id : Option String} {changes : List Context.Change} {expected : Option Int} {v : Int}
    (hch : ∀ t, Context.Change.wakeup (some t) ∈ changes → t.IsShown)
    (hu : k.update now fault id changes expected = .ok (v, k')) : k'.Timed := by
  have hsound : k'.Sound := Sound.update (s := .keys k) h.sound (wrapped_eq_ok.mpr ⟨k', hu, rfl⟩)
  obtain ⟨hc, _, i, row, server, rfl, hrow, _, _, _, hw, rfl⟩ := Keys.update_eq_ok.mp hu
  have hnext := (h.typed i row (Server.context?_eq_some.mp hrow)).advanced hch now
  have hfind (j : String) := find?_writeRow hw (k.contextKey_ne_wakeupsKey (some j))
  exact ⟨hc, hsound, ordered_writeRow h hw, typed_written h hnext hfind⟩

private theorem Keys.Timed.insert {k : Keys} (h : k.Timed) {c : Context}
    (hn : ∃ n : Int, c.contact = .int n) (hw : ∀ t, c.wakeup = some t → t.IsShown)
    {fresh : String} {now : Moment} {g : Holding Keys Context}
    (hi : Keys.insert fresh now ⟨k, c⟩ = .ok () g) : g.state.Timed := by
  have hsound := ((insert_keys fresh now k c).of_eq_ok hi).2.2.1 h.sound
  obtain ⟨hheld, _, server, hf, hstate⟩ := (Keys.insert_ensures fresh now k c).of_eq_ok hi
  rw [hstate] at hsound ⊢
  obtain ⟨s, hrows, _, _, hs⟩ := fileRow_eq_ok hf
  have hrow : (Keys.contextRow g.held).IsTyped := by
    rw [hheld]
    exact typed_contextRow hn hw
  have hfind (j : String) :=
    (find?_schedule hs (k.contextKey_ne_wakeupsKey (some j))).trans (hrows j)
  exact ⟨h.connected, hsound, ordered_fileRow h hf, typed_written h hrow hfind⟩

/-- What a call makes of a server: it stays as it is, or an insertion or an update has succeeded. -/
theorem perform_keys (call : Call) (k : Keys) :
    (call.perform (.keys k)).2 = .keys k ∨
      (∃ fresh now c g, call = .insert fresh now c ∧ Keys.insert fresh now ⟨k, c⟩ = .ok () g ∧
        (call.perform (.keys k)).2 = .keys g.state) ∨
      ∃ now fault id changes expected v k', call = .update now fault id changes expected ∧
        k.update now fault id changes expected = .ok (v, k') ∧
        (call.perform (.keys k)).2 = .keys k' := by
  cases call with
  | insert fresh now c =>
    cases hi : Keys.insert fresh now ⟨k, c⟩ with
    | ok _ g =>
      have hs : Store.insert fresh now ⟨.keys k, c⟩ = .ok () ⟨.keys g.state, g.held⟩ := by
        change within .keys k (Keys.insert fresh now) ⟨.keys k, c⟩ = _
        rw [within, hi]
      exact .inr (.inl ⟨fresh, now, c, g, rfl, hi, by rw [Call.perform, hs]⟩)
    | error f g =>
      have hs : Store.insert fresh now ⟨.keys k, c⟩ = .error f ⟨.keys g.state, g.held⟩ := by
        change within .keys k (Keys.insert fresh now) ⟨.keys k, c⟩ = _
        rw [within, hi]
      have hsame : g.state = k := (Keys.insert_ensures fresh now k c).of_eq_error hi
      exact .inl (by rw [Call.perform, hs, hsame])
  | update now fault id changes expected =>
    cases hu : k.update now fault id changes expected with
    | ok p =>
      obtain ⟨v, k'⟩ := p
      have hs : (Store.keys k).update now fault id changes expected = .ok (v, .keys k') :=
        wrapped_eq_ok.mpr ⟨k', hu, rfl⟩
      exact .inr (.inr ⟨now, fault, id, changes, expected, v, k', rfl, hu, by rw [Call.perform, hs]⟩)
    | error f =>
      have hs : (Store.keys k).update now fault id changes expected = .error f := by
        simp only [Store.update, wrapped, hu, Except.map]
      exact .inl (by rw [Call.perform, hs])

/-- A typed call keeps a server timed. -/
theorem Keys.Timed.perform {k : Keys} (h : k.Timed) {call : Call} (hc : call.IsTyped) :
    ∃ k' : Keys, (call.perform (.keys k)).2 = .keys k' ∧ k'.Timed := by
  obtain hsame | ⟨fresh, now, c, g, rfl, hi, hg⟩ |
    ⟨now, fault, id, changes, expected, v, k', rfl, hu, hk⟩ := perform_keys call k
  · exact ⟨k, hsame, h⟩
  · exact ⟨g.state, hg, h.insert hc.1 hc.2 hi⟩
  · exact ⟨k', hk, h.update hc hu⟩

theorem Keys.Timed.run {h : History} {k : Keys} (hs : h.store = .keys k) (hk : k.Timed)
    {calls : List Call} (hc : ∀ call ∈ calls, call.IsTyped) :
    ∃ k' : Keys, (h.run calls).store = .keys k' ∧ k'.Timed := by
  induction calls generalizing h k with
  | nil => exact ⟨k, hs, hk⟩
  | cons call rest ih =>
    obtain ⟨hcall, hrest⟩ := List.forall_mem_cons.mp hc
    obtain ⟨k', hk', htimed⟩ := hk.perform hcall
    have hstep : (h.step call).store = .keys k' := by
      rw [← hk', ← hs]
      rfl
    exact ih hstep htimed hrest

/-! ## Reads of the set -/

section Reads
variable {k : Keys} (h : k.Timed)
include h

/-- The members are the rows that wait, each once. -/
theorem members_wait : ∃ set, k.server.members k.wakeupsKey = .ok set ∧
    Scored.Ordered set ∧ (set.map Prod.fst).Nodup ∧ ∀ i ms, (i, ms) ∈ set ↔ k.Waits i ms := by
  obtain ⟨set, hset, hordered⟩ := h.ordered
  obtain ⟨set', hset', hiff⟩ := h.sound.wakeups
  rw [hset] at hset'
  cases hset'
  have hmem (i : String) (ms : Int) : (i, ms) ∈ set ↔ k.Waits i ms := by
    rw [hiff]
    constructor
    · rintro ⟨row, hrow, hc, hw⟩
      obtain ⟨t, ht, rfl⟩ := Option.map_eq_some_iff.mp hw
      rw [(h.typed i row hrow).2 t ht]
      exact ⟨row, Server.context?_eq_some.mpr hrow, hc, ht⟩
    · rintro ⟨row, hrow, hc, hw⟩
      have hfind := Server.context?_eq_some.mp hrow
      refine ⟨row, hfind, hc, ?_⟩
      rw [hw, Option.map_some, (h.typed i row hfind).2 ms hw]
  have hunique {i : String} {s t : Int} (hs : k.Waits i s) (ht : k.Waits i t) : s = t := by
    obtain ⟨r, hr, _, hws⟩ := hs
    obtain ⟨r', hr', _, hwt⟩ := ht
    rw [hr] at hr'
    cases hr'
    exact Option.some.inj (hws.symm.trans hwt)
  refine ⟨set, hset, hordered, ?_, hmem⟩
  -- Two places of one name would have one score, and a set in order has no member twice.
  refine List.pairwise_map.mpr (hordered.imp_of_mem ?_)
  rintro ⟨i, s⟩ ⟨j, t⟩ ha hb hp rfl
  have hst := hunique ((hmem i s).mp ha) ((hmem i t).mp hb)
  exact Scored.Precedes.irrefl _ (hst ▸ hp)

private theorem getContext_eq_ok {i : String} {c : Context} :
    k.getContext (some i) = .ok (some c) ↔
      ∃ row, k.server.context? (k.contextKey (some i)) = .ok (some row) ∧ row.read = .ok c := by
  have hread {row : ContextRow} (hrow : k.server.context? (k.contextKey (some i)) = .ok (some row)) :
      Keys.readRow row = row.read := by
    obtain ⟨n, hn⟩ := (h.typed i row (Server.context?_eq_some.mp hrow)).1
    simp only [Keys.readRow, hn]
  constructor
  · intro hget
    obtain ⟨_, _, hat⟩ := bind_eq_ok.mp hget
    obtain ⟨o, hrow, hat⟩ := bind_eq_ok.mp hat
    cases o with
    | none => cases hat
    | some row =>
      obtain ⟨d, hd, hat⟩ := bind_eq_ok.mp hat
      rw [hread hrow] at hd
      cases hat
      exact ⟨row, hrow, hd⟩
  · rintro ⟨row, hrow, hd⟩
    refine bind_eq_ok.mpr ⟨(), Keys.checkConnected_eq_ok.mpr h.connected, ?_⟩
    exact bind_eq_ok.mpr ⟨_, hrow, bind_eq_ok.mpr ⟨_, (hread hrow).trans hd, rfl⟩⟩

private theorem getContext_of_contextAt {i : String} {o : Option Context}
    (hat : k.contextAt (some i) = .ok o) : k.getContext (some i) = .ok o :=
  bind_eq_ok.mpr ⟨(), Keys.checkConnected_eq_ok.mpr h.connected, hat⟩

private theorem contextAt_of_waits {i : String} {ms : Int} (hw : k.Waits i ms)
    (hd : (Moment.ofMillis ms).isDated = true) : ∃ c, k.contextAt (some i) = .ok (some c) := by
  obtain ⟨row, hrow, hopen, hwake⟩ := hw
  have hread : row.read = .ok row.context := by
    refine ContextRow.read_eq_ok.mpr ⟨?_, rfl⟩
    simp [Context.isLegible, ContextRow.context, hopen, hwake, hd]
  have hget := (getContext_eq_ok h).mpr ⟨row, hrow, hread⟩
  obtain ⟨_, _, hat⟩ := bind_eq_ok.mp hget
  exact ⟨_, hat⟩

private theorem rowsOf_waiting {ids : List String}
    (hi : ∀ i ∈ ids, ∃ ms, k.Waits i ms ∧ (Moment.ofMillis ms).isDated = true) :
    ∃ cs, k.rowsOf ids = .ok cs := by
  induction ids with
  | nil => exact ⟨[], rfl⟩
  | cons i rest ih =>
    obtain ⟨⟨ms, hw, hd⟩, hrest⟩ := List.forall_mem_cons.mp hi
    obtain ⟨c, hc⟩ := contextAt_of_waits h hw hd
    obtain ⟨cs, hcs⟩ := ih hrest
    refine ⟨c :: cs, ?_⟩
    rw [Keys.rowsOf, List.filterMapM_cons, hc]
    exact bind_eq_ok.mpr ⟨some c, rfl, bind_eq_ok.mpr ⟨cs, hcs, rfl⟩⟩

end Reads

private theorem isDue_context {row : ContextRow} {n : Int} :
    row.context.isDue (some (.ofMillis n)) = .ok true ↔
      row.completed = none ∧ ∃ ms, row.wakeup = some ms ∧ ms ≤ n := by
  have hcome (ms : Int) : Context.hasCome (some (.ofMillis n)) (.ofMillis ms) =
      .ok (decide (ms ≤ n)) := by
    have hbefore : (Moment.ofMillis n).isBefore (.ofMillis ms) = decide (n * 1000 < ms * 1000) :=
      Moment.utc_inStep _ _
    have hle : ¬ n * 1000 < ms * 1000 ↔ ms ≤ n := by omega
    have hzoned : (Moment.ofMillis ms).zoned = (Moment.ofMillis n).zoned := rfl
    simp only [Context.hasCome, Moment.notAfter?, hzoned, if_pos, hbefore, ← decide_not, hle]
  cases hc : row.completed with
  | some t =>
    simp [Context.isDue, Context.isSuspended, Context.status, ContextRow.context, hc]
  | none =>
    cases hw : row.wakeup with
    | none => simp [Context.isDue, Context.isSuspended, Context.status, ContextRow.context, hc, hw]
    | some ms =>
      simp [Context.isDue, Context.isSuspended, Context.status, ContextRow.context, hc, hw, hcome]

section Reads
variable {k : Keys} (h : k.Timed)
include h

private theorem due_complete {now : Moment} (hnow : now.IsShown)
    (hl : ∀ i ms, k.Waits i ms → ms ≤ now.millis → (Moment.ofMillis ms).isDated = true) :
    ∃ cs, k.due (some now) .null = .ok cs ∧ (cs.map Context.id).Nodup ∧
      ∀ c, c ∈ cs ↔ (∃ i, k.getContext (some i) = .ok (some c)) ∧
        c.isDue (some (.ofMillis now.millis)) = .ok true := by
  obtain ⟨set, hset, _, hnodup, hwaits⟩ := members_wait h
  let ids := Scored.upTo now.millis set
  have hids : k.dueIds (some now) .null = .ok ids := by
    refine bind_eq_ok.mpr ⟨now.millis, rfl, bind_eq_ok.mpr ⟨none, rfl, ?_⟩⟩
    refine bind_eq_ok.mpr ⟨set, hset, congrArg Except.ok ?_⟩
    exact List.take_length
  have hmem (i : String) : i ∈ ids ↔ ∃ ms, k.Waits i ms ∧ ms ≤ now.millis := by
    simp only [ids, Scored.upTo, scoreOf_shown hnow, List.mem_map, List.mem_filter,
      decide_eq_true_eq, Prod.exists, exists_and_right, exists_eq_right, hwaits]
  obtain ⟨cs, hcs⟩ := rowsOf_waiting h fun i hi =>
    ((hmem i).mp hi).imp fun ms hw => ⟨hw.1, hl i ms hw.1 hw.2⟩
  have hdue : k.due (some now) .null = .ok cs :=
    bind_eq_ok.mpr ⟨(), Keys.checkConnected_eq_ok.mpr h.connected, bind_eq_ok.mpr ⟨ids, hids, hcs⟩⟩
  refine ⟨cs, hdue, ?_, ?_⟩
  · have hsub : (cs.map Context.id).Sublist (ids.map some) := by
      refine sublist_filterMapM hcs ?_
      intro i c hat
      obtain ⟨row, hrow, hread⟩ := (getContext_eq_ok h).mp (getContext_of_contextAt h hat)
      obtain ⟨-, rfl⟩ := ContextRow.read_eq_ok.mp hread
      obtain ⟨_, he, hid⟩ := h.sound.rows i _ (Server.context?_eq_some.mp hrow)
      cases he
      exact congrArg some hid
    have hnames : ids.Nodup := hnodup.sublist (List.filter_sublist.map _)
    exact hsub.nodup (hnames.map (Option.some_injective _))
  · intro c
    constructor
    · intro hc
      obtain ⟨i, hi, hat⟩ := of_mem_filterMapM hcs hc
      have hget := getContext_of_contextAt h hat
      refine ⟨⟨i, hget⟩, ?_⟩
      obtain ⟨ms, ⟨row, hrow, hopen, hwake⟩, hle⟩ := (hmem i).mp hi
      obtain ⟨row', hrow', hread⟩ := (getContext_eq_ok h).mp hget
      obtain ⟨-, rfl⟩ := ContextRow.read_eq_ok.mp hread
      rw [hrow] at hrow'
      cases hrow'
      exact isDue_context.mpr ⟨hopen, ms, hwake, hle⟩
    · rintro ⟨⟨i, hget⟩, hd⟩
      obtain ⟨row, hrow, hread⟩ := (getContext_eq_ok h).mp hget
      obtain ⟨-, rfl⟩ := ContextRow.read_eq_ok.mp hread
      obtain ⟨hopen, ms, hwake, hle⟩ := isDue_context.mp hd
      have hi : i ∈ ids := (hmem i).mpr ⟨ms, ⟨row, hrow, hopen, hwake⟩, hle⟩
      obtain ⟨_, _, hat⟩ := bind_eq_ok.mp hget
      rcases mem_filterMapM hcs hi with hn | ⟨y, hy, hsome⟩
      · rw [hat] at hn
        cases hn
      · rw [hat] at hsome
        cases hsome
        exact hy

/-- The next wakeup time is the earliest one of a row that waits, if a calendar shows it. -/
theorem nextWakeup_least :
    (k.nextWakeup = .ok none ∧ ∀ i ms, ¬ k.Waits i ms) ∨
      ∃ i ms, k.nextWakeup = (Moment.ofMillis ms).dated.map some ∧ k.Waits i ms ∧
        ∀ j w, k.Waits j w → ms ≤ w := by
  obtain ⟨set, hset, hordered, _, hwaits⟩ := members_wait h
  have hnext : k.nextWakeup = set.head?.mapM fun x => (Moment.ofMillis x.2).dated := by
    have hconnected : k.checkConnected = .ok () := Keys.checkConnected_eq_ok.mpr h.connected
    simp only [Keys.nextWakeup, hconnected, hset]
    rfl
  cases set with
  | nil =>
    refine .inl ⟨hnext, ?_⟩
    intro i ms hw
    cases (hwaits i ms).mpr hw
  | cons x rest =>
    obtain ⟨i, ms⟩ := x
    refine .inr ⟨i, ms, hnext, (hwaits i ms).mp List.mem_cons_self, ?_⟩
    intro j w hw
    rcases List.mem_cons.mp ((hwaits j w).mpr hw) with he | hr
    · cases he
      exact Int.le_refl _
    · rcases (List.pairwise_cons.mp hordered).1 _ hr with hlt | ⟨heq, _⟩
      · exact Int.le_of_lt hlt
      · exact Int.le_of_eq heq

end Reads

theorem timed_of_vacant {k : Keys} (hv : (Store.keys k).Vacant) (hc : k.connected = true) :
    k.Timed := by
  refine ⟨hc, hv.sound, ⟨[], hv.2.1, List.Pairwise.nil⟩, ?_⟩
  intro i row hrow
  rw [hv.1 i] at hrow
  cases hrow

private theorem given_of_waits {k : Keys} {ts : List Moment} (h : (Store.keys k).WakesAt ts)
    {i : String} {ms : Int} (hw : k.Waits i ms) : ∃ t ∈ ts, t.millis = ms := by
  obtain ⟨row, hrow, _, hwake⟩ := hw
  have hr : (Store.keys k).row? i = some row.context := by
    simp only [row?, Server.context?_eq_some.mp hrow]
  obtain ⟨t, ht, he⟩ := h i row.context (.ofMillis ms) hr
    (by simp only [ContextRow.context, hwake, Option.map_some])
  refine ⟨t, ht, ?_⟩
  have hmillis := congrArg Moment.millis he
  rw [Kind.millis_time, millis_ofMillis] at hmillis
  exact hmillis.symm

/-- After every run of insertions and updates over a server that held no context:
the wakeup set lists a context exactly when its row is open and has a wakeup time, once and with that
time in milliseconds, which is one that a call gave;
the due contexts, asked for without a limit, are exactly those whose stored row is due, to the
millisecond, if a calendar shows the time of each row that is;
and the next wakeup time is the earliest one among the rows that wait, if a calendar shows it, and none
when no row waits. -/
theorem wakeups_agree {k : Keys} (hv : (Store.keys k).Vacant) (hc : k.connected = true)
    {calls : List Call} (ht : ∀ call ∈ calls, call.IsTyped) :
    ∃ k' : Keys, (History.run ⟨.keys k, []⟩ calls).store = .keys k' ∧
      (∃ set, k'.server.members k'.wakeupsKey = .ok set ∧ (set.map Prod.fst).Nodup ∧
        ∀ i ms, (i, ms) ∈ set ↔ k'.Waits i ms) ∧
      (∀ i ms, k'.Waits i ms → ∃ call ∈ calls, ∃ t ∈ call.wakeups, t.millis = ms) ∧
      (∀ now : Moment, now.IsShown →
        (∀ i ms, k'.Waits i ms → ms ≤ now.millis → (Moment.ofMillis ms).isDated = true) →
        ∃ cs, k'.due (some now) .null = .ok cs ∧ (cs.map Context.id).Nodup ∧
          ∀ c, c ∈ cs ↔ (∃ i, k'.getContext (some i) = .ok (some c)) ∧
            c.isDue (some (.ofMillis now.millis)) = .ok true) ∧
      ((k'.nextWakeup = .ok none ∧ ∀ i ms, ¬ k'.Waits i ms) ∨
        ∃ i ms, ((Moment.ofMillis ms).isDated = true → k'.nextWakeup = .ok (some (.ofMillis ms))) ∧
          k'.Waits i ms ∧ ∀ j w, k'.Waits j w → ms ≤ w) := by
  obtain ⟨k', hk', htimed⟩ := (timed_of_vacant hv hc).run (h := ⟨.keys k, []⟩) rfl ht
  obtain ⟨set, hset, _, hnodup, hwaits⟩ := members_wait htimed
  refine ⟨k', hk', ⟨set, hset, hnodup, hwaits⟩, fun i ms hw => ?_,
    fun now hnow hl => due_complete htimed hnow hl, ?_⟩
  · obtain ⟨t, htimes, hms⟩ := given_of_waits (hk' ▸ hv.wakesAt_run calls) hw
    obtain ⟨call, hcall, hgiven⟩ := List.mem_flatMap.mp htimes
    exact ⟨call, hcall, t, hgiven, hms⟩
  · refine (nextWakeup_least htimed).imp id ?_
    rintro ⟨i, ms, hnext, hw, hleast⟩
    refine ⟨i, ms, fun hd => ?_, hw, hleast⟩
    rw [hnext, Moment.dated_eq_ok.mpr ⟨hd, rfl⟩]
    rfl

/-- A context that waited is completed, its wakeup time still given; another one waits on. -/
theorem wakeups_agree_completed :
    let s : Store := .keys ⟨"", "n", true, []⟩
    let t := Moment.utc 5000
    let c : Context :=
      ⟨some "a", .int 7, 1, none, .string "n", none, some t, none, .object [], 0, t, t, none⟩
    let calls : List Call := [.insert "x" t c,
      .insert "b" t { c with id := none, wakeup := some (.utc 9000) },
      .update t none (some "a") [.completed (some t), .wakeup (some t)] none]
    (s.Vacant ∧ s.isConnected = true ∧ ∀ call ∈ calls, call.IsTyped) ∧
      ∃ k : Keys, (History.run ⟨s, []⟩ calls).store = .keys k ∧
        (∃ i, k.Waits i 9) ∧ ∀ i ms, k.Waits i ms → 9 ≤ ms := by
  intro s t c calls
  have hv : s.Vacant := ⟨fun _ => rfl, rfl, fun _ => rfl⟩
  have hshown : (Moment.utc 5000).IsShown ∧ (Moment.utc 9000).IsShown := by decide
  have ht : ∀ call ∈ calls, call.IsTyped := by
    simp [calls, Call.IsTyped, c, t, hshown]
  have hnext : (History.run ⟨s, []⟩ calls).store.nextWakeup = .ok (some (.ofMillis 9)) := by
    decide +kernel
  obtain ⟨k, hk, -, hgiven, -, hleast⟩ := wakeups_agree hv rfl ht
  rw [hk] at hnext
  refine ⟨⟨hv, rfl, ht⟩, k, hk, ?_⟩
  obtain ⟨hnone, _⟩ | ⟨i, ms, hsome, hi, hmin⟩ := hleast
  · cases hnone.symm.trans hnext
  · have hms : ms = 5 ∨ ms = 9 := by
      obtain ⟨call, hcall, u, hu, rfl⟩ := hgiven i ms hi
      simp only [calls, List.mem_cons, List.not_mem_nil, or_false] at hcall
      rcases hcall with rfl | rfl | rfl
      · cases List.mem_singleton.mp hu
        exact .inl rfl
      · cases List.mem_singleton.mp hu
        exact .inr rfl
      · cases List.mem_singleton.mp hu
        exact .inl rfl
    have hdated : (Moment.ofMillis ms).isDated = true := by
      rcases hms with rfl | rfl <;> rfl
    have hmicros : ms * 1000 = 9 * 1000 := by
      simpa [Moment.ofMillis, Moment.utc] using (hsome hdated).symm.trans hnext
    have hnine : ms = 9 := by omega
    exact hnine ▸ ⟨⟨i, hi⟩, hmin⟩

/-- A context waits for midnight of the first day of the year 1, by a clock 14 hours ahead of UTC. The
wakeup set lists it, and no calendar shows its time in UTC: the due contexts cannot be read. Nor can they
with one among them whose contact is no number. -/
theorem unreadable_row_blocks_due :
    let t := Moment.utc 5000
    let early : Moment := ⟨-62135647200000000, some (.region "+14:00" 50400000000)⟩
    let call (contact : Json) (w : Moment) : Call := .insert "a" t
      ⟨none, contact, 1, none, .string "n", none, some w, none, .object [], 0, t, t, none⟩
    let k : Keys := ⟨"", "n", true, []⟩
    ((Store.keys k).Vacant ∧ (call (.int 7) early).IsTyped) ∧
      (∃ k' : Keys, (History.run ⟨.keys k, []⟩ [call (.int 7) early]).store = .keys k' ∧
        k'.Waits "a" (-62135647200000) ∧ k'.due (some t) .null = .error (.tooLarge .date) ∧
        k'.nextWakeup = .error (.tooLarge .date)) ∧
      ∃ k' : Keys, (History.run ⟨.keys k, []⟩ [call (.string "x") t]).store = .keys k' ∧
        k'.Waits "a" 5 ∧ k'.due (some t) .null = .error (.notANumeral "x") := by
  intro t early call k
  have htyped : (call (.int 7) early).IsTyped := by
    refine ⟨⟨7, rfl⟩, fun u hu => ?_⟩
    cases hu
    exact (by decide : early.IsShown)
  have hv : (Store.keys k).Vacant := ⟨fun _ => rfl, rfl, fun _ => rfl⟩
  refine ⟨⟨hv, htyped⟩, ⟨_, rfl, ⟨_, rfl, rfl, rfl⟩, rfl, rfl⟩, _, rfl, ⟨_, rfl, rfl, rfl⟩, ?_⟩
  decide +kernel

end DurableFlow.Store
