import DurableFlow.Proofs.Store.LedgerMemory
import DurableFlow.Proofs.Store.LedgerServers
import DurableFlow.Proofs.Store.WakeupIndexes

/-! The queue of a store: the contexts that are due by a time, in the order in which they are read. A
limit takes them from the front; a context that no longer waits leaves its place to the next one. -/
namespace DurableFlow

def Context.resumed (updated : Moment) (c : Context) : Context :=
  { c with wakeup := none, version := c.version + 1, updated }

namespace Store

/-! ## Queues -/

def isDueBy (t : Moment) (c : Context) : Bool :=
  c.completed.isNone && c.wakeup.any fun w => !t.isBefore w

def dueOf (t : Moment) (cs : List Context) : List Context :=
  (cs.filter (isDueBy t)).mergeSort fun a b => !Memory.wakesBefore b a

def queue (t : Moment) : Store → List Context
  | .memory m => dueOf t (m.contexts.map Prod.snd)
  | .rows r => dueOf t (r.contexts.map ContextRow.context)
  | .keys k =>
    (Scored.upTo t.millis ((k.server.members k.wakeupsKey).toOption.getD [])).filterMap
      fun i => row? i (.keys k)

/-- Every context in the queue of a time can be read. A store in memory reads them all. -/
def LegibleBy (t : Moment) (s : Store) : Prop :=
  s.kind ≠ .memory → ∀ c ∈ s.queue t, c.isLegible = true

def Takes (s : Store) (limit : Option Nat) : Prop :=
  s.kind ≠ .memory → ∀ b : Nat, limit = some b → IsWord b

def WaitsUntil (s : Store) (i : String) (t : Moment) : Prop :=
  ∃ r, s.row? i = some r ∧ r.completed = none ∧ r.wakeup = some t

/-- A store that answers, with typed rows. Its wakeup times are aware, and those of the contexts that wait
stand in one order. -/
structure Timely (s : Store) : Prop where
  connected : s.isConnected = true
  sound : s.Sound
  aware : ∀ i r w, s.row? i = some r → r.wakeup = some w → w.zoned = true
  ordered : Moment.InOneOrder fun t => ∃ i, s.WaitsUntil i t
  expectable : ∀ i r, s.row? i = some r → r.wakeup.isSome → s.kind = .rows →
    Rows.checkExpected (some r.version) = .ok ()
  timed : ∀ k, s = .keys k → k.Timed

variable {s s' : Store} {t : Moment} {i : String} {c r : Context} {cs : List Context}
  {limit : Option Nat}

/-- The queue lists every context that is due, once, and the earliest wakeup first. -/
structure Queued (t : Moment) (s : Store) : Prop where
  once : ((s.queue t).map Context.id).Nodup
  sorted : (s.queue t).Pairwise fun a b => Memory.wakesBefore b a = false
  members : ∀ c, c ∈ s.queue t ↔ ∃ i, s.row? i = some c ∧ c.completed = none ∧ Come t c

theorem isDueBy_iff : isDueBy t c = true ↔ c.completed = none ∧ Come t c := by
  cases hw : c.wakeup <;> simp [isDueBy, Come, hw]

theorem isLegible_of_open (ho : c.completed = none) (hd : ∀ w, c.wakeup = some w → w.isDated = true) :
    c.isLegible = true := by
  rw [Context.isLegible, ho]
  cases hw : c.wakeup with
  | none => rfl
  | some w => simpa using hd w hw

theorem Sound.row?_id (hs : s.Sound) (hr : s.row? i = some r) : r.id = some i := by
  cases s with
  | memory m => exact (Memory.Sound.ids hs i r hr).1
  | rows t =>
    obtain ⟨row, hrow, rfl⟩ := Option.map_eq_some_iff.mp hr
    have hid : row.id = i := by simpa using List.find?_some hrow
    exact congrArg some hid
  | keys k =>
    simp only [row?] at hr
    split at hr
    · rename_i row hrow
      cases hr
      obtain ⟨_, he, hid⟩ := Keys.Sound.rows hs i _ hrow
      cases he
      exact congrArg some hid
    · cases hr

private theorem mem_dueOf : c ∈ dueOf t cs ↔ c ∈ cs ∧ c.completed = none ∧ Come t c := by
  rw [dueOf, List.mem_mergeSort, List.mem_filter, isDueBy_iff]

private theorem orders_due {P : Moment → Prop} (hP : Moment.InOneOrder P)
    (hcs : ∀ c ∈ cs, c.completed = none → ∀ w, c.wakeup = some w → P w) :
    Orders (fun a b => !Memory.wakesBefore b a) (cs.filter (isDueBy t)) := by
  have hwaits {c : Context} (hc : c ∈ cs.filter (isDueBy t)) : ∃ w, c.wakeup = some w ∧ P w := by
    obtain ⟨hm, hdue⟩ := List.mem_filter.mp hc
    obtain ⟨hopen, w, hw, -⟩ := isDueBy_iff.mp hdue
    exact ⟨w, hw, hcs c hm hopen w hw⟩
  constructor
  · intro a ha b hb c hc hab hbc
    obtain ⟨t, ht, hPt⟩ := hwaits ha
    obtain ⟨u, hu, hPu⟩ := hwaits hb
    obtain ⟨v, hv, hPv⟩ := hwaits hc
    simp only [Memory.wakesBefore, ht, hu, hv, Bool.not_eq_true'] at hab hbc ⊢
    exact hP t u v hPt hPu hPv hab hbc
  · intro a ha b hb
    obtain ⟨t, ht, -⟩ := hwaits ha
    obtain ⟨u, hu, -⟩ := hwaits hb
    simp only [Memory.wakesBefore, ht, hu]
    cases hlt : u.isBefore t with
    | false => rfl
    | true => simp [Moment.isBefore_asymm hlt]

private theorem nodup_dueOf (h : (cs.map Context.id).Nodup) :
    ((dueOf t cs).map Context.id).Nodup :=
  (((List.mergeSort_perm _ _).map _).nodup_iff).mpr (h.sublist (List.filter_sublist.map _))

private theorem Timely.orders (hs : s.Timely) (hcs : ∀ c ∈ cs, ∃ i, s.row? i = some c) :
    Orders (fun a b => !Memory.wakesBefore b a) (cs.filter (isDueBy t)) := by
  refine orders_due hs.ordered fun c hc hopen w hw => ?_
  obtain ⟨i, hr⟩ := hcs c hc
  exact ⟨i, c, hr, hopen, hw⟩

private theorem orders_rows (t : Moment) (rows : List ContextRow) :
    Orders (fun a b => !Memory.wakesBefore b a) ((rows.map ContextRow.context).filter (isDueBy t)) := by
  refine orders_due (P := fun u => ∃ ms, u = .ofMillis ms) ?_ fun c hc _ w hw => ?_
  · refine Moment.ordered_of_inStep ?_
    rintro _ _ ⟨ms, rfl⟩ -
    exact Moment.utc_inStep _ _
  · obtain ⟨row, -, rfl⟩ := List.mem_map.mp hc
    obtain ⟨ms, -, rfl⟩ := Option.map_eq_some_iff.mp hw
    exact ⟨ms, rfl⟩

/-! ## The store in memory -/

section Memory
variable {m : Memory} (hs : m.Sound)
include hs

private theorem memory_row_iff : c ∈ m.contexts.map Prod.snd ↔ ∃ i, (Store.memory m).row? i = some c := by
  constructor
  · intro hc
    obtain ⟨⟨i, d⟩, hm, rfl⟩ := List.mem_map.mp hc
    exact ⟨i, Table.find?_eq_some_of_mem hs.keys hm⟩
  · rintro ⟨i, hr⟩
    exact List.mem_map_of_mem (Table.mem_of_find?_eq_some hr)

private theorem memory_ids :
    (m.contexts.map Prod.snd).map Context.id = (m.contexts.map Prod.fst).map some := by
  simp only [List.map_map]
  apply List.map_congr_left
  rintro ⟨i, c⟩ hc
  exact (hs.ids i c (Table.find?_eq_some_of_mem hs.keys hc)).1

end Memory

private theorem isDue_eq (ha : ∀ w, c.wakeup = some w → w.zoned = true) (ht : t.zoned = true) :
    c.isDue (some t) = .ok (isDueBy t c) := by
  cases hc : c.completed with
  | some _ => simp [Context.isDue, Context.isSuspended, Context.status, isDueBy, hc]
  | none =>
    cases hw : c.wakeup with
    | none => simp [Context.isDue, Context.isSuspended, Context.status, isDueBy, hc, hw]
    | some w =>
      simp [Context.isDue, Context.isSuspended, Context.status, isDueBy, hc, hw, Context.hasCome,
        Moment.notAfter?, ha w hw, ht]

private theorem memory_due {m : Memory} (hs : (Store.memory m).Timely) (ht : t.zoned = true)
    (limit : Option Nat) : (Store.memory m).due (some t) (Access.limitValue limit) =
      .ok ((queue t (.memory m)).take (limit.getD (queue t (.memory m)).length)) := by
  have hqueue : queue t (.memory m) =
      ((m.contexts.filter (isDueBy t ∘ Prod.snd)).map Prod.snd).mergeSort
        fun a b => !Memory.wakesBefore b a := by
    rw [queue, dueOf, List.filter_map]
  rw [hqueue]
  refine bind_eq_ok.mpr ⟨_, filterMapM_filter ?_, Memory.limited_take limit _⟩
  rintro ⟨i, c⟩ hc
  have hrow : (Store.memory m).row? i = some c :=
    Table.find?_eq_some_of_mem (Memory.Sound.keys hs.sound) hc
  dsimp only
  rw [isDue_eq (hs.aware i c · hrow) ht]
  rfl

/-! ## The store in tables -/

theorem isBefore_ofMillis {ms : Int} :
    t.isBefore (.ofMillis ms) = false ↔ ms ≤ t.millis := by
  have hstep : t.isBefore (.ofMillis ms) = decide (t.micros < ms * 1000) := t.inStep_utc _
  rw [hstep, decide_eq_false_iff_not, Moment.millis, Int.fdiv_eq_ediv_of_nonneg _ (by decide)]
  omega

private theorem isDueBy_context (t : Moment) (row : ContextRow) :
    isDueBy t row.context = (row.completed.isNone && row.wakeup.any fun ms => ms ≤ t.millis) := by
  cases hw : row.wakeup with
  | none => simp [isDueBy, ContextRow.context, hw]
  | some ms =>
    have hcome : (!t.isBefore (.ofMillis ms)) = decide (ms ≤ t.millis) := by
      rw [Bool.eq_iff_iff, Bool.not_eq_true', isBefore_ofMillis, decide_eq_true_eq]
    simp [isDueBy, ContextRow.context, hw, hcome]

private theorem wakesBefore_ofMillis {a b : Context} {x y : Int}
    (ha : a.wakeup = some (.ofMillis x)) (hb : b.wakeup = some (.ofMillis y)) :
    Memory.wakesBefore a b = decide (x < y) := by
  have hstep : (Moment.ofMillis x).isBefore (.ofMillis y) = decide (x * 1000 < y * 1000) :=
    Moment.utc_inStep _ _
  simp only [Memory.wakesBefore, ha, hb, hstep, decide_eq_decide]
  omega

private theorem queue_rows (r : Rows) : queue t (.rows r) =
    ((r.contexts.filter fun row =>
        row.completed.isNone && row.wakeup.any fun ms => (some t).any fun n => ms ≤ n.millis).mergeSort
      fun a b => decide (a.wakeup.getD 0 ≤ b.wakeup.getD 0)).map ContextRow.context := by
  have hdue : isDueBy t ∘ ContextRow.context = fun row =>
      row.completed.isNone && row.wakeup.any fun ms => (some t).any fun n => ms ≤ n.millis :=
    funext fun row => isDueBy_context t row
  rw [List.map_mergeSort (s := fun a b => !Memory.wakesBefore b a), queue, dueOf, List.filter_map,
    hdue]
  have hwaits {row : ContextRow} (hrow : row ∈ r.contexts.filter fun row => row.completed.isNone &&
      row.wakeup.any fun ms => (some t).any fun n => ms ≤ n.millis) : ∃ ms, row.wakeup = some ms := by
    have hdue := (List.mem_filter.mp hrow).2
    cases hw : row.wakeup with
    | none => simp [hw] at hdue
    | some ms => exact ⟨ms, rfl⟩
  intro a ha b hb
  obtain ⟨x, hx⟩ := hwaits ha
  obtain ⟨y, hy⟩ := hwaits hb
  rw [wakesBefore_ofMillis (x := y) (y := x) (by simp [ContextRow.context, hy])
    (by simp [ContextRow.context, hx]), hx, hy]
  simp [← decide_not]

theorem rows_due {r : Rows} (hs : r.connected = true) (hb : (Store.rows r).Takes limit) :
    (Store.rows r).due (some t) (Access.limitValue limit) =
      ((queue t (.rows r)).take (limit.getD (queue t (.rows r)).length)).mapM Context.dated := by
  have hconnected : r.checkConnected = .ok () := Rows.checkConnected_eq_ok.mpr hs
  have hbound : Rows.bound? (Access.limitValue limit) = .ok limit :=
    Rows.bound?_limit (hb Kind.noConfusion)
  rw [queue_rows, List.length_map, ← List.map_take, List.mapM_map]
  simp only [Store.due, Rows.due, hconnected, hbound]
  rfl

/-! ## The store on a server -/

private theorem filterMap_take {α β : Type} {f : α → Option β} {xs : List α}
    (h : ∀ x ∈ xs, (f x).isSome) (n : Nat) : (xs.take n).filterMap f = (xs.filterMap f).take n := by
  induction xs generalizing n with
  | nil => simp
  | cons x rest ih =>
    obtain ⟨hx, hrest⟩ := List.forall_mem_cons.mp h
    obtain ⟨y, hy⟩ := Option.isSome_iff_exists.mp hx
    cases n with
    | zero => rfl
    | succ n =>
      rw [List.take_succ_cons, List.filterMap_cons_some hy, List.filterMap_cons_some hy,
        List.take_succ_cons, ih hrest]

section Keys
variable {k : Keys} (h : k.Timed)
include h

theorem contextAt_row (hr : (Store.keys k).row? i = some r) :
    k.contextAt (some i) = r.dated.map some := by
  simp only [row?] at hr
  split at hr
  · rename_i row hrow
    cases hr
    obtain ⟨n, hn⟩ := (h.typed i row hrow).1
    have hread : Keys.readRow row = row.context.dated := by
      simp only [Keys.readRow, hn]
      rfl
    simp only [Keys.contextAt, Server.context?_eq_some.mpr hrow]
    change (Keys.readRow row).map some = _
    rw [hread]
  · cases hr

private theorem mem_upTo_iff (ht : t.IsShown) {set : List (String × Int)}
    (hset : k.server.members k.wakeupsKey = .ok set) : i ∈ Scored.upTo t.millis set ↔
      ∃ r, (Store.keys k).row? i = some r ∧ r.completed = none ∧ Come t r := by
  obtain ⟨set', hset', _, _, hwaits⟩ := members_wait h
  rw [hset] at hset'
  cases hset'
  simp only [Scored.upTo, scoreOf_shown ht, List.mem_map, List.mem_filter, decide_eq_true_eq,
    Prod.exists, exists_and_right, exists_eq_right, hwaits]
  constructor
  · rintro ⟨ms, ⟨row, hrow, hopen, hwake⟩, hle⟩
    have hfind := Server.context?_eq_some.mp hrow
    refine ⟨row.context, by simp only [row?, hfind], ?_⟩
    rw [← isDueBy_iff, isDueBy_context]
    simp [hopen, hwake, hle]
  · rintro ⟨r, hr, hd⟩
    simp only [row?] at hr
    split at hr
    · rename_i row hrow
      cases hr
      rw [← isDueBy_iff, isDueBy_context] at hd
      cases hw : row.wakeup with
      | none => simp [hw] at hd
      | some ms =>
        simp only [hw, Option.any_some, Bool.and_eq_true, Option.isNone_iff_eq_none,
          decide_eq_true_eq] at hd
        exact ⟨ms, ⟨row, Server.context?_eq_some.mpr hrow, hd.1, hw⟩, hd.2⟩
    · cases hr

private theorem keys_rowsOf {ids : List String}
    (hids : ∀ i ∈ ids, ∃ r, (Store.keys k).row? i = some r) :
    k.rowsOf ids = (ids.filterMap fun i => (Store.keys k).row? i).mapM Context.dated := by
  unfold Keys.rowsOf
  induction ids with
  | nil => rfl
  | cons i rest ih =>
    obtain ⟨⟨r, hr⟩, hrest⟩ := List.forall_mem_cons.mp hids
    rw [List.filterMapM_cons, List.filterMap_cons, contextAt_row h hr, hr, List.mapM_cons, ih hrest]
    cases r.dated <;> rfl

theorem keys_due (ht : t.IsShown) (hb : (Store.keys k).Takes limit) :
    (Store.keys k).due (some t) (Access.limitValue limit) =
      ((queue t (.keys k)).take (limit.getD (queue t (.keys k)).length)).mapM Context.dated := by
  obtain ⟨set, hset, _⟩ := members_wait h
  let ids := Scored.upTo t.millis set
  have hrows : ∀ i ∈ ids, ∃ r, (Store.keys k).row? i = some r := fun i hi =>
    ((mem_upTo_iff h ht hset).mp hi).imp fun _ => And.left
  have hqueue : queue t (.keys k) = ids.filterMap fun i => (Store.keys k).row? i := by
    simp only [queue, hset]
    rfl
  have hall : ∀ i ∈ ids, ((Store.keys k).row? i).isSome := fun i hi =>
    Option.isSome_iff_exists.mpr (hrows i hi)
  have hconnected : k.checkConnected = .ok () := Keys.checkConnected_eq_ok.mpr h.connected
  have hdue : k.dueIds (some t) (Access.limitValue limit) = .ok (ids.take (limit.getD ids.length)) := by
    refine bind_eq_ok.mpr ⟨t.millis, rfl, ?_⟩
    refine bind_eq_ok.mpr ⟨limit, Keys.bound?_limit (hb Kind.noConfusion), ?_⟩
    exact bind_eq_ok.mpr ⟨set, hset, rfl⟩
  rw [hqueue, List.filterMap_length_eq_length.mpr hall, ← filterMap_take hall,
    ← keys_rowsOf h fun i hi => hrows i (List.mem_of_mem_take hi)]
  simp only [Store.due, Keys.due, hconnected, hdue]
  rfl

omit h in
private theorem wakeup_of_waits {ms : Int} (hw : k.Waits i ms)
    (hr : (Store.keys k).row? i = some r) : r.wakeup = some (.ofMillis ms) := by
  obtain ⟨row, hrow, _, hwake⟩ := hw
  simp only [row?, Server.context?_eq_some.mp hrow, Option.some.injEq] at hr
  rw [← hr, ContextRow.context, hwake, Option.map_some]

theorem keys_queued (ht : t.IsShown) : Queued t (.keys k) := by
  obtain ⟨set, hset, hordered, hnodup, hwaits⟩ := members_wait h
  have hqueue : queue t (.keys k) =
      (Scored.upTo t.millis set).filterMap fun i => (Store.keys k).row? i := by
    simp only [queue, hset]
    rfl
  constructor
  · refine List.pairwise_map.mpr ?_
    rw [hqueue, List.pairwise_filterMap]
    refine (hnodup.sublist (List.filter_sublist.map _)).imp fun {i j} hij a ha b hb he => hij ?_
    have hida : a.id = some i := Sound.row?_id (s := .keys k) h.sound ha
    have hidb : b.id = some j := Sound.row?_id (s := .keys k) h.sound hb
    exact Option.some.inj (hida.symm.trans (he.trans hidb))
  · rw [hqueue, List.pairwise_filterMap, Scored.upTo, List.pairwise_map]
    refine (hordered.sublist List.filter_sublist).imp_of_mem ?_
    rintro ⟨i, ms⟩ ⟨j, ms'⟩ hi hj hprecedes a ha b hb
    have hms := (hwaits i ms).mp (List.mem_filter.mp hi).1
    have hms' := (hwaits j ms').mp (List.mem_filter.mp hj).1
    rw [wakesBefore_ofMillis (wakeup_of_waits hms' hb) (wakeup_of_waits hms ha),
      decide_eq_false_iff_not]
    rcases hprecedes with hlt | ⟨heq, _⟩
    · exact Int.not_lt.mpr (Int.le_of_lt hlt)
    · exact Int.not_lt.mpr (Int.le_of_eq heq)
  · intro c
    rw [hqueue, List.mem_filterMap]
    constructor
    · rintro ⟨i, hi, hr⟩
      obtain ⟨r, hr', hd⟩ := (mem_upTo_iff h ht hset).mp hi
      cases hr.symm.trans hr'
      exact ⟨i, hr, hd⟩
    · rintro ⟨i, hr, hd⟩
      exact ⟨i, (mem_upTo_iff h ht hset).mpr ⟨c, hr, hd⟩, hr⟩

end Keys

/-! ## All stores -/

private theorem queued_dueOf (hq : s.queue t = dueOf t cs) (hids : (cs.map Context.id).Nodup)
    (ho : Orders (fun a b => !Memory.wakesBefore b a) (cs.filter (isDueBy t)))
    (hrows : ∀ c, c ∈ cs ↔ ∃ i, s.row? i = some c) : Queued t s := by
  constructor
  · rw [hq]
    exact nodup_dueOf hids
  · rw [hq]
    exact ho.pairwise.imp (by simp)
  · intro c
    rw [hq, mem_dueOf, hrows, exists_and_right]

theorem rows_queued {r : Rows} (hs : r.Sound) (t : Moment) : Queued t (.rows r) := by
  have hids : (r.contexts.map ContextRow.context).map Context.id =
      (r.contexts.map ContextRow.id).map some := by
    rw [List.map_map, List.map_map]
    rfl
  refine queued_dueOf rfl (hids ▸ nodup_map_some hs.ids) (orders_rows t r.contexts) fun c => ?_
  constructor
  · intro hc
    obtain ⟨row, hrow, rfl⟩ := List.mem_map.mp hc
    exact ⟨row.id, by simp only [row?, find?_eq_of_mem hs.ids hrow, Option.map_some]⟩
  · rintro ⟨i, hr⟩
    obtain ⟨row, hrow, rfl⟩ := Option.map_eq_some_iff.mp hr
    exact List.mem_map_of_mem (List.mem_of_find?_eq_some hrow)

theorem Timely.queued (hs : s.Timely) (ht : t.IsShown) : Queued t s := by
  cases s with
  | memory m =>
    refine queued_dueOf rfl ?_ (hs.orders fun c => (memory_row_iff hs.sound).mp)
      fun c => memory_row_iff hs.sound
    rw [memory_ids hs.sound]
    exact nodup_map_some (Memory.Sound.keys hs.sound)
  | rows r => exact rows_queued hs.sound t
  | keys k => exact keys_queued (hs.timed k rfl) ht

/-- A store in memory is timely if its rows stand under their own ids and their wakeup times are
aware and compare as their instants do. -/
theorem timely_memory {m : Memory} (hn : (m.contexts.map Prod.fst).Nodup)
    (h : ∀ x ∈ m.contexts, x.2.id = some x.1 ∧ x.2.index = none ∧ x.2.wakeup.all Moment.zoned)
    (hstep : ∀ t ∈ m.contexts.filterMap fun x => x.2.wakeup,
      ∀ u ∈ m.contexts.filterMap fun x => x.2.wakeup, t.InStep u) : (Store.memory m).Timely where
  connected := rfl
  sound := by
    refine ⟨hn, fun i c hc => ?_⟩
    obtain ⟨hid, hindex, -⟩ := h (i, c) (Table.mem_of_find?_eq_some hc)
    exact ⟨hid, hindex⟩
  aware i r w hr hw := by
    obtain ⟨-, -, haware⟩ := h (i, r) (Table.mem_of_find?_eq_some hr)
    simpa [hw] using haware
  ordered := by
    refine Moment.ordered_of_inStep ?_
    rintro t u ⟨i, c, hc, -, ht⟩ ⟨j, d, hd, -, hu⟩
    exact hstep t (List.mem_filterMap.mpr ⟨(i, c), Table.mem_of_find?_eq_some hc, ht⟩) u
      (List.mem_filterMap.mpr ⟨(j, d), Table.mem_of_find?_eq_some hd, hu⟩)
  expectable _ _ _ _ hk := by cases hk
  timed _ hk := by cases hk

theorem mapM_dated_eq_ok {cs ds : List Context} :
    cs.mapM Context.dated = .ok ds ↔ (∀ c ∈ cs, c.isLegible = true) ∧ ds = cs := by
  simp only [mapM_eq_ok fun _ _ => Context.dated_eq_ok, List.map_id_fun', id_eq]

/-- A read with a limit takes the front of the queue, unless a row there cannot be read. -/
theorem Timely.due_eq_ok (hs : s.Timely) (ha : t.zoned = true) (ht : t.IsShown) (hb : s.Takes limit) :
    s.due (some t) (Access.limitValue limit) = .ok cs ↔
      (s.kind ≠ .memory → ∀ c ∈ (s.queue t).take (limit.getD (s.queue t).length), c.isLegible = true) ∧
        cs = (s.queue t).take (limit.getD (s.queue t).length) := by
  cases s with
  | memory m =>
    rw [memory_due hs ha limit, Except.ok.injEq, eq_comm]
    exact (and_iff_right fun hk => absurd rfl hk).symm
  | rows r =>
    rw [rows_due hs.connected hb, mapM_dated_eq_ok]
    exact and_congr_left' (imp_iff_right Kind.noConfusion).symm
  | keys k =>
    rw [keys_due (hs.timed k rfl) ht hb, mapM_dated_eq_ok]
    exact and_congr_left' (imp_iff_right Kind.noConfusion).symm

theorem Timely.due_eq (hs : s.Timely) (ha : t.zoned = true) (ht : t.IsShown) (hb : s.Takes limit)
    (hl : s.LegibleBy t) : s.due (some t) (Access.limitValue limit) =
      .ok ((s.queue t).take (limit.getD (s.queue t).length)) :=
  (hs.due_eq_ok ha ht hb).mpr ⟨fun hk c hc => hl hk c (List.mem_of_mem_take hc), rfl⟩

private theorem int_ne_null {n : Int} : Json.int n ≠ .null := fun h => by cases h

private theorem word_of_rows_bound {n : Nat} {bound : Option Nat}
    (h : Rows.bound? (Access.limitValue (some n)) = .ok bound) : IsWord n := by
  by_contra hlarge
  have hsize : Rows.checkSize n = .error (.tooLarge .column) := by
    refine if_neg fun hfits => hlarge ?_
    have hlargest : Rows.largest = (Nat.pow 2 63 : Int) - 1 := rfl
    unfold IsWord
    omega
  have hcell : Rows.cell (.int n) = .error (.tooLarge .column) := by rw [Rows.cell, hsize]; rfl
  have hrefused : Rows.bound? (.int n) = .error (.tooLarge .column) := by
    rw [Rows.bound?, if_neg int_ne_null, hcell]
    rfl
  cases hrefused.symm.trans h

private theorem word_of_keys_bound {n : Nat} {bound : Option Nat}
    (h : Keys.bound? (Access.limitValue (some n)) = .ok bound) : IsWord n := by
  by_contra hlarge
  have hbeyond : ¬ (-(Nat.pow 2 63 : Int) ≤ n ∧ (n : Int) < Nat.pow 2 63) := hlarge
  have hcount : Keys.count (.int n) = .error .notACount := by simp only [Keys.count, hbeyond, if_false]
  have hrefused : Keys.bound? (.int n) = .error .notACount := by
    rw [Keys.bound?, if_neg int_ne_null, hcount]
    rfl
  cases hrefused.symm.trans h

/-- A store that answers with a limit takes it. -/
theorem takes_of_due {cs : List Context} (h : s.due (some t) (Access.limitValue limit) = .ok cs) :
    s.Takes limit := by
  rintro hkind n rfl
  cases s with
  | memory m => exact absurd rfl hkind
  | rows r =>
    obtain ⟨_, _, h⟩ := bind_eq_ok.mp h
    obtain ⟨_, hbound, _⟩ := bind_eq_ok.mp h
    exact word_of_rows_bound hbound
  | keys k =>
    obtain ⟨_, _, h⟩ := bind_eq_ok.mp h
    obtain ⟨_, hids, _⟩ := bind_eq_ok.mp h
    obtain ⟨_, _, hids⟩ := bind_eq_ok.mp hids
    obtain ⟨_, hbound, _⟩ := bind_eq_ok.mp hids
    exact word_of_keys_bound hbound

/-! ## Resumption -/

private theorem dueOf_replaced (hc : isDueBy t c = false)
    (ho : Orders (fun a b => !Memory.wakesBefore b a) (cs.filter (isDueBy t))) :
    dueOf t (cs.map fun d => if d.id = some i then c else d) =
      (dueOf t cs).filter fun d => d.id ≠ some i := by
  have hfilter : (cs.map fun d => if d.id = some i then c else d).filter (isDueBy t) =
      (cs.filter (isDueBy t)).filter fun d => d.id ≠ some i := by
    clear ho
    induction cs with
    | nil => rfl
    | cons d rest ih =>
      by_cases hd : d.id = some i
      · cases hdue : isDueBy t d <;> simp_all
      · cases hdue : isDueBy t d <;> simp_all
  rw [dueOf, dueOf, ho.filter, hfilter]

private theorem isDueBy_changed (k : Kind) (now : Moment) (c : Context) :
    isDueBy t (k.changed [.wakeup none] now c) = false := by
  simp [isDueBy, Kind.changed, Context.applyAll, Kind.change, Context.apply]

private theorem memory_queue_update {m : Memory} {now : Moment} {expected : Option Int} {v : Int}
    (ht : (Store.memory m).Timely)
    (hu : (Store.memory m).update now none (some i) [.wakeup none] expected = .ok (v, s')) :
    s'.queue t = ((Store.memory m).queue t).filter fun c => c.id ≠ some i := by
  have hs : m.Sound := ht.sound
  obtain ⟨m', hm, rfl⟩ := wrapped_eq_ok.mp hu
  obtain ⟨j, c, hj, hc, _, _, _, rfl⟩ := Memory.update_eq_ok.mp hm
  cases hj
  refine (congrArg (dueOf t) ?_).trans (dueOf_replaced (isDueBy_changed .memory now c)
    (ht.orders fun c => (memory_row_iff hs).mp))
  rw [Table.put_eq_map (fun _ => Kind.memory.changed [.wakeup none] now c) hs.keys hc, List.map_map,
    List.map_map]
  refine List.map_congr_left fun ⟨j, d⟩ hd => ?_
  have hid : d.id = some j := (hs.ids j d (Table.find?_eq_some_of_mem hs.keys hd)).1
  simp only [Function.comp_apply, hid, Option.some.injEq]

private theorem rows_queue_update {r : Rows} {now : Moment} {expected : Option Int} {v : Int}
    (hu : (Store.rows r).update now none (some i) [.wakeup none] expected = .ok (v, s')) :
    s'.queue t = ((Store.rows r).queue t).filter fun c => c.id ≠ some i := by
  obtain ⟨r', hr, rfl⟩ := wrapped_eq_ok.mp hu
  obtain ⟨_, _, _, _, row, hrow, _, _, _, rfl⟩ := Rows.update_eq_ok.mp hr
  have hid : row.id = i := by simpa using List.find?_some hrow
  subst hid
  have hnext : isDueBy t (row.advanced Rows.textCell [.wakeup none] now).context = false := by
    rw [context_advanced .rows Rows.textCell rfl rfl]
    exact isDueBy_changed _ _ _
  refine (congrArg (dueOf t) ?_).trans (dueOf_replaced hnext (orders_rows t r.contexts))
  rw [Rows.putContext, List.map_map, List.map_map]
  refine List.map_congr_left fun x _ => ?_
  rw [Function.comp_apply, Function.comp_apply, advanced_id, apply_ite ContextRow.context]
  simp only [ContextRow.context, Option.some.injEq]

private theorem upTo_removed {f f' : String → Option Context} {bound : Int}
    {set : List (String × Int)} (hid : ∀ j r, f j = some r → r.id = some j)
    (hf : ∀ j, j ≠ i → f' j = f j) :
    (Scored.upTo bound (Scored.remove i set)).filterMap f' =
      ((Scored.upTo bound set).filterMap f).filter fun c => c.id ≠ some i := by
  unfold Scored.upTo Scored.remove
  induction set with
  | nil => rfl
  | cons x rest ih =>
    obtain ⟨j, score⟩ := x
    by_cases hj : j = i
    · subst hj
      cases hr : f j with
      | none => by_cases hle : score ≤ Scored.scoreOf bound <;> simp_all
      | some r =>
        have hr' := hid j r hr
        by_cases hle : score ≤ Scored.scoreOf bound <;> simp_all
    · have hsame := hf j hj
      cases hr : f j with
      | none => by_cases hle : score ≤ Scored.scoreOf bound <;> simp_all
      | some r =>
        have hr' := hid j r hr
        by_cases hle : score ≤ Scored.scoreOf bound <;> simp_all

private theorem keys_queue_update {k : Keys} {now : Moment} {expected : Option Int} {v : Int}
    (h : k.Timed) (hu : (Store.keys k).update now none (some i) [.wakeup none] expected = .ok (v, s')) :
    s'.queue t = ((Store.keys k).queue t).filter fun c => c.id ≠ some i := by
  obtain ⟨j, r, hj, hch, _⟩ := update_changed hu
  cases hj
  obtain ⟨k', hk, rfl⟩ := wrapped_eq_ok.mp hu
  obtain ⟨_, _, j, row, server, hj, hrow, _, _, _, hw, rfl⟩ := Keys.update_eq_ok.mp hk
  cases hj
  have hremoved : Server.removeMember k.wakeupsKey i (Table.put (k.contextKey (some i))
      (.context (row.advanced Keys.fieldText [.wakeup none] now)) k.server) = .ok server := by
    simpa [Keys.writeRow, ContextRow.isSuspended, ContextRow.advanced, ContextRow.apply] using hw
  obtain ⟨set, hset, hmem⟩ := Server.members_removeMember hremoved
  have hbefore : k.server.members k.wakeupsKey = .ok set := by
    rw [← hset]
    apply Server.members_congr
    rw [Table.find?_put, if_neg (k.contextKey_ne_wakeupsKey _)]
  have hafter : ({ k with server } : Keys).server.members ({ k with server } : Keys).wakeupsKey =
      .ok (Scored.remove i set) := hmem
  simp only [queue, hbefore, hafter, Except.toOption, Option.getD_some]
  exact upTo_removed (fun _ _ hr => Sound.row?_id (s := .keys k) h.sound hr) hch.others

/-- A context that is resumed leaves the queue, and the others keep their places. -/
theorem Timely.queue_update {now : Moment} {expected : Option Int} {v : Int} (hs : s.Timely)
    (hu : s.update now none (some i) [.wakeup none] expected = .ok (v, s')) :
    s'.queue t = (s.queue t).filter fun c => c.id ≠ some i := by
  cases s with
  | memory m => exact memory_queue_update hs hu
  | rows r => exact rows_queue_update hu
  | keys k => exact keys_queue_update (hs.timed k rfl) hu

theorem Timely.update {now : Moment} {expected : Option Int} {v : Int} (hs : s.Timely)
    (hu : s.update now none (some i) [.wakeup none] expected = .ok (v, s')) : s'.Timely := by
  obtain ⟨j, r, hj, hch, _⟩ := update_changed hu
  cases hj
  have hwaits (j : String) (r' : Context) (hr' : s'.row? j = some r') (hw : r'.wakeup.isSome) :
      s.row? j = some r' := by
    by_cases hij : j = i
    · subst hij
      cases hch.row.symm.trans hr'
      cases hw
    · exact (hch.others j hij).symm.trans hr'
  have huntil {j : String} {t : Moment} : s'.WaitsUntil j t → s.WaitsUntil j t := by
    rintro ⟨r', hr', hopen, hw⟩
    exact ⟨r', hwaits j r' hr' (by rw [hw]; rfl), hopen, hw⟩
  constructor
  · exact hch.connected.trans hs.connected
  · exact hs.sound.update hu
  · intro j r' w hr' hw
    exact hs.aware j r' w (hwaits j r' hr' (by rw [hw]; rfl)) hw
  · rintro t u w ⟨j, ht⟩ ⟨k, hu⟩ ⟨l, hw⟩
    exact hs.ordered t u w ⟨j, huntil ht⟩ ⟨k, huntil hu⟩ ⟨l, huntil hw⟩
  · intro j r' hr' hw hk
    exact hs.expectable j r' (hwaits j r' hr' hw) hw (hch.kind.symm.trans hk)
  · rintro k' rfl
    cases s with
    | keys k =>
      obtain ⟨k'', hk, he⟩ := wrapped_eq_ok.mp hu
      cases he
      exact (hs.timed k rfl).update (by simp) hk
    | memory m => cases hch.kind
    | rows r => cases hch.kind

end Store
end DurableFlow
