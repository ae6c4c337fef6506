import DurableFlow.Proofs.Store.DueQueues

/-! The next wakeup time of a store: the earliest one among the rows that wait, in every kind of
store. -/
namespace DurableFlow.Store
variable {s : Store} {i : String} {t u : Moment}

/-- A read of the next wakeup time tells a time that a context waits for, and none waits for an
earlier one. -/
structure Earliest (s : Store) (t : Moment) : Prop where
  zoned : t.zoned = true
  waits : ∃ i, s.WaitsUntil i t
  least : ∀ j u, s.WaitsUntil j u → u.isBefore t = false

/-! ## The store in memory -/

private theorem isBefore_self (t : Moment) : t.isBefore t = false := by
  cases h : t.isBefore t with
  | false => rfl
  | true => exact h.symm.trans (Moment.isBefore_asymm h)

private theorem earlier_least (ht : t.zoned = true) (hu : u.zoned = true) : ∃ v,
    Memory.earlier t u = .ok v ∧ (v = t ∨ v = u) ∧ t.isBefore v = false ∧ u.isBefore v = false := by
  cases h : u.isBefore t with
  | true => exact ⟨u, by simp [Memory.earlier, Moment.before?, ht, hu, h], .inr rfl,
      Moment.isBefore_asymm h, isBefore_self u⟩
  | false => exact ⟨t, by simp [Memory.earlier, Moment.before?, ht, hu, h], .inl rfl,
      isBefore_self t, h⟩

private theorem foldlM_earlier_least {P : Moment → Prop} (hP : Moment.InOneOrder P) {ts : List Moment}
    (ht : t.zoned = true ∧ P t) (hts : ∀ u ∈ ts, u.zoned = true ∧ P u) :
    ∃ v, ts.foldlM Memory.earlier t = .ok v ∧ (v.zoned = true ∧ P v) ∧ t.isBefore v = false ∧
      ∀ u ∈ ts, u.isBefore v = false := by
  induction ts generalizing t with
  | nil => exact ⟨t, rfl, ht, isBefore_self t, fun _ h => absurd h List.not_mem_nil⟩
  | cons u rest ih =>
    obtain ⟨hu, hrest⟩ := List.forall_mem_cons.mp hts
    obtain ⟨first, hfirst, hone, hleft, hright⟩ := earlier_least ht.1 hu.1
    have hf : first.zoned = true ∧ P first := by
      rcases hone with rfl | rfl
      · exact ht
      · exact hu
    obtain ⟨v, hv, hpv, hle, hall⟩ := ih hf hrest
    rw [List.foldlM_cons, hfirst]
    refine ⟨v, hv, hpv, hP v first t hpv.2 hf.2 ht.2 hle hleft, ?_⟩
    exact List.forall_mem_cons.mpr ⟨hP v first u hpv.2 hf.2 hu.2 hle hright, hall⟩

private theorem memory_mem_times {m : Memory} (hs : m.Sound) :
    t ∈ (m.contexts.filterMap fun (_, c) => if c.isSuspended then c.wakeup else none) ↔
      ∃ i, WaitsUntil (.memory m) i t := by
  rw [List.mem_filterMap]
  constructor
  · rintro ⟨⟨i, c⟩, hc, ht⟩
    dsimp only at ht
    split at ht
    · rename_i hsuspended
      exact ⟨i, c, Table.find?_eq_some_of_mem hs.keys hc, of_isSuspended hsuspended, ht⟩
    · cases ht
  · rintro ⟨i, c, hc, hopen, hw⟩
    refine ⟨(i, c), Table.mem_of_find?_eq_some hc, ?_⟩
    have hsuspended : c.isSuspended = true := by simp [Context.isSuspended, Context.status, hopen, hw]
    dsimp only
    rw [if_pos hsuspended, hw]

private theorem memory_earliest {m : Memory} (hs : (Store.memory m).Timely) :
    (m.nextWakeup = .ok none ∧ ∀ i u, ¬ WaitsUntil (.memory m) i u) ∨
      ∃ t, m.nextWakeup = .ok (some t) ∧ Earliest (.memory m) t := by
  have hmem {t : Moment} := memory_mem_times (m := m) (t := t) hs.sound
  unfold Memory.nextWakeup
  cases hlist : m.contexts.filterMap fun (_, c) => if c.isSuspended then c.wakeup else none with
  | nil =>
    refine .inl ⟨rfl, fun i u hw => ?_⟩
    have hu := hmem.mpr ⟨i, hw⟩
    rw [hlist] at hu
    cases hu
  | cons t rest =>
    have htimes : ∀ u ∈ t :: rest, u.zoned = true ∧ ∃ i, WaitsUntil (.memory m) i u := by
      intro u hu
      obtain ⟨i, r, hr, hopen, hw⟩ := hmem.mp (hlist ▸ hu)
      exact ⟨hs.aware i r u hr hw, i, r, hr, hopen, hw⟩
    obtain ⟨ht, hrest⟩ := List.forall_mem_cons.mp htimes
    obtain ⟨v, hv, ⟨hz, hwaits⟩, hfirst, hleast⟩ := foldlM_earlier_least hs.ordered ht hrest
    refine .inr ⟨v, congrArg (Except.map some) hv, hz, hwaits, fun j u hu => ?_⟩
    have hmember : u ∈ t :: rest := hlist ▸ hmem.mpr ⟨j, hu⟩
    rcases List.mem_cons.mp hmember with rfl | hlater
    · exact hfirst
    · exact hleast u hlater

/-! ## The other stores -/

/-- Outside of memory times are those of UTC. -/
theorem WaitsUntil.eq_ofMillis (hk : s.kind ≠ .memory) (h : s.WaitsUntil i t) :
    ∃ ms, t = .ofMillis ms := by
  obtain ⟨c, hc, -, hw⟩ := h
  cases s with
  | memory m => exact absurd rfl hk
  | rows r =>
    obtain ⟨row, -, rfl⟩ := Option.map_eq_some_iff.mp hc
    obtain ⟨ms, -, rfl⟩ := Option.map_eq_some_iff.mp hw
    exact ⟨ms, rfl⟩
  | keys k =>
    simp only [row?] at hc
    split at hc
    · cases hc
      obtain ⟨ms, -, rfl⟩ := Option.map_eq_some_iff.mp hw
      exact ⟨ms, rfl⟩
    · cases hc

private theorem rows_earliest {r : Rows} (hs : (Store.rows r).Timely) :
    (r.nextWakeup = .ok none ∧ ∀ i u, ¬ WaitsUntil (.rows r) i u) ∨
      ∃ t, r.nextWakeup = t.dated.map some ∧ Earliest (.rows r) t := by
  have hmem {u : Moment} : (∃ i, WaitsUntil (.rows r) i u) ↔ ∃ ms, u = .ofMillis ms ∧
      ms ∈ r.contexts.filterMap fun row => if row.completed.isNone then row.wakeup else none := by
    constructor
    · rintro ⟨i, c, hc, hopen, hwake⟩
      obtain ⟨row, hrow, rfl⟩ := Option.map_eq_some_iff.mp hc
      obtain ⟨ms, hms, rfl⟩ := Option.map_eq_some_iff.mp hwake
      have hnone : row.completed.isNone = true := by simpa [ContextRow.context] using hopen
      exact ⟨ms, rfl, List.mem_filterMap.mpr
        ⟨row, List.mem_of_find?_eq_some hrow, by rw [if_pos hnone, hms]⟩⟩
    · rintro ⟨ms, rfl, hms⟩
      obtain ⟨row, hrow, hwake⟩ := List.mem_filterMap.mp hms
      split at hwake
      · rename_i hnone
        have hr : (Store.rows r).row? row.id = some row.context := by
          simp only [row?, find?_eq_of_mem (Rows.Sound.ids hs.sound) hrow, Option.map_some]
        exact ⟨row.id, row.context, hr, by simpa [ContextRow.context] using hnone,
          by simp [ContextRow.context, hwake]⟩
      · cases hwake
  have hnext : r.nextWakeup = ((r.contexts.filterMap fun row =>
      if row.completed.isNone then row.wakeup else none).min?.mapM fun ms => (Moment.ofMillis ms).dated) := by
    have hconnected : r.checkConnected = .ok () := Rows.checkConnected_eq_ok.mpr hs.connected
    simp only [Rows.nextWakeup, hconnected]
    rfl
  cases hmin : (r.contexts.filterMap fun row =>
      if row.completed.isNone then row.wakeup else none).min? with
  | none =>
    rw [hmin] at hnext
    refine .inl ⟨hnext, fun i u hw => ?_⟩
    obtain ⟨ms, -, hms⟩ := hmem.mp ⟨i, hw⟩
    rw [List.min?_eq_none_iff.mp hmin] at hms
    cases hms
  | some ms =>
    obtain ⟨hms, hleast⟩ := List.min?_eq_some_iff.mp hmin
    rw [hmin] at hnext
    refine .inr ⟨.ofMillis ms, hnext, rfl, hmem.mpr ⟨ms, rfl, hms⟩, fun j u hu => ?_⟩
    obtain ⟨ms', rfl, hms'⟩ := hmem.mp ⟨j, hu⟩
    exact isBefore_ofMillis.mpr ((hleast ms' hms').trans_eq (millis_ofMillis _).symm)

private theorem keys_earliest {k : Keys} (hs : (Store.keys k).Timely) :
    (k.nextWakeup = .ok none ∧ ∀ i u, ¬ WaitsUntil (.keys k) i u) ∨
      ∃ t, k.nextWakeup = t.dated.map some ∧ Earliest (.keys k) t := by
  have hiff {i : String} {u : Moment} :
      WaitsUntil (.keys k) i u ↔ ∃ ms, u = .ofMillis ms ∧ k.Waits i ms := by
    constructor
    · rintro ⟨c, hc, hopen, hw⟩
      simp only [row?] at hc
      split at hc
      · rename_i row hrow
        cases hc
        obtain ⟨ms, hms, rfl⟩ := Option.map_eq_some_iff.mp hw
        exact ⟨ms, rfl, row, Server.context?_eq_some.mpr hrow, by simpa [ContextRow.context] using hopen,
          hms⟩
      · cases hc
    · rintro ⟨ms, rfl, row, hrow, hopen, hms⟩
      exact ⟨row.context, by simp only [row?, Server.context?_eq_some.mp hrow],
        by simp [ContextRow.context, hopen], by simp [ContextRow.context, hms]⟩
  obtain ⟨hnext, hnone⟩ | ⟨i, ms, hnext, hi, hleast⟩ := nextWakeup_least (hs.timed k rfl)
  · refine .inl ⟨hnext, fun i u hw => ?_⟩
    obtain ⟨ms, -, hms⟩ := hiff.mp hw
    exact hnone i ms hms
  · refine .inr ⟨_, hnext, rfl, ⟨i, hiff.mpr ⟨ms, rfl, hi⟩⟩, fun j u hu => ?_⟩
    obtain ⟨ms', rfl, hms'⟩ := hiff.mp hu
    exact isBefore_ofMillis.mpr ((hleast j ms' hms').trans_eq (millis_ofMillis _).symm)

/-! ## All stores -/

private theorem of_dated {next : Option Moment} {o : Except Failure (Option Moment)}
    (ho : o = t.dated.map some) (h : o = .ok next) : next = some t ∧ t.isDated = true := by
  rw [ho] at h
  cases hd : t.dated with
  | ok u =>
    obtain ⟨hdated, rfl⟩ := Moment.dated_eq_ok.mp hd
    rw [hd] at h
    cases h
    exact ⟨rfl, hdated⟩
  | error f =>
    rw [hd] at h
    cases h

/-- A read of the next wakeup time that succeeds gives the earliest one, and none only when no context
waits. Outside of memory a calendar shows that time. -/
theorem Timely.nextWakeup_earliest (hs : s.Timely) {next : Option Moment}
    (h : s.nextWakeup = .ok next) : (next = none ∧ ∀ i u, ¬ s.WaitsUntil i u) ∨
      ∃ t, next = some t ∧ s.Earliest t ∧ (s.kind ≠ .memory → t.isDated = true) := by
  cases s with
  | memory m =>
    have hfound := memory_earliest hs
    have h : m.nextWakeup = .ok next := h
    rw [h] at hfound
    obtain ⟨hnone, hidle⟩ | ⟨t, hsome, hearliest⟩ := hfound
    · exact .inl ⟨Except.ok.inj hnone, hidle⟩
    · exact .inr ⟨t, Except.ok.inj hsome, hearliest, fun hk => absurd rfl hk⟩
  | rows r =>
    obtain ⟨hnone, hidle⟩ | ⟨t, hread, hearliest⟩ := rows_earliest hs
    · exact .inl ⟨Except.ok.inj (h.symm.trans hnone), hidle⟩
    · obtain ⟨hnext, hdated⟩ := of_dated hread h
      exact .inr ⟨t, hnext, hearliest, fun _ => hdated⟩
  | keys k =>
    obtain ⟨hnone, hidle⟩ | ⟨t, hread, hearliest⟩ := keys_earliest hs
    · exact .inl ⟨Except.ok.inj (h.symm.trans hnone), hidle⟩
    · obtain ⟨hnext, hdated⟩ := of_dated hread h
      exact .inr ⟨t, hnext, hearliest, fun _ => hdated⟩

def WaitsInStep (s : Store) : Prop := ∀ i t j u, s.WaitsUntil i t → s.WaitsUntil j u → t.InStep u

theorem waitsInStep_of_kind (hk : s.kind ≠ .memory) : s.WaitsInStep := by
  intro i t j u _ hu
  obtain ⟨ms, rfl⟩ := hu.eq_ofMillis hk
  exact t.inStep_utc _

theorem Earliest.micros_le (h : s.Earliest t) (hs : s.WaitsInStep) (hu : s.WaitsUntil i u) :
    t.micros ≤ u.micros := by
  obtain ⟨j, hj⟩ := h.waits
  have hleast := h.least i u hu
  rw [hs i u j t hu hj, decide_eq_false_iff_not] at hleast
  omega

/-- A context waits for a time up to `now`. Outside of memory none waits for a time before the first one
that a calendar shows. -/
structure ReadyBy (now : Moment) (s : Store) : Prop where
  due : ∃ i u, s.WaitsUntil i u ∧ u.micros ≤ now.micros
  legible : s.kind ≠ .memory → ∃ t : Moment, t.isDated = true ∧ ∀ i u, s.WaitsUntil i u → t.micros ≤ u.micros

/-- What is due at a time of UTC can be read then. -/
theorem Timely.legibleBy (hs : s.Timely) {now : Int} (hnow : (Moment.utc now).isDated = true)
    (hr : s.ReadyBy (.utc now)) : s.LegibleBy (.utc now) := by
  intro hk c hc
  obtain ⟨t, ht, hfirst⟩ := hr.legible hk
  obtain ⟨i, hr, hopen, w, hw, hcome⟩ := ((hs.queued (Moment.isShown_utc hnow)).members c).mp hc
  refine isLegible_of_open hopen fun w' hw' => ?_
  cases hw.symm.trans hw'
  have hstep : (Moment.utc now).InStep w := Moment.utc_inStep _ _
  rw [hstep, decide_eq_false_iff_not] at hcome
  have hle := hfirst i w ⟨c, hr, hopen, hw⟩
  have hlow := Moment.isDated_iff.mp ht
  have hhigh := Moment.isDated_iff.mp hnow
  rw [Moment.isDated_iff]
  simp only [Moment.utc] at hcome hhigh
  omega

end DurableFlow.Store
