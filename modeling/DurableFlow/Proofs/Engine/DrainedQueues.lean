import DurableFlow.Proofs.Engine.TickRuns

/-! Ticks that nothing hinders drain a queue: batch after batch in its order, whoever else waits. -/
namespace DurableFlow.Engine
open Store (Queued)
variable {e : Engine} {t : Moment}

private theorem served_eq_take (n k : Nat) (cs : List Context) :
    served (fun _ => false) n k cs = cs.take (k * n) := by
  induction k generalizing cs with
  | zero => rw [Nat.zero_mul, List.take_zero, served]
  | succ k ih =>
    have hleave : leave (fun _ => false) n cs = cs.drop n := by simp [leave]
    calc served (fun _ => false) n (k + 1) cs
        = cs.take n ++ (cs.drop n).take (k * n) := by simp [served, hleave, ih]
      _ = cs.take ((k + 1) * n) := by rw [← List.take_add, Nat.succ_mul, Nat.add_comm]

/-- Over every store with aware wakeup times that stand in one order, and for every aware time by which all
that is due can be read: ticks that nothing hinders, with a limit that the store takes or with none,
hand out the first contexts of the queue in its order, as many as their batches hold together and all of
them in one tick without a limit;
fail to resume none;
and change the rows of these contexts alone, each of which they resume once. The queue has every context
that is due by that time, once, and the earliest wakeup first. -/
theorem ticks_drain (he : Hampered [] e) (hs : e.store.Timely) (ha : t.zoned = true)
    (ht : t.IsShown) (hr : e.store.LegibleBy t) {limit : Option Nat} (hl : e.store.Takes limit)
    {clocks : List Int}
    (hclocks : ∀ clock ∈ clocks, (Moment.utc clock).isDated = true) :
    let queue := e.store.queue t
    let first := queue.take (clocks.length * limit.getD queue.length)
    Queued t e.store ∧ ∃ passes e', ticks t (Store.Access.limitValue limit) clocks e = .ok passes e' ∧
      Resumptions first (passes.flatMap Pass.resumed) ∧ (∀ pass ∈ passes, pass.failed = []) ∧
      Settled first e.store e'.store := by
  intro queue first
  obtain ⟨passes, e', hticks, -, -, hfailed, hresumed, hsettled⟩ :=
    ticks_serve he hs ha ht hr hl (Nat.le_refl _) hclocks
  rw [isBroken_nil, served_eq_take] at hresumed hsettled
  refine ⟨hs.queued ht, passes, e', hticks, hresumed, fun pass hpass => ?_, hsettled⟩
  refine List.eq_nil_iff_forall_not_mem.mpr fun id hid => ?_
  obtain ⟨i, hi, -⟩ := hfailed pass hpass id hid
  cases hi

/-- Two contexts wait for one time, a third for a later one and a fourth for one to come. Two ticks of one
context each resume the two, in the order of their rows. -/
theorem ticks_drain_tie :
    let waiting (i : String) (w : Int) : String × Context := (i, ⟨some i, .int 7, 1, none, .string "n",
      none, some (.utc w), none, .object [], 1, .utc 0, .utc 0, none⟩)
    let store : Store := .memory { Store.Memory.empty with
      contexts := [waiting "a" 5000, waiting "b" 3000, waiting "c" 3000, waiting "d" 9000] }
    let e := ofStore store ⟨.int 1, .int 0, .int 0, .int 1⟩ .null 0
    let t := Moment.utc 8000
    (Hampered [] e ∧ store.Timely ∧ t.zoned = true ∧ t.IsShown ∧ store.LegibleBy t ∧
        store.Takes (some 1) ∧ ∀ clock ∈ [8000, 8001], (Moment.utc clock).isDated = true) ∧
      ∃ passes e', ticks t (.int 1) [8000, 8001] e = .ok passes e' ∧
        (passes.flatMap Pass.resumed).map Context.id = [some "b", some "c"] ∧
        ∀ i, i ≠ "b" → i ≠ "c" → e'.store.row? i = store.row? i := by
  intro waiting store e t
  have he : Hampered [] e := ⟨rfl, rfl⟩
  have hs : store.Timely := Store.timely_memory (by decide) (by decide) (by decide)
  have ht : t.IsShown := by decide
  have hr : store.LegibleBy t := fun h => absurd rfl h
  have hl : store.Takes (some 1) := fun h => absurd rfl h
  have hclocks : ∀ clock ∈ [8000, 8001], (Moment.utc clock).isDated = true := by decide
  have hids : (store.queue t).map Context.id = [some "b", some "c", some "a"] := by
    simp [store, waiting, t, Store.queue, Store.dueOf, Store.isDueBy, Store.Memory.wakesBefore,
      List.mergeSort, List.MergeSort.Internal.splitInTwo, Moment.isBefore, Moment.sharesRegion,
      Moment.utc]
  obtain ⟨-, passes, e', hticks, hresumed, -, hsettled⟩ :=
    ticks_drain he hs rfl ht hr hl hclocks
  have hfirst : ((store.queue t).take 2).map Context.id = [some "b", some "c"] := by
    rw [List.map_take, hids]
    rfl
  refine ⟨⟨he, hs, rfl, ht, hr, hl, hclocks⟩, passes, e', hticks, hresumed.ids.trans hfirst, ?_⟩
  intro i hb hc
  refine hsettled.others i fun c hfound hid => ?_
  have hmem : c.id ∈ [some "b", some "c"] := hfirst ▸ List.mem_map_of_mem hfound
  rw [hid] at hmem
  simp [hb, hc] at hmem

/-- Tables refuse a batch of more than 64 bits, even when nothing is due. Nor does a tick over them get
through when a context waits for midnight of the first day of the year 1 by a clock 14 hours ahead of UTC.
And around the hour in which the clocks of Berlin are set back there are three wakeup times of which each
comes before the next one in a circle, so that no queue has them in order. -/
theorem ticks_get_stuck :
    let early : Moment := ⟨-62135647200000000, some (.region "+14:00" 50400000000)⟩
    let second : Moment := ⟨1698543000000000, some (.region "Europe/Berlin" 3600000000)⟩
    let first : Moment := ⟨1698540300000000, some (.region "Europe/Berlin" 7200000000)⟩
    let between : Moment := .utc 1698541200000000
    let waiting (i : String) (w : Moment) : String × Context := (i, ⟨some i, .int 7, 1, some "f",
      .string "n", none, some w, none, .object [], 1, .utc 0, .utc 0, none⟩)
    let tables : Store := .rows (Store.Rows.empty none).connect
    let blocked : Store := ((Store.Call.insert "" (.utc 0) (waiting "a" early).2).perform tables).2
    let circle : Store := .memory { Store.Memory.empty with
      contexts := [waiting "a" second, waiting "b" first, waiting "c" between] }
    let e (store : Store) := ofStore store ⟨.int 1, .int 0, .int 0, .int 1⟩ .null 0
    let t := Moment.utc 1700000000000000
    ((∀ store, Hampered [] (e store)) ∧ t.zoned = true ∧ t.IsShown) ∧
      (∀ passes e', ticks t (Store.Access.limitValue (some (Nat.pow 2 63))) [0] (e tables) ≠
        .ok passes e') ∧
      ((∃ c, blocked.row? "a" = some c ∧ Store.Come t c) ∧
        ∀ passes e', ticks t .null [0] (e blocked) ≠ .ok passes e') ∧
      ((∀ i ∈ ["a", "b", "c"], ∃ c, circle.row? i = some c ∧ Store.Come t c) ∧ ¬ Queued t circle) := by
  intro early second first between waiting tables blocked circle e t
  have hcome {c : Context} (h : Store.isDueBy t c = true) : c.completed = none ∧ Store.Come t c :=
    Store.isDueBy_iff.mp h
  refine ⟨⟨fun _ => ⟨rfl, rfl⟩, rfl, by decide⟩, fun passes e' h => ?_,
    ⟨⟨_, rfl, (hcome rfl).2⟩, fun passes e' h => ?_⟩, ?_, fun hq => ?_⟩
  · cases h
  · have hraises : (match ticks t .null [0] (e blocked) with
      | .ok _ _ => false
      | .error _ _ => true) = true := by decide +kernel
    rw [h] at hraises
    cases hraises
  · simp only [List.forall_mem_cons, List.not_mem_nil, false_implies, implies_true, and_true]
    exact ⟨⟨_, rfl, (hcome rfl).2⟩, ⟨_, rfl, (hcome rfl).2⟩, ⟨_, rfl, (hcome rfl).2⟩⟩
  · let rows := [waiting "a" second, waiting "b" first, waiting "c" between]
    have hdue : ∀ x ∈ rows, Store.isDueBy t x.2 = true := by decide
    have hahead : ∀ x ∈ rows, ∃ y ∈ rows, y.2 ≠ x.2 ∧ Store.Memory.wakesBefore y.2 x.2 = true := by decide
    have hqueued : ∀ x ∈ rows, x.2 ∈ circle.queue t := fun x hx =>
      (hq.members x.2).mpr ⟨x.1, Table.find?_eq_some_of_mem (by decide) hx, hcome (hdue x hx)⟩
    cases hqueue : circle.queue t with
    | nil => cases hqueue ▸ hqueued (waiting "a" second) List.mem_cons_self
    | cons c rest =>
      -- Whichever of the three stands in front, another one comes before it.
      obtain ⟨i, hi, -⟩ := (hq.members c).mp (hqueue ▸ List.mem_cons_self)
      obtain ⟨y, hy, hne, hbefore⟩ := hahead (i, c) (Table.mem_of_find?_eq_some hi)
      have hrest : y.2 ∈ rest := List.mem_of_ne_of_mem hne (hqueue ▸ hqueued y hy)
      have hsorted := hq.sorted
      rw [hqueue, List.pairwise_cons] at hsorted
      cases hbefore.symm.trans (hsorted.1 y.2 hrest)

end DurableFlow.Engine
