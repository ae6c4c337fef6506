import DurableFlow.Proofs.Engine.TickRuns

/-! Broken contexts in the way of others. They stay where they are in the queue, so that every batch begins
with them: a batch reaches what has fewer of them in front than it has places, and nothing else. -/
namespace DurableFlow.Engine
open Store (Queued)
variable {e : Engine} {t : Moment} {broken : List String} {c : Context} {cs : List Context}
  {stays : Context → Bool} {m n k : Nat}

/-- What stays in a queue for good: those that stay by themselves, and everything behind as many of them
as a batch has places. -/
def blocked (stays : Context → Bool) : Nat → List Context → List Context
  | 0, cs => cs
  | _ + 1, [] => []
  | n + 1, c :: cs => if stays c then c :: blocked stays n cs else blocked stays (n + 1) cs

private theorem leave_zero : leave stays 0 cs = cs := rfl

private theorem leave_cons : leave stays (n + 1) (c :: cs) =
    if stays c then c :: leave stays n cs else leave stays n cs := by
  cases h : stays c <;> simp [leave, h]

private theorem blocked_sublist : (blocked stays n cs).Sublist cs := by
  induction cs generalizing n with
  | nil => cases n <;> exact .slnil
  | cons c cs ih =>
    cases n with
    | zero => exact .refl _
    | succ n =>
      rw [blocked]
      split
      · exact ih.cons_cons c
      · exact ih.cons c

private theorem blocked_leave (h : n ≤ m) :
    blocked stays m (leave stays n cs) = blocked stays m cs := by
  induction cs generalizing m n with
  | nil => simp [leave]
  | cons c cs ih =>
    cases n with
    | zero => rw [leave_zero]
    | succ n =>
      obtain ⟨m, rfl⟩ : ∃ m', m = m' + 1 := ⟨m - 1, by omega⟩
      rw [leave_cons, blocked]
      split
      · rw [blocked, if_pos ‹_›, ih (by omega)]
      · exact ih (by omega)

private theorem blocked_of_leave (h : leave stays n cs = cs) : blocked stays n cs = cs := by
  induction cs generalizing n with
  | nil => cases n <;> rfl
  | cons c cs ih =>
    cases n with
    | zero => rfl
    | succ n =>
      rw [leave_cons] at h
      rw [blocked]
      split
      · rw [if_pos ‹_›] at h
        rw [ih (List.cons.inj h).2]
      · rw [if_neg ‹_›] at h
        have hle := (leave_sublist stays n cs).length_le
        rw [h, List.length_cons] at hle
        omega

private theorem iterate_leave (hk : cs.length ≤ k) : (leave stays n)^[k] cs = blocked stays n cs := by
  induction k generalizing cs with
  | zero =>
    rw [List.eq_nil_of_length_eq_zero (Nat.le_zero.mp hk)]
    cases n <;> rfl
  | succ k ih =>
    by_cases hfixed : leave stays n cs = cs
    · rw [Function.iterate_fixed hfixed, blocked_of_leave hfixed]
    · have hlt : (leave stays n cs).length < cs.length := by
        have hsub := leave_sublist stays n cs
        rcases Nat.lt_or_ge (leave stays n cs).length cs.length with hlt | hge
        · exact hlt
        · exact absurd (hsub.eq_of_length_le hge) hfixed
      rw [Function.iterate_succ_apply, ih (by omega), blocked_leave (Nat.le_refl n)]

private theorem mem_blocked {xs ys : List Context} (hn : ((xs ++ c :: ys).map Context.id).Nodup) :
    c ∈ blocked stays n (xs ++ c :: ys) ↔ stays c = true ∨ n ≤ xs.countP stays := by
  induction xs generalizing n with
  | nil =>
    cases n with
    | zero => simp [blocked]
    | succ n =>
      have hc : c ∉ blocked stays (n + 1) ys := fun hm =>
        (List.nodup_cons.mp hn).1 (List.mem_map_of_mem (blocked_sublist.subset hm))
      cases hs : stays c <;> simp [blocked, hs, hc]
  | cons x xs ih =>
    obtain ⟨hx, hn⟩ := List.nodup_cons.mp hn
    have hne : c ≠ x := by
      rintro rfl
      exact hx (by simp)
    cases n with
    | zero => simp [blocked]
    | succ n => cases hs : stays x <;> simp [blocked, hs, ih hn, hne]

private theorem mem_served_or (hc : c ∈ cs) :
    c ∈ served stays n k cs ∨ c ∈ (leave stays n)^[k] cs := by
  induction k generalizing cs with
  | zero => exact .inr hc
  | succ k ih =>
    rw [served, List.mem_append, Function.iterate_succ_apply]
    have hleft (h : c ∈ leave stays n cs) : (c ∈ (cs.take n).filter (fun c => !stays c) ∨
        c ∈ served stays n k (leave stays n cs)) ∨ c ∈ (leave stays n)^[k] (leave stays n cs) :=
      (ih h).imp_left .inr
    rw [← List.take_append_drop n cs] at hc
    rcases List.mem_append.mp hc with htake | hdrop
    · cases hs : stays c with
      | true => exact hleft (List.mem_append_left _ (List.mem_filter.mpr ⟨htake, hs⟩))
      | false => exact .inl (.inl (List.mem_filter.mpr ⟨htake, by rw [hs]; rfl⟩))
    · exact hleft (List.mem_append_right _ hdrop)

/-- Over every store with aware wakeup times that stand in one order, for every aware time by which all
that is due can be read and every set of rows whose updates fail: of as many ticks as there are contexts
due none fails, whatever the limit that the store takes, and after them
a context that was due is left as it was if its row is broken, or if the broken ones before it in the
queue fill a batch;
every other context that was due has been resumed;
and no other row has changed. -/
theorem ticks_reach (he : Hampered broken e) (hs : e.store.Timely) (ha : t.zoned = true)
    (ht : t.IsShown) (hr : e.store.LegibleBy t) {limit : Option Nat} (hl : e.store.Takes limit)
    {clocks : List Int}
    (hclocks : ∀ clock ∈ clocks, (Moment.utc clock).isDated = true)
    (hk : (e.store.queue t).length ≤ clocks.length) :
    let queue := e.store.queue t
    Queued t e.store ∧ ∃ passes e', ticks t (Store.Access.limitValue limit) clocks e = .ok passes e' ∧
      (∀ before c after i, queue = before ++ c :: after → c.id = some i →
        if i ∈ broken ∨ limit.getD queue.length ≤ before.countP (isBroken broken) then
          e'.store.row? i = some c
        else ∃ updated, e'.store.row? i = some (c.resumed updated)) ∧
      ∀ i, (∀ c ∈ queue, c.id ≠ some i) → e'.store.row? i = e.store.row? i := by
  intro queue
  obtain ⟨passes, e', hticks, hs', hq', -, -, hsettled⟩ :=
    ticks_serve he hs ha ht hr hl (Nat.le_refl _) hclocks
  rw [iterate_leave hk] at hq'
  obtain ⟨honce, -, hmembers⟩ := hs.queued ht
  refine ⟨hs.queued ht, passes, e', hticks, ?_, ?_⟩
  · intro before c after i hsplit hid
    have hc : c ∈ queue := by rw [hsplit]; simp
    have hblocked : c ∈ blocked (isBroken broken) (limit.getD queue.length) queue ↔
        i ∈ broken ∨ limit.getD queue.length ≤ before.countP (isBroken broken) := by
      have hn : (queue.map Context.id).Nodup := honce
      rw [hsplit] at hn
      have hiff : c ∈ blocked (isBroken broken) (limit.getD queue.length) (before ++ c :: after) ↔
          isBroken broken c = true ∨ limit.getD queue.length ≤ before.countP (isBroken broken) :=
        mem_blocked hn
      rwa [← hsplit, isBroken, hid, Option.any_some, decide_eq_true_eq] at hiff
    split
    · rename_i hstays
      -- The queue in the end has the rows as they are then.
      obtain ⟨j, hj, -⟩ := ((hs'.queued ht).members c).mp (hq' ▸ hblocked.mpr hstays)
      cases (hs'.sound.row?_id hj).symm.trans hid
      exact hj
    · rename_i hgoes
      rcases mem_served_or (k := clocks.length) hc with hserved | hleft
      · obtain ⟨j, updated, hj, hj'⟩ := hsettled.resumed c hserved
        cases (hs.sound.row?_id hj).symm.trans hid
        exact ⟨updated, hj'⟩
      · rw [iterate_leave hk] at hleft
        exact absurd (hblocked.mp hleft) hgoes
  · intro i hi
    exact hsettled.others i fun c hc => hi c (mem_of_mem_served hc)

/-- Two broken contexts fill a batch of two. What waits between them is resumed, and what waits behind
them never is. -/
theorem ticks_reach_between :
    let waiting (i : String) (w : Int) : String × Context := (i, ⟨some i, .int 7, 1, none, .string "n",
      none, some (.utc w), none, .object [], 1, .utc 0, .utc 0, none⟩)
    let store : Store := .memory { Store.Memory.empty with
      contexts := [waiting "a" 1000, waiting "b" 2000, waiting "c" 3000, waiting "d" 4000] }
    let e := { ofStore store ⟨.int 1, .int 0, .int 0, .int 1⟩ .null 0 with
      faults := { Faults.none with broken := ["a", "c"] } }
    let t := Moment.utc 8000
    let clocks : List Int := [8000, 8001, 8002, 8003]
    (Hampered ["a", "c"] e ∧ store.Timely ∧ t.zoned = true ∧ t.IsShown ∧
        store.LegibleBy t ∧ store.Takes (some 2) ∧ (∀ clock ∈ clocks, (Moment.utc clock).isDated = true) ∧
        (store.queue t).length ≤ clocks.length) ∧
      ∃ passes e', ticks t (.int 2) clocks e = .ok passes e' ∧
        (∃ updated, e'.store.row? "b" = some ((waiting "b" 2000).2.resumed updated)) ∧
        e'.store.row? "d" = some (waiting "d" 4000).2 := by
  intro waiting store e t clocks
  have he : Hampered ["a", "c"] e := ⟨rfl, rfl⟩
  have hs : store.Timely := Store.timely_memory (by decide) (by decide) (by decide)
  have ht : t.IsShown := by decide
  have hr : store.LegibleBy t := fun h => absurd rfl h
  have hl : store.Takes (some 2) := fun h => absurd rfl h
  have hclocks : ∀ clock ∈ clocks, (Moment.utc clock).isDated = true := by decide
  have hqueue : store.queue t = [(waiting "a" 1000).2, (waiting "b" 2000).2, (waiting "c" 3000).2,
      (waiting "d" 4000).2] := List.mergeSort_of_pairwise (by decide)
  have hlength : (store.queue t).length = 4 := by rw [hqueue]; rfl
  obtain ⟨-, passes, e', hticks, hrows, -⟩ :=
    ticks_reach he hs rfl ht hr hl hclocks hlength.le
  refine ⟨⟨he, hs, rfl, ht, hr, hl, hclocks, hlength.le⟩, passes, e', hticks, ?_, ?_⟩
  · have hb := hrows [(waiting "a" 1000).2] _ _ "b" hqueue rfl
    rwa [if_neg (by decide)] at hb
  · have hd := hrows [(waiting "a" 1000).2, (waiting "b" 2000).2, (waiting "c" 3000).2] _ [] "d" hqueue rfl
    rwa [if_pos (by decide)] at hd

/-- One broken context, due before another one, fills a batch of one: two ticks for two due contexts
resume neither. -/
theorem broken_context_starves :
    let waiting (i : String) (w : Int) : String × Context := (i, ⟨some i, .int 7, 1, none, .string "n",
      none, some (.utc w), none, .object [], 1, .utc 0, .utc 0, none⟩)
    let store : Store := .memory { Store.Memory.empty with
      contexts := [waiting "a" 1000, waiting "b" 2000] }
    let e := { ofStore store ⟨.int 1, .int 0, .int 0, .int 1⟩ .null 0 with
      faults := { Faults.none with broken := ["a"] } }
    let t := Moment.utc 8000
    (Hampered ["a"] e ∧ store.Timely ∧ t.zoned = true ∧ t.IsShown ∧ store.LegibleBy t ∧
        store.Takes (some 1) ∧
        (store.queue t).map Context.id = [some "a", some "b"]) ∧
      ∃ passes e', ticks t (.int 1) [8000, 8001] e = .ok passes e' ∧
        e'.store.row? "b" = some (waiting "b" 2000).2 := by
  intro waiting store e t
  have he : Hampered ["a"] e := ⟨rfl, rfl⟩
  have hs : store.Timely := Store.timely_memory (by decide) (by decide) (by decide)
  have ht : t.IsShown := by decide
  have hr : store.LegibleBy t := fun h => absurd rfl h
  have hl : store.Takes (some 1) := fun h => absurd rfl h
  have hqueue : store.queue t = [(waiting "a" 1000).2, (waiting "b" 2000).2] :=
    List.mergeSort_of_pairwise (by decide)
  have hlength : (store.queue t).length = 2 := by rw [hqueue]; rfl
  have ha : t.zoned = true := rfl
  have hclocks : ∀ clock ∈ [8000, 8001], (Moment.utc clock).isDated = true := by decide
  obtain ⟨passes, e', hticks, hs', hq', -⟩ := ticks_serve he hs ha ht hr hl hlength.le hclocks
  -- The batch of each tick is the broken context alone.
  have hsame : e'.store.queue t = [(waiting "a" 1000).2, (waiting "b" 2000).2] := by
    rw [hq', show e.store.queue t = _ from hqueue]
    rfl
  obtain ⟨j, hj, -⟩ := ((hs'.queued ht).members (waiting "b" 2000).2).mp (by rw [hsame]; simp)
  cases (hs'.sound.row?_id hj).symm.trans (show (waiting "b" 2000).2.id = some "b" from rfl)
  exact ⟨⟨he, hs, rfl, ht, hr, hl, by rw [hqueue]; rfl⟩, passes, e', hticks, hj⟩

end DurableFlow.Engine
