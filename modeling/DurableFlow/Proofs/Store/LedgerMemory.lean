import Mathlib.Data.List.Basic
import DurableFlow.Proofs.Store.Ledgers

/-! A store in memory answers as the ledger of its contexts. It holds the ledger itself; what there
is to show is that its sorting and its comparisons of times do what the ledger does. -/
namespace DurableFlow.Store

/-- Steps that pick out elements and change them. -/
theorem filterMapM_filter {α β : Type} {f : α → Except Failure (Option β)} {p : α → Bool}
    {g : α → β} {xs : List α} (h : ∀ x ∈ xs, f x = .ok (if p x then some (g x) else none)) :
    xs.filterMapM f = .ok ((xs.filter p).map g) := by
  rw [filterMapM_eq_ok h, ← List.filterMap_eq_map, List.filterMap_filter]
  rfl

namespace Memory

private theorem insert_memory {fresh : String} {now : Moment} {m : Memory} {c : Context}
    (hc : c.id = none) :
    Store.insert fresh now ⟨.memory m, c⟩ = .ok () ⟨.memory { m with
      contexts := Table.put fresh ((c.named fresh).stamped now).unbound m.contexts },
      (c.named fresh).stamped now⟩ := by
  obtain ⟨id⟩ := c
  cases hc
  rfl

private theorem update_memory (now : Moment) (id : String) (changes : List Context.Change)
    (expected : Option Int) (m : Memory) :
    m.update now (some id) changes expected =
      (Ledger.revise now id changes expected m.contexts).map fun p =>
        (p.1, { m with contexts := p.2 }) := by
  unfold update Ledger.revise
  cases Context.checkFields changes with
  | error f => rfl
  | ok _ =>
    simp only [Option.bind_some]
    cases Table.find? id m.contexts with
    | none => rfl
    | some c =>
      cases hv : Context.checkVersion (some id) expected c.version with
      | error f => simp only [hv]; rfl
      | ok _ => simp only [hv]; rfl

/-! ## Times of whole milliseconds -/

section Times
variable {t u now : Moment}

private theorem isBefore_whole (ht : t.IsWhole) (hu : u.IsWhole) (hs : t.InStep u) :
    t.isBefore u = decide (t.millis < u.millis) := by
  have hlt : t.micros < u.micros ↔ t.millis < u.millis := ht.lt_iff hu
  simp only [show t.isBefore u = decide (t.micros < u.micros) from hs, hlt]

private theorem hasCome_whole (hz : now.zoned = true) (ht : t.IsWhole) (hs : now.InStep t) :
    Context.hasCome (some now) t = .ok (decide (t.millis ≤ now.millis)) := by
  have hzone : t.zoned = now.zoned := ht.zoned.trans hz.symm
  have hle : now.micros < t.micros ↔ now.millis < t.millis := by
    have hmicros := ht.micros_eq
    unfold Moment.millis at hmicros ⊢
    rw [Int.fdiv_eq_ediv_of_nonneg _ (by decide)] at hmicros ⊢
    rw [Int.fdiv_eq_ediv_of_nonneg _ (by decide)]
    omega
  have hbefore : now.isBefore t = decide (now.micros < t.micros) := hs
  simp only [Context.hasCome, Moment.notAfter?, hzone, if_pos, hbefore, hle, ← decide_not,
    Int.not_lt]

private theorem earlier_whole (ht : t.IsWhole) (hu : u.IsWhole) (hs : u.InStep t) :
    earlier t u = .ok (if u.millis < t.millis then u else t) := by
  have hzone : u.zoned = t.zoned := hu.zoned.trans ht.zoned.symm
  by_cases h : u.millis < t.millis <;>
    simp [earlier, Moment.before?, hzone, isBefore_whole hu ht hs, h]

private theorem foldlM_earlier {ts rest : List Moment} (hts : ∀ t ∈ ts, t.IsWhole)
    (hstep : ∀ t ∈ ts, ∀ u ∈ ts, t.InStep u) (ht : t ∈ ts) (hrest : ∀ u ∈ rest, u ∈ ts) :
    ∃ m, rest.foldlM earlier t = .ok m ∧ m.millis = (rest.map Moment.millis).foldl min t.millis := by
  induction rest generalizing t with
  | nil => exact ⟨t, rfl, rfl⟩
  | cons u rest ih =>
    obtain ⟨hu, hrest⟩ := List.forall_mem_cons.mp hrest
    have hnext : (if u.millis < t.millis then u else t) ∈ ts := by
      split
      · exact hu
      · exact ht
    obtain ⟨m, hm, hmin⟩ := ih hnext hrest
    refine ⟨m, ?_, ?_⟩
    · rw [List.foldlM_cons, earlier_whole (hts t ht) (hts u hu) (hstep u hu t ht)]
      exact hm
    · rw [hmin, List.map_cons, List.foldl_cons, apply_ite Moment.millis, Int.min_def]
      congr 1
      split <;> split <;> omega

end Times

/-! ## Due entries -/

private theorem isDue_entered {i : String} {c : Context} (h : Ledger.Entered i c) {now : Moment}
    (hz : now.zoned = true) (hs : ∀ w, c.wakeup = some w → now.InStep w) :
    c.isDue (some now) = .ok (c.alarm.any (· ≤ now.millis)) := by
  cases hc : c.completed with
  | some t => simp [Context.isDue, Context.isSuspended, Context.status, Context.alarm,
      Context.isCompleted, hc]
  | none =>
    cases hw : c.wakeup with
    | none => simp [Context.isDue, Context.alarm, Context.isCompleted, hc, hw]
    | some t =>
      simp [Context.isDue, Context.isSuspended, Context.status, Context.alarm,
        Context.isCompleted, hc, hw, hasCome_whole hz (h.wakeup t hw) (hs t hw)]

private theorem wakesBefore_alarm {i j : String} {c d : Context} (hc : Ledger.Entered i c)
    (hd : Ledger.Entered j d) {x y : Int} (hx : c.alarm = some x) (hy : d.alarm = some y)
    (hs : ∀ t, c.wakeup = some t → ∀ u, d.wakeup = some u → t.InStep u) :
    wakesBefore c d = decide (x < y) := by
  obtain ⟨t, ht, rfl⟩ := Option.map_eq_some_iff.mp (Context.alarm_eq_some.mp hx).2
  obtain ⟨u, hu, rfl⟩ := Option.map_eq_some_iff.mp (Context.alarm_eq_some.mp hy).2
  simp only [wakesBefore, ht, hu]
  exact isBefore_whole (hc.wakeup t ht) (hd.wakeup u hu) (hs t ht u hu)

theorem limited_take (limit : Option Nat) (items : List Context) :
    limited (Access.limitValue limit) items =
      .ok (items.take (limit.getD items.length)) := by
  cases limit with
  | none => simp [limited, Access.limitValue]
  | some n => simp [limited, Access.limitValue]

private theorem due_memory {m : Memory} (h : Ledger.Orderly m.contexts) {ts : List Moment}
    (hw : Ledger.WakesAt ts m.contexts) (hs : ∀ t ∈ ts, ∀ u ∈ ts, t.InStep u) {now : Moment}
    (hz : now.zoned = true) (hnow : now ∈ ts) (limit : Option Nat) :
    m.due (some now) (Access.limitValue limit) =
      .ok (Ledger.contexts ((Ledger.dueBy now m.contexts).take
        (limit.getD (Ledger.dueBy now m.contexts).length))) := by
  have hsort : (Ledger.contexts
      (m.contexts.filter fun e => e.2.alarm.any (· ≤ now.millis))).mergeSort
        (fun a b => !wakesBefore b a) =
      Ledger.contexts (Ledger.dueBy now m.contexts) := by
    refine (List.map_mergeSort ?_).symm
    intro a ha b hb
    obtain ⟨ha, hda⟩ := List.mem_filter.mp ha
    obtain ⟨hb, hdb⟩ := List.mem_filter.mp hb
    obtain ⟨x, hx, _⟩ := (Option.any_eq_true _ _).mp hda
    obtain ⟨y, hy, _⟩ := (Option.any_eq_true _ _).mp hdb
    rw [wakesBefore_alarm (h.entered b hb) (h.entered a ha) hy hx fun t ht u hu =>
      hs t (hw b hb t ht) u (hw a ha u hu), hx, hy]
    simp only [Option.getD_some, ← decide_not, Int.not_lt]
  refine bind_eq_ok.mpr ⟨Ledger.contexts
    (m.contexts.filter fun e => e.2.alarm.any (· ≤ now.millis)), filterMapM_filter ?_, ?_⟩
  · intro e he
    simp only [isDue_entered (h.entered e he) hz fun w he' => hs now hnow w (hw e he w he')]
    rfl
  · rw [hsort, limited_take]
    simp only [Ledger.contexts, List.map_take, List.length_map]

private theorem wakeup_entered (c : Context) :
    (if c.isSuspended then c.wakeup else none) = if c.isCompleted then none else c.wakeup := by
  cases hc : c.completed <;> cases hw : c.wakeup <;>
    simp [Context.isSuspended, Context.status, Context.isCompleted, hc, hw]

private theorem nextWakeup_memory {m : Memory} (h : Ledger.Orderly m.contexts) {ts : List Moment}
    (hw : Ledger.WakesAt ts m.contexts) (hs : ∀ t ∈ ts, ∀ u ∈ ts, t.InStep u) :
    ∃ t, m.nextWakeup = .ok t ∧
      t.map Moment.millis = (m.contexts.filterMap fun e => e.2.alarm).min? := by
  have htimes : (m.contexts.filterMap fun e => e.2.alarm) = (m.contexts.filterMap fun e =>
      if e.2.isCompleted then none else e.2.wakeup).map Moment.millis := by
    rw [List.map_filterMap]
    refine List.filterMap_congr fun e _ => ?_
    unfold Context.alarm
    split <;> rfl
  have hwaits : ∀ u ∈ m.contexts.filterMap (fun e =>
      if e.2.isCompleted then none else e.2.wakeup), ∃ e ∈ m.contexts, e.2.wakeup = some u := by
    intro u hu
    obtain ⟨e, he, hfound⟩ := List.mem_filterMap.mp hu
    split at hfound
    · cases hfound
    · exact ⟨e, he, hfound⟩
  unfold nextWakeup
  simp only [wakeup_entered]
  rw [htimes]
  cases hcs : m.contexts.filterMap fun e => if e.2.isCompleted then none else e.2.wakeup with
  | nil => exact ⟨none, rfl, rfl⟩
  | cons t rest =>
    rw [hcs] at hwaits
    have hwhole : ∀ u ∈ t :: rest, u.IsWhole := by
      intro u hu
      obtain ⟨e, he, hwake⟩ := hwaits u hu
      exact (h.entered e he).wakeup u hwake
    have hstep : ∀ u ∈ t :: rest, ∀ v ∈ t :: rest, u.InStep v := by
      intro u hu v hv
      obtain ⟨e, he, hwu⟩ := hwaits u hu
      obtain ⟨f, hf, hwv⟩ := hwaits v hv
      exact hs u (hw e he u hwu) v (hw f hf v hwv)
    obtain ⟨first, hfirst, hmin⟩ := foldlM_earlier hwhole hstep List.mem_cons_self
      fun u hu => List.mem_cons_of_mem t hu
    refine ⟨some first, by simp only [hfirst, Except.map], ?_⟩
    rw [List.map_cons, List.min?_cons', Option.map_some, hmin]

private theorem oldestFirst_filter {l : Ledger} (h : l.Orderly) (p : Context → Bool) :
    oldestFirst ((l.map (·.2)).filter p) = Ledger.contexts (l.filter fun e => p e.2) := by
  have hsorted : (l.map (·.2)).Pairwise fun a b =>
      decide (a.inserted.micros ≤ b.inserted.micros) = true := by
    refine List.pairwise_map.mpr (h.inOrder.imp ?_)
    rintro a b ⟨_, hle⟩
    exact decide_eq_true hle
  have hkept := List.mergeSort_of_pairwise (hsorted.sublist (List.filter_sublist (p := p)))
  rw [oldestFirst, hkept, List.filter_map]
  rfl

private theorem ofContact_memory {m : Memory} (h : Ledger.Orderly m.contexts) (contact : Int)
    (includeCompleted : Bool) :
    m.ofContact (.int contact) includeCompleted = Ledger.contexts (m.contexts.filter fun e =>
      e.2.contact = .int contact && (includeCompleted || !e.2.isCompleted)) := by
  have hsame : ∀ e ∈ m.contexts, (e.2.contact.same (.int contact)) =
      decide (e.2.contact = .int contact) := by
    intro e he
    obtain ⟨n, hn⟩ := (h.entered e he).contact
    rw [hn, Json.same_int]
  rw [ofContact, oldestFirst_filter h]
  refine congrArg Ledger.contexts (List.filter_congr ?_)
  intro e he
  rw [hsame e he]

/-- A store in memory answers as its contexts do, and keeps doing so. -/
theorem perform_answer {m : Memory} (h : Ledger.Orderly m.contexts) {ts : List Moment}
    (hw : Ledger.WakesAt ts m.contexts) (hs : ∀ t ∈ ts, ∀ u ∈ ts, t.InStep u) {a : Access}
    (ha : a.IsTyped) (hts : ∀ t ∈ a.times, t ∈ ts) (hl : Ledger.ComesBefore m.contexts a) :
    (a.perform (.memory m)).1.map Reply.toMillis =
        (Ledger.answer a m.contexts).1.map Reply.toMillis ∧
      ∃ m', (a.perform (.memory m)).2 = .memory m' ∧
        m'.contexts = (Ledger.answer a m.contexts).2 := by
  cases a with
  | insert c fresh now =>
    simp only [Access.perform, insert_memory ha.1.unnamed]
    exact ⟨rfl, _, rfl, Table.put_eq_append hl.fresh⟩
  | update now id changes expected =>
    simp only [Access.perform, Store.update, update_memory, Ledger.answer]
    cases Ledger.revise now id changes expected m.contexts with
    | error f => exact ⟨rfl, m, rfl, rfl⟩
    | ok p => exact ⟨rfl, _, rfl, rfl⟩
  | get id => exact ⟨rfl, m, rfl, rfl⟩
  | due now limit =>
    have hdue := due_memory h hw hs ha.1 (hts now (List.mem_singleton.mpr rfl)) limit
    simp only [Access.perform, Store.due, hdue]
    exact ⟨rfl, m, rfl, rfl⟩
  | children parent =>
    simp only [Access.perform, Store.children, children, oldestFirst_filter h]
    exact ⟨rfl, m, rfl, rfl⟩
  | ofContact contact includeCompleted =>
    simp only [Access.perform, Store.ofContact, ofContact_memory h]
    exact ⟨rfl, m, rfl, rfl⟩
  | nextWakeup =>
    obtain ⟨t, ht, hmin⟩ := nextWakeup_memory h hw hs
    simp only [Access.perform, Store.nextWakeup, ht, Ledger.answer, Except.map, Reply.toMillis,
      ← hmin, Moment.map_ofMillis_millis]
    exact ⟨trivial, m, rfl, rfl⟩

end Memory

end DurableFlow.Store
