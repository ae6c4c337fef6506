import DurableFlow.Proofs.Store.LegibleRows
import DurableFlow.Proofs.Store.StoredCopies

/-! Reads. All that a read hands out are copies of rows: the row of an id, rows that wait, the rows
of a parent, each once, and the rows of a contact. -/
namespace DurableFlow.Store

section FilterMapM
variable {α β γ : Type} {f : α → Except Failure (Option β)} {xs : List α} {ys : List β}

private theorem filterMapM_cons_eq_ok {x : α} (h : (x :: xs).filterMapM f = .ok ys) :
    ∃ zs, xs.filterMapM f = .ok zs ∧
      (f x = .ok none ∧ ys = zs ∨ ∃ y, f x = .ok (some y) ∧ ys = y :: zs) := by
  rw [List.filterMapM_cons] at h
  obtain ⟨o, ho, h⟩ := bind_eq_ok.mp h
  cases o with
  | none => exact ⟨ys, h, .inl ⟨ho, rfl⟩⟩
  | some y =>
    obtain ⟨zs, hzs, hy⟩ := bind_eq_ok.mp h
    cases hy
    exact ⟨zs, hzs, .inr ⟨y, ho, rfl⟩⟩

theorem of_mem_filterMapM (h : xs.filterMapM f = .ok ys) {y : β} (hy : y ∈ ys) :
    ∃ x ∈ xs, f x = .ok (some y) := by
  induction xs generalizing ys with
  | nil =>
    cases h
    cases hy
  | cons x rest ih =>
    obtain ⟨zs, hzs, ⟨_, rfl⟩ | ⟨z, hz, rfl⟩⟩ := filterMapM_cons_eq_ok h
    · obtain ⟨w, hw, hf⟩ := ih hzs hy
      exact ⟨w, List.mem_cons_of_mem _ hw, hf⟩
    · rcases List.mem_cons.mp hy with rfl | hy
      · exact ⟨x, List.mem_cons_self, hz⟩
      · obtain ⟨w, hw, hf⟩ := ih hzs hy
        exact ⟨w, List.mem_cons_of_mem _ hw, hf⟩

theorem mem_filterMapM (h : xs.filterMapM f = .ok ys) {x : α} (hx : x ∈ xs) :
    f x = .ok none ∨ ∃ y ∈ ys, f x = .ok (some y) := by
  induction xs generalizing ys with
  | nil => cases hx
  | cons w rest ih =>
    obtain ⟨zs, hzs, ⟨hw, rfl⟩ | ⟨z, hw, rfl⟩⟩ := filterMapM_cons_eq_ok h
    · rcases List.mem_cons.mp hx with rfl | hx
      · exact .inl hw
      · exact ih hzs hx
    · rcases List.mem_cons.mp hx with rfl | hx
      · exact .inr ⟨z, List.mem_cons_self, hw⟩
      · rcases ih hzs hx with hn | ⟨y, hy, hf⟩
        · exact .inl hn
        · exact .inr ⟨y, List.mem_cons_of_mem _ hy, hf⟩

theorem sublist_filterMapM {g : β → γ} {e : α → γ} (h : xs.filterMapM f = .ok ys)
    (hg : ∀ x y, f x = .ok (some y) → g y = e x) : (ys.map g).Sublist (xs.map e) := by
  induction xs generalizing ys with
  | nil =>
    cases h
    exact .slnil
  | cons x rest ih =>
    obtain ⟨zs, hzs, ⟨_, rfl⟩ | ⟨y, hy, rfl⟩⟩ := filterMapM_cons_eq_ok h
    · exact (ih hzs).cons _
    · rw [List.map_cons, List.map_cons, hg x y hy]
      exact (ih hzs).cons_cons _

theorem map_filterMapM {g : β → γ} {e : α → γ} (h : xs.filterMapM f = .ok ys)
    (hg : ∀ x y, f x = .ok (some y) → g y = e x) (hsome : ∀ x ∈ xs, f x ≠ .ok none) :
    ys.map g = xs.map e := by
  induction xs generalizing ys with
  | nil =>
    cases h
    rfl
  | cons x rest ih =>
    obtain ⟨hx, hrest⟩ := List.forall_mem_cons.mp hsome
    obtain ⟨zs, hzs, ⟨hnone, _⟩ | ⟨z, hz, rfl⟩⟩ := filterMapM_cons_eq_ok h
    · exact (hx hnone).elim
    · rw [List.map_cons, List.map_cons, hg x z hz, ih hzs hrest]

end FilterMapM

private theorem memory_copied {m : Memory} (hs : m.Sound) {c : Context}
    (hc : c ∈ m.contexts.map (·.2)) : Copied (.memory m) c := by
  obtain ⟨⟨i, d⟩, hm, rfl⟩ := List.mem_map.mp hc
  have hr : Table.find? i m.contexts = some d := Table.find?_eq_some_of_mem hs.keys hm
  exact ⟨i, d, (hs.ids i d hr).1, hr, rfl⟩

theorem find?_eq_of_mem {rows : List ContextRow} (hn : (rows.map ContextRow.id).Nodup)
    {row : ContextRow} (hrow : row ∈ rows) : rows.find? (·.id = row.id) = some row := by
  induction rows with
  | nil => cases hrow
  | cons x rest ih =>
    rw [List.map_cons, List.nodup_cons] at hn
    rcases List.mem_cons.mp hrow with rfl | hrest
    · simp
    · have hne : x.id ≠ row.id := by
        intro he
        exact hn.1 (he ▸ List.mem_map_of_mem hrest)
      simp only [List.find?_cons, hne, decide_false]
      exact ih hn.2 hrest

private theorem rows_copied {t : Rows} (hs : t.Sound) {row : ContextRow}
    (hrow : row ∈ t.contexts) : Copied (.rows t) row.context := by
  refine ⟨row.id, row.context, rfl, ?_, rfl⟩
  simp only [row?, find?_eq_of_mem hs.ids hrow, Option.map_some]

private theorem readRow_eq_ok {row : ContextRow} {c : Context} (h : Keys.readRow row = .ok c) :
    c = { row.context with contact := Kind.keys.told row.contact } := by
  unfold Keys.readRow at h
  split at h
  · rename_i n hn
    obtain ⟨-, rfl⟩ := ContextRow.read_eq_ok.mp h
    rw [hn]
    exact congrArg (fun v => { row.context with contact := v }) hn
  · rename_i hn
    split at h
    · rename_i n hread
      obtain ⟨-, rfl⟩ := ContextRow.read_eq_ok.mp h
      have htold : Kind.keys.told row.contact = .int n := by
        unfold Kind.told
        split
        · rename_i m _ hm
          exact absurd hm (hn m)
        · rw [hread]
          rfl
        · contradiction
      rw [htold]
      rfl
    · cases h

private theorem contextAt_copied {k : Keys} (hs : k.Sound) {i : String} {c : Context}
    (h : k.contextAt (some i) = .ok (some c)) : Copied (.keys k) c ∧ c.id = some i := by
  obtain ⟨o, hrow, h⟩ := bind_eq_ok.mp h
  cases o with
  | none => cases h
  | some row =>
    obtain ⟨d, hd, h⟩ := bind_eq_ok.mp h
    cases h
    have hfind := Server.context?_eq_some.mp hrow
    obtain ⟨row', he, hid⟩ := hs.rows i _ hfind
    cases he
    have hc := readRow_eq_ok hd
    have hci : c.id = some i := by
      rw [hc]
      exact congrArg some hid
    exact ⟨⟨i, row.context, hci, by simp only [row?, hfind], hc⟩, hci⟩

theorem rowsOf_copied {k : Keys} (hs : k.Sound) {ids : List String} {cs : List Context}
    (h : k.rowsOf ids = .ok cs) {c : Context} (hc : c ∈ cs) :
    ∃ i ∈ ids, Copied (.keys k) c ∧ c.id = some i := by
  obtain ⟨i, hi, hf⟩ := of_mem_filterMapM h hc
  exact ⟨i, hi, contextAt_copied hs hf⟩

/-- Of ids that have rows each row is read, in their order. -/
theorem rowsOf_ids {k : Keys} (hs : k.Sound) {ids : List String} {cs : List Context}
    (h : k.rowsOf ids = .ok cs) (hrows : ∀ i ∈ ids, ∃ r, row? i (.keys k) = some r) :
    cs.map Context.id = ids.map some := by
  refine map_filterMapM h (fun i c hc => (contextAt_copied hs hc).2) fun i hi hnone => ?_
  obtain ⟨r, hr⟩ := hrows i hi
  obtain ⟨o, hrow, hnone⟩ := bind_eq_ok.mp hnone
  cases o with
  | none =>
    cases hfind : Table.find? (k.contextKey (some i)) k.server with
    | none =>
      simp only [row?, hfind] at hr
      cases hr
    | some entry =>
      rw [Server.context?, hfind] at hrow
      cases entry <;> cases hrow
  | some row =>
    obtain ⟨d, -, hnone⟩ := bind_eq_ok.mp hnone
    cases hnone

/-- A context read by its id is a copy of its row. -/
theorem Sound.getContext_copied {s : Store} (hs : s.Sound) {i : String} {c : Context}
    (h : s.getContext (some i) = .ok (some c)) : Copied s c ∧ c.id = some i := by
  cases s with
  | memory m =>
    have hr : Table.find? i m.contexts = some c := by simpa [getContext, Memory.getContext] using h
    have hid := (Memory.Sound.ids hs i c hr).1
    exact ⟨⟨i, c, hid, hr, rfl⟩, hid⟩
  | rows t =>
    simp only [getContext, Rows.getContext] at h
    obtain ⟨_, _, h⟩ := bind_eq_ok.mp h
    obtain ⟨-, h⟩ := (option_mapM_eq_ok fun _ _ => ContextRow.read_eq_ok).mp h
    obtain ⟨row, hrow, rfl⟩ := Option.map_eq_some_iff.mp h.symm
    refine ⟨rows_copied hs (List.mem_of_find?_eq_some hrow), ?_⟩
    have hid : row.id = i := by simpa using List.find?_some hrow
    exact congrArg some hid
  | keys k =>
    obtain ⟨_, _, h⟩ := bind_eq_ok.mp h
    exact contextAt_copied hs h

theorem mem_of_limited {limit : Json} {cs found : List Context}
    (h : Memory.limited limit found = .ok cs) {c : Context} (hc : c ∈ cs) : c ∈ found := by
  have hupto (n : Int) (hm : c ∈ if 0 ≤ n then found.take n.toNat
      else found.take (found.length - (-n).toNat)) : c ∈ found := by
    split at hm
    · exact List.mem_of_mem_take hm
    · exact List.mem_of_mem_take hm
  cases limit with
  | null =>
    cases h
    exact hc
  | bool b =>
    cases h
    exact hupto _ hc
  | int n =>
    cases h
    exact hupto _ hc
  | double d => cases h
  | string v => cases h
  | array v => cases h
  | object v => cases h

theorem waiting_of_dueIds {k : Keys} (hs : k.Sound) {now : Option Moment} {limit : Json}
    {ids : List String} (h : k.dueIds now limit = .ok ids) {i : String} (hi : i ∈ ids) :
    ∃ row t latest, Table.find? (k.contextKey (some i)) k.server = some (.context row) ∧
      row.completed = none ∧ row.wakeup = some t ∧ Keys.score now = .ok latest ∧
      Scored.scoreOf t ≤ Scored.scoreOf latest := by
  obtain ⟨latest, hlatest, h⟩ := bind_eq_ok.mp h
  obtain ⟨bound, _, h⟩ := bind_eq_ok.mp h
  obtain ⟨set, hset, h⟩ := bind_eq_ok.mp h
  cases h
  obtain ⟨⟨j, x⟩, hx, rfl⟩ := List.mem_map.mp (List.mem_of_mem_take hi)
  obtain ⟨hmem, hle⟩ := List.mem_filter.mp hx
  obtain ⟨set', hset', hiff⟩ := hs.wakeups
  rw [hset] at hset'
  cases hset'
  obtain ⟨row, hrow, hopen, hscore⟩ := (hiff j x).mp hmem
  obtain ⟨t, ht, rfl⟩ := Option.map_eq_some_iff.mp hscore
  exact ⟨row, t, latest, hrow, hopen, ht, hlatest, by simpa using hle⟩

private theorem suspended_of_copied {k : Keys} {c : Context} (hcopied : Copied (.keys k) c)
    {i : String} (hid : c.id = some i) {row : ContextRow}
    (hrow : Table.find? (k.contextKey (some i)) k.server = some (.context row))
    (hopen : row.completed = none) {t : Int} (hwake : row.wakeup = some t) :
    c.isSuspended = true := by
  obtain ⟨j, r, hj, hr, hc⟩ := hcopied
  rw [hid] at hj
  cases hj
  simp only [row?, hrow, Option.some.injEq] at hr
  subst hr
  rw [hc]
  simp [Context.isSuspended, Context.status, ContextRow.context, hopen, hwake]

/-- A due context is a copy of a row that waits. -/
theorem Sound.due_copied {s : Store} (hs : s.Sound) {now : Option Moment} {limit : Json}
    {cs : List Context} (h : s.due now limit = .ok cs) {c : Context} (hc : c ∈ cs) :
    Copied s c ∧ c.isSuspended = true := by
  cases s with
  | memory m =>
    obtain ⟨found, hfound, h⟩ := bind_eq_ok.mp h
    have hm := List.mem_mergeSort.mp (mem_of_limited h hc)
    obtain ⟨⟨i, d⟩, hd, hf⟩ := of_mem_filterMapM hfound hm
    obtain ⟨b, hb, hf⟩ := bind_eq_ok.mp hf
    cases b with
    | false => cases hf
    | true =>
      cases hf
      refine ⟨memory_copied hs (List.mem_map_of_mem hd), ?_⟩
      unfold Context.isDue at hb
      split at hb
      · assumption
      · cases hb
  | rows t =>
    obtain ⟨_, _, h⟩ := bind_eq_ok.mp h
    obtain ⟨bound, _, h⟩ := bind_eq_ok.mp h
    obtain ⟨-, rfl⟩ := mapM_read_eq_ok.mp h
    obtain ⟨row, hrow, rfl⟩ := List.mem_map.mp hc
    obtain ⟨hm, hdue⟩ := List.mem_filter.mp (List.mem_mergeSort.mp (List.mem_of_mem_take hrow))
    refine ⟨rows_copied hs hm, ?_⟩
    cases hw : row.wakeup <;>
      simp_all [Context.isSuspended, Context.status, ContextRow.context]
  | keys k =>
    obtain ⟨_, _, h⟩ := bind_eq_ok.mp h
    obtain ⟨ids, hids, h⟩ := bind_eq_ok.mp h
    obtain ⟨i, hi, hcopied, hid⟩ := rowsOf_copied hs h hc
    obtain ⟨row, t, _, hrow, hopen, hwake, _⟩ := waiting_of_dueIds hs hids hi
    exact ⟨hcopied, suspended_of_copied hcopied hid hrow hopen hwake⟩

/-- The contexts of a parent are copies of rows, whatever the parent. -/
theorem Sound.children_copied {s : Store} (hs : s.Sound) {parent : Option String}
    {cs : List Context} (h : s.children parent = .ok cs) {c : Context} (hc : c ∈ cs) :
    Copied s c := by
  cases s with
  | memory m =>
    cases h
    exact memory_copied hs (List.mem_filter.mp (List.mem_mergeSort.mp hc)).1
  | rows t =>
    obtain ⟨_, _, h⟩ := bind_eq_ok.mp h
    obtain ⟨-, rfl⟩ := mapM_read_eq_ok.mp h
    obtain ⟨row, hrow, rfl⟩ := List.mem_map.mp hc
    exact rows_copied hs (List.mem_filter.mp (List.mem_mergeSort.mp hrow)).1
  | keys k =>
    obtain ⟨_, _, h⟩ := bind_eq_ok.mp h
    obtain ⟨set, _, h⟩ := bind_eq_ok.mp h
    obtain ⟨_, _, hcopied, _⟩ := rowsOf_copied hs h hc
    exact hcopied

/-- The contexts of a contact are copies of rows. -/
theorem Sound.ofContact_copied {s : Store} (hs : s.Sound) {contact : Json} {all : Bool}
    {cs : List Context} (h : s.ofContact contact all = .ok cs) {c : Context} (hc : c ∈ cs) :
    Copied s c := by
  cases s with
  | memory m =>
    cases h
    exact memory_copied hs (List.mem_filter.mp (List.mem_mergeSort.mp hc)).1
  | rows t =>
    obtain ⟨_, _, h⟩ := bind_eq_ok.mp h
    obtain ⟨_, _, h⟩ := bind_eq_ok.mp h
    obtain ⟨-, rfl⟩ := mapM_read_eq_ok.mp h
    obtain ⟨row, hrow, rfl⟩ := List.mem_map.mp hc
    exact rows_copied hs (List.mem_filter.mp (List.mem_mergeSort.mp hrow)).1
  | keys k =>
    obtain ⟨_, _, h⟩ := bind_eq_ok.mp h
    obtain ⟨set, _, h⟩ := bind_eq_ok.mp h
    obtain ⟨found, hfound, h⟩ := bind_eq_ok.mp h
    cases h
    obtain ⟨_, _, hcopied, _⟩ := rowsOf_copied hs hfound (List.mem_filter.mp hc).1
    exact hcopied

/-! ## Families -/

structure Family (s : Store) (p : String) (cs : List Context) : Prop where
  copied : ∀ c ∈ cs, Copied s c ∧ c.parent = some p
  once : (cs.map Context.id).Nodup
  all : ∀ i r, s.row? i = some r → r.parent = some p → ∃ c ∈ cs, c.id = some i

theorem nodup_map_some {α : Type} {ids : List α} (h : ids.Nodup) : (ids.map some).Nodup := by
  simpa [List.Nodup, List.pairwise_map] using h

private theorem memory_family {m : Memory} (hs : m.Sound) (p : String) :
    Family (.memory m) p (m.children (some p)) := by
  have hperm : (m.children (some p)).Perm
      ((m.contexts.map (·.2)).filter fun c => c.parent = some p) := List.mergeSort_perm _ _
  have hids : (m.contexts.map (·.2)).map Context.id = (m.contexts.map Prod.fst).map some := by
    simp only [List.map_map]
    apply List.map_congr_left
    rintro ⟨i, c⟩ hc
    exact (hs.ids i c (Table.find?_eq_some_of_mem hs.keys hc)).1
  constructor
  · intro c hc
    obtain ⟨hm, hp⟩ := List.mem_filter.mp (hperm.mem_iff.mp hc)
    exact ⟨memory_copied hs hm, by simpa using hp⟩
  · refine (hperm.map Context.id).nodup_iff.mpr ?_
    refine List.Nodup.sublist (List.filter_sublist.map Context.id) ?_
    rw [hids]
    exact nodup_map_some hs.keys
  · intro i r hr hp
    have hm : r ∈ m.contexts.map (·.2) := List.mem_map_of_mem (Table.mem_of_find?_eq_some hr)
    exact ⟨r, hperm.mem_iff.mpr (List.mem_filter.mpr ⟨hm, by simpa using hp⟩), (hs.ids i r hr).1⟩

private theorem rows_family {t : Rows} (hs : t.Sound) {p : String} {cs : List Context}
    (h : t.children (some p) = .ok cs) : Family (.rows t) p cs := by
  obtain ⟨_, _, h⟩ := bind_eq_ok.mp h
  obtain ⟨-, rfl⟩ := mapM_read_eq_ok.mp h
  have hperm : (Rows.oldestFirst
      (t.contexts.filter fun row => (some p).isSome && row.parent = some p)).Perm
      (t.contexts.filter fun row => (some p).isSome && row.parent = some p) :=
    List.mergeSort_perm _ _
  constructor
  · intro c hc
    obtain ⟨row, hrow, rfl⟩ := List.mem_map.mp hc
    obtain ⟨hm, hp⟩ := List.mem_filter.mp (hperm.mem_iff.mp hrow)
    exact ⟨rows_copied hs hm, by simpa [ContextRow.context] using hp⟩
  · rw [List.map_map]
    refine (hperm.map (Context.id ∘ ContextRow.context)).nodup_iff.mpr ?_
    refine List.Nodup.sublist (List.filter_sublist.map _) ?_
    have hids : t.contexts.map (Context.id ∘ ContextRow.context) =
        (t.contexts.map ContextRow.id).map some := by
      rw [List.map_map]
      rfl
    rw [hids]
    exact nodup_map_some hs.ids
  · intro i r hr hp
    obtain ⟨row, hrow, rfl⟩ := Option.map_eq_some_iff.mp hr
    have hid : row.id = i := by simpa using List.find?_some hrow
    have hm : row ∈ t.contexts.filter fun row => (some p).isSome && row.parent = some p :=
      List.mem_filter.mpr ⟨List.mem_of_find?_eq_some hrow, by simpa [ContextRow.context] using hp⟩
    exact ⟨row.context, List.mem_map_of_mem (hperm.mem_iff.mpr hm), congrArg some hid⟩

private theorem keys_family {k : Keys} (hs : k.Sound) {p : String} (hp : p ≠ "")
    {cs : List Context} (h : k.children (some p) = .ok cs) : Family (.keys k) p cs := by
  obtain ⟨_, _, h⟩ := bind_eq_ok.mp h
  obtain ⟨set, hset, h⟩ := bind_eq_ok.mp h
  obtain ⟨set', hset', hnodup, hiff⟩ := hs.families p hp
  rw [hset] at hset'
  cases hset'
  constructor
  · intro c hc
    obtain ⟨i, hi, hcopied, hid⟩ := rowsOf_copied hs h hc
    obtain ⟨row, hrow, hparent⟩ := (hiff i).mp hi
    refine ⟨hcopied, ?_⟩
    obtain ⟨j, r, hj, hr, hc⟩ := hcopied
    rw [hid] at hj
    cases hj
    simp only [row?, hrow, Option.some.injEq] at hr
    rw [hc, ← hr]
    exact hparent
  · exact List.Nodup.sublist
      (sublist_filterMapM h fun i c hf => (contextAt_copied hs hf).2) (nodup_map_some hnodup)
  · intro i r hr hparent
    simp only [row?] at hr
    split at hr
    · rename_i row hrow
      cases hr
      rcases mem_filterMapM h ((hiff i).mpr ⟨row, hrow, hparent⟩) with hf | ⟨c, hc, hf⟩
      · obtain ⟨o, ho, hf⟩ := bind_eq_ok.mp hf
        rw [Server.context?_eq_some.mpr hrow] at ho
        cases ho
        obtain ⟨_, _, hf⟩ := bind_eq_ok.mp hf
        cases hf
      · exact ⟨c, hc, (contextAt_copied hs hf).2⟩
    · cases hr

/-- A parent with an id is answered by its whole family. An empty id is none to a server. -/
theorem Sound.children_family {s : Store} (hs : s.Sound) {p : String} (hp : p ≠ "")
    {cs : List Context} (h : s.children (some p) = .ok cs) : Family s p cs := by
  cases s with
  | memory m =>
    cases h
    exact memory_family hs p
  | rows t => exact rows_family hs h
  | keys k => exact keys_family hs hp h

/-! ## The next wakeup -/

def Kind.alarm : Kind → Moment → Moment
  | .keys, t => Moment.ofMillis (Scored.scoreOf t.millis)
  | _, t => t

private theorem foldlM_earlier_mem {ts : List Moment} {t u : Moment}
    (h : ts.foldlM Memory.earlier t = .ok u) : u = t ∨ u ∈ ts := by
  induction ts generalizing t with
  | nil =>
    cases h
    exact .inl rfl
  | cons x rest ih =>
    rw [List.foldlM_cons] at h
    obtain ⟨v, hv, h⟩ := bind_eq_ok.mp h
    rcases ih h with rfl | hm
    · unfold Memory.earlier at hv
      split at hv
      · cases hv
        exact .inr List.mem_cons_self
      · cases hv
        exact .inl rfl
      · cases hv
    · exact .inr (List.mem_cons_of_mem _ hm)

theorem of_isSuspended {c : Context} (h : c.isSuspended = true) : c.completed = none := by
  cases hc : c.completed with
  | none => rfl
  | some t => simp [Context.isSuspended, Context.status, hc] at h

private theorem memory_nextWakeup {m : Memory} (hs : m.Sound) {t : Moment}
    (h : m.nextWakeup = .ok (some t)) : ∃ i r, row? i (.memory m) = some r ∧
      r.completed = none ∧ r.wakeup = some t := by
  unfold Memory.nextWakeup at h
  split at h
  · cases h
  · rename_i u rest hlist
    cases hf : rest.foldlM Memory.earlier u with
    | error f =>
      rw [hf] at h
      cases h
    | ok v =>
      rw [hf] at h
      cases h
      have hmem : t ∈ u :: rest := List.mem_cons.mpr (foldlM_earlier_mem hf)
      rw [← hlist] at hmem
      obtain ⟨⟨i, c⟩, hc, ht⟩ := List.mem_filterMap.mp hmem
      dsimp only at ht
      split at ht
      · rename_i hsuspended
        exact ⟨i, c, Table.find?_eq_some_of_mem hs.keys hc, of_isSuspended hsuspended, ht⟩
      · cases ht

private theorem rows_nextWakeup {r : Rows} (hs : r.Sound) {t : Moment}
    (h : r.nextWakeup = .ok (some t)) : ∃ i c, row? i (.rows r) = some c ∧
      c.completed = none ∧ c.wakeup = some t := by
  obtain ⟨_, _, h⟩ := bind_eq_ok.mp h
  obtain ⟨-, h⟩ := (option_mapM_eq_ok fun _ _ => Moment.dated_eq_ok).mp h
  obtain ⟨ms, hms, rfl⟩ := Option.map_eq_some_iff.mp h.symm
  obtain ⟨row, hrow, hw⟩ := List.mem_filterMap.mp (List.min?_mem hms)
  split at hw
  · rename_i hopen
    refine ⟨row.id, row.context, ?_, ?_, ?_⟩
    · simp only [row?, find?_eq_of_mem hs.ids hrow, Option.map_some]
    · simpa [ContextRow.context] using hopen
    · simp [ContextRow.context, hw]
  · cases hw

private theorem keys_nextWakeup {k : Keys} (hs : k.Sound) {t : Moment}
    (h : k.nextWakeup = .ok (some t)) : ∃ i c w, row? i (.keys k) = some c ∧
      c.completed = none ∧ c.wakeup = some w ∧ t = Kind.keys.alarm w := by
  obtain ⟨_, _, h⟩ := bind_eq_ok.mp h
  obtain ⟨set, hset, h⟩ := bind_eq_ok.mp h
  obtain ⟨-, h⟩ := (option_mapM_eq_ok fun _ _ => Moment.dated_eq_ok).mp h
  obtain ⟨⟨i, x⟩, hx, rfl⟩ := Option.map_eq_some_iff.mp h.symm
  obtain ⟨set', hset', hiff⟩ := hs.wakeups
  rw [hset] at hset'
  cases hset'
  obtain ⟨row, hrow, hopen, hscore⟩ := (hiff i x).mp (List.mem_of_mem_head? hx)
  obtain ⟨ms, hms, rfl⟩ := Option.map_eq_some_iff.mp hscore
  refine ⟨i, row.context, Moment.ofMillis ms, ?_, ?_, ?_, ?_⟩
  · simp only [row?, hrow]
  · simp [ContextRow.context, hopen]
  · simp [ContextRow.context, hms]
  · simp only [Kind.alarm, millis_ofMillis]

/-- The next wakeup time is that of an open row. -/
theorem Sound.nextWakeup_of_open {s : Store} (hs : s.Sound) {t : Moment}
    (h : s.nextWakeup = .ok (some t)) :
    ∃ i r w, s.row? i = some r ∧ r.completed = none ∧ r.wakeup = some w ∧ t = s.kind.alarm w := by
  cases s with
  | memory m =>
    obtain ⟨i, r, hr, hopen, hw⟩ := memory_nextWakeup hs h
    exact ⟨i, r, t, hr, hopen, hw, rfl⟩
  | rows rows =>
    obtain ⟨i, r, hr, hopen, hw⟩ := rows_nextWakeup hs h
    exact ⟨i, r, t, hr, hopen, hw, rfl⟩
  | keys k => exact keys_nextWakeup hs h

end DurableFlow.Store
