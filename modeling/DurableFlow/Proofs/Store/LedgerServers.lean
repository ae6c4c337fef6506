import DurableFlow.Proofs.Store.DueTimes
import DurableFlow.Proofs.Store.LedgerTables
import DurableFlow.Proofs.Store.ScoredSets

/-! A server answers as the ledger of its rows. The sets beside the rows are those that the ledger
would be sorted into: the wakeups by time and id, each family and each contact in order of filing. -/
namespace DurableFlow.Store

def Ledger.roll (l : Ledger) : List (String × Int) := l.map fun e => (e.1, e.2.inserted.millis)

/-- The members of a wakeup set: the entries that wait, each with the millisecond of its wakeup. -/
structure Ledger.Agenda (l : Ledger) (set : List (String × Int)) : Prop where
  ordered : Scored.Ordered set
  members : ∀ x, x ∈ set ↔ ∃ e ∈ l, e.1 = x.1 ∧ e.2.alarm = some x.2

namespace Keys

/-- A server holds the row of every entry of a ledger, and has the sets right. -/
structure Reflects (l : Ledger) (k : Keys) : Prop where
  connected : k.connected = true
  rows : ∀ i, Table.find? (k.contextKey (some i)) k.server =
    (Table.find? i l).map fun c => .context (contextRow c)
  wakeups : ∃ set, k.server.members k.wakeupsKey = .ok set ∧ l.Agenda set
  families : ∀ p, k.server.members (k.childrenKey (some p)) =
    .ok (Ledger.roll (l.filter fun e => e.2.parent = some p))
  contacts : ∀ n : Int, k.server.members (k.contactKey (.int n)) =
    .ok (Ledger.roll (l.filter fun e => e.2.contact = .int n))

private theorem checkConnected_reflects {l : Ledger} {k : Keys} (hk : Reflects l k) :
    k.checkConnected = .ok () :=
  if_pos hk.connected

/-! ## Reads -/

private theorem contextAt_reflects {l : Ledger} (h : l.Orderly) {k : Keys} (hk : Reflects l k)
    (i : String) : k.contextAt (some i) = .ok ((Table.find? i l).map Context.toMillis) := by
  have hrow := hk.rows i
  cases hc : Table.find? i l with
  | none =>
    rw [hc] at hrow
    have hnone : k.server.context? (k.contextKey (some i)) = .ok none := by
      simp only [Server.context?, hrow, Option.map_none]
    exact bind_eq_ok.mpr ⟨none, hnone, rfl⟩
  | some c =>
    rw [hc] at hrow
    obtain ⟨n, hn⟩ := (h.find? hc).contact
    have hread : readRow (contextRow c) = .ok c.toMillis := by
      have hcontact : (contextRow c).contact = .int n := hn
      simp only [readRow, hcontact]
      exact (h.find? hc).read_contextRow
    refine bind_eq_ok.mpr ⟨_, Server.context?_eq_some.mpr hrow, ?_⟩
    exact bind_eq_ok.mpr ⟨_, hread, rfl⟩

private theorem rowsOf_reflects {l : Ledger} (h : l.Orderly) {k : Keys} (hk : Reflects l k)
    {es : Ledger} (hes : ∀ e ∈ es, e ∈ l) :
    k.rowsOf (es.map (·.1)) = .ok (es.contexts.map Context.toMillis) := by
  induction es with
  | nil => rfl
  | cons e rest ih =>
    obtain ⟨he, hrest⟩ := List.forall_mem_cons.mp hes
    have hat : k.contextAt (some e.1) = .ok (some e.2.toMillis) := by
      rw [contextAt_reflects h hk, Table.find?_eq_some_of_mem h.nodup he]
      rfl
    rw [rowsOf, List.map_cons, List.filterMapM_cons, hat]
    exact bind_eq_ok.mpr ⟨_, rfl, bind_eq_ok.mpr ⟨_, ih hrest, rfl⟩⟩

theorem bound?_limit {limit : Option Nat} (h : ∀ n : Nat, limit = some n → IsWord n) :
    bound? (Access.limitValue limit) = .ok limit := by
  cases limit with
  | none => rfl
  | some n =>
    have hfits : -(Nat.pow 2 63 : Int) ≤ n ∧ (n : Int) < Nat.pow 2 63 := h n rfl
    have hcount : count (.int n) = .ok n := by simp only [count, hfits, and_self, if_pos]
    have hvalue : Json.int n ≠ .null := by
      intro he
      cases he
    rw [Access.limitValue, Option.map_some, Option.getD_some, bound?, if_neg hvalue, hcount]
    simp [Except.map]

private theorem upTo_reflects {l : Ledger} (h : l.Orderly) {set : List (String × Int)}
    (hset : l.Agenda set) {now : Moment} (hnow : now.IsShown) :
    Scored.upTo now.millis set = (l.dueBy now).map (·.1) := by
  -- Both lists are in the order of a scored set, so it is enough that they have the same members.
  have hdue : set.filter (fun x => x.2 ≤ now.millis) =
      (l.dueBy now).map fun e => (e.1, e.2.alarm.getD 0) := by
    refine Scored.Ordered.ext (List.Pairwise.sublist List.filter_sublist hset.ordered) ?_ ?_
    · refine List.pairwise_map.mpr (Scored.pairwise_mergeSort_lex
        (fun e : String × Context => e.2.alarm.getD 0) ?_)
      exact (h.inOrder.imp And.left).sublist List.filter_sublist
    · intro x
      simp only [List.mem_filter, List.mem_map, Ledger.dueBy, List.mem_mergeSort,
        decide_eq_true_eq, hset.members]
      constructor
      · rintro ⟨⟨e, he, hi, ha⟩, hle⟩
        refine ⟨e, ⟨he, ?_⟩, ?_⟩
        · simpa [ha] using hle
        · rw [hi, ha]
          rfl
      · rintro ⟨e, ⟨he, hcome⟩, rfl⟩
        obtain ⟨t, ha, hle⟩ := (Option.any_eq_true _ _).mp hcome
        refine ⟨⟨e, he, rfl, ?_⟩, ?_⟩
        · rw [ha]
          rfl
        · simpa [ha] using hle
  rw [Scored.upTo, scoreOf_shown hnow, hdue, List.map_map]
  rfl

private theorem due_reflects {l : Ledger} (h : l.Orderly) {k : Keys} (hk : Reflects l k)
    {now : Moment} (hnow : now.IsShown) {limit : Option Nat}
    (hn : ∀ n : Nat, limit = some n → IsWord n) :
    k.due (some now) (Access.limitValue limit) =
      .ok ((Ledger.contexts ((l.dueBy now).take (limit.getD (l.dueBy now).length))).map
        Context.toMillis) := by
  obtain ⟨set, hset, hagenda⟩ := hk.wakeups
  have hids : k.dueIds (some now) (Access.limitValue limit) =
      .ok (((l.dueBy now).take (limit.getD (l.dueBy now).length)).map (·.1)) := by
    refine bind_eq_ok.mpr ⟨now.millis, rfl, bind_eq_ok.mpr ⟨limit, bound?_limit hn, ?_⟩⟩
    refine bind_eq_ok.mpr ⟨set, hset, ?_⟩
    rw [upTo_reflects h hagenda hnow]
    simp only [List.map_take, List.length_map]
    rfl
  have hdue : ∀ e ∈ (l.dueBy now).take (limit.getD (l.dueBy now).length), e ∈ l := by
    intro e he
    exact List.mem_of_mem_filter (List.mem_mergeSort.mp (List.mem_of_mem_take he))
  refine bind_eq_ok.mpr ⟨(), checkConnected_reflects hk, ?_⟩
  exact bind_eq_ok.mpr ⟨_, hids, rowsOf_reflects h hk hdue⟩

private theorem rowsOf_roll {l : Ledger} (h : l.Orderly) {k : Keys} (hk : Reflects l k)
    (p : String × Context → Bool) :
    k.rowsOf ((Ledger.roll (l.filter p)).map (·.1)) =
      .ok ((Ledger.contexts (l.filter p)).map Context.toMillis) := by
  have hids : (Ledger.roll (l.filter p)).map (·.1) = (l.filter p).map (·.1) := by
    simp only [Ledger.roll, List.map_map]
    rfl
  rw [hids]
  exact rowsOf_reflects h hk fun e he => List.mem_of_mem_filter he

private theorem children_reflects {l : Ledger} (h : l.Orderly) {k : Keys} (hk : Reflects l k)
    (parent : String) :
    k.children (some parent) = .ok ((Ledger.contexts
      (l.filter fun e => e.2.parent = some parent)).map Context.toMillis) := by
  refine bind_eq_ok.mpr ⟨(), checkConnected_reflects hk, ?_⟩
  exact bind_eq_ok.mpr ⟨_, hk.families parent, rowsOf_roll h hk _⟩

private theorem ofContact_reflects {l : Ledger} (h : l.Orderly) {k : Keys} (hk : Reflects l k)
    (contact : Int) (includeCompleted : Bool) :
    k.ofContact (.int contact) includeCompleted = .ok ((Ledger.contexts (l.filter fun e =>
      e.2.contact = .int contact && (includeCompleted || !e.2.isCompleted))).map
        Context.toMillis) := by
  refine bind_eq_ok.mpr ⟨(), checkConnected_reflects hk, ?_⟩
  refine bind_eq_ok.mpr ⟨_, hk.contacts contact, ?_⟩
  refine bind_eq_ok.mpr ⟨_, rowsOf_roll h hk _, congrArg Except.ok ?_⟩
  simp only [Ledger.contexts, List.map_map, List.filter_map, List.filter_filter]
  refine congrArg (List.map _) (List.filter_congr ?_)
  intro e _
  simp only [Function.comp_apply, Context.toMillis, Context.isCompleted, Option.isSome_map]
  exact Bool.and_comm _ _

private theorem nextWakeup_reflects {l : Ledger} (h : l.Orderly) {k : Keys} (hk : Reflects l k) :
    k.nextWakeup = .ok ((l.filterMap fun e => e.2.alarm).min?.map Moment.ofMillis) := by
  obtain ⟨set, hset, hagenda⟩ := hk.wakeups
  have hmin : (l.filterMap fun e => e.2.alarm).min? = set.head?.map (·.2) := by
    cases set with
    | nil =>
      refine List.min?_eq_none_iff.mpr (List.filterMap_eq_nil_iff.mpr ?_)
      intro e he
      cases ha : e.2.alarm with
      | none => rfl
      | some t =>
        have hm := (hagenda.members (e.1, t)).mpr ⟨e, he, rfl, ha⟩
        cases hm
    | cons x rest =>
      refine List.min?_eq_some_iff.mpr ⟨?_, ?_⟩
      · obtain ⟨e, he, _, ha⟩ := (hagenda.members x).mp List.mem_cons_self
        exact List.mem_filterMap.mpr ⟨e, he, ha⟩
      · intro t ht
        obtain ⟨e, he, ha⟩ := List.mem_filterMap.mp ht
        have hm : (e.1, t) ∈ x :: rest := (hagenda.members (e.1, t)).mpr ⟨e, he, rfl, ha⟩
        rcases List.mem_cons.mp hm with heq | hm
        · exact Int.le_of_eq (congrArg Prod.snd heq).symm
        · rcases (List.pairwise_cons.mp hagenda.ordered).1 _ hm with hlt | ⟨heq, _⟩
          · exact Int.le_of_lt hlt
          · exact Int.le_of_eq heq
  refine bind_eq_ok.mpr ⟨(), checkConnected_reflects hk, ?_⟩
  refine bind_eq_ok.mpr ⟨set, hset, ?_⟩
  rw [hmin, Option.map_map]
  refine (option_mapM_eq_ok fun x _ => Moment.dated_eq_ok).mpr ⟨?_, rfl⟩
  intro x hx
  obtain ⟨e, he, _, ha⟩ := (hagenda.members x).mp (List.mem_of_mem_head? hx)
  exact (h.entered e he).isDated_alarm ha

end Keys

/-! ## Writes -/

def Ledger.Replaces (m : Ledger) (i : String) (c : Context) (l : Ledger) : Prop :=
  ∀ e, e ∈ m ↔ e = (i, c) ∨ e ∈ l ∧ e.1 ≠ i

namespace Ledger

private theorem scoreOf_alarm {i : String} {c : Context} (h : Entered i c) {t : Int}
    (ht : c.alarm = some t) : Scored.scoreOf t = t := by
  rw [← millis_ofMillis t]
  exact scoreOf_millis (h.isDated_alarm ht)

private theorem waiting_replaced {l m : Ledger} {i : String} {c : Context}
    (hm : m.Replaces i c l) (x : String × Int) :
    (∃ e ∈ m, e.1 = x.1 ∧ e.2.alarm = some x.2) ↔
      (x.1 = i ∧ c.alarm = some x.2) ∨ (∃ e ∈ l, e.1 = x.1 ∧ e.2.alarm = some x.2) ∧ x.1 ≠ i := by
  constructor
  · rintro ⟨e, he, hx, ha⟩
    rcases (hm e).mp he with rfl | ⟨he, hne⟩
    · exact .inl ⟨hx.symm, ha⟩
    · exact .inr ⟨⟨e, he, hx, ha⟩, hx ▸ hne⟩
  · rintro (⟨hx, ha⟩ | ⟨⟨e, he, hx, ha⟩, hne⟩)
    · exact ⟨(i, c), (hm _).mpr (.inl rfl), hx.symm, ha⟩
    · exact ⟨e, (hm e).mpr (.inr ⟨he, hx ▸ hne⟩), hx, ha⟩

private theorem Agenda.add {l m : Ledger} {set : List (String × Int)} (hs : l.Agenda set)
    {i : String} {c : Context} (hm : m.Replaces i c l) (hc : Entered i c) {t : Int}
    (ht : c.alarm = some t) : m.Agenda (Scored.add id i t set) := by
  refine ⟨hs.ordered.add i t, ?_⟩
  intro x
  rw [waiting_replaced hm, Scored.mem_add, hs.members, scoreOf_alarm hc ht, ht,
    Prod.ext_iff, Option.some.injEq]
  rw [eq_comm (a := t)]

private theorem Agenda.remove {l m : Ledger} {set : List (String × Int)} (hs : l.Agenda set)
    {i : String} {c : Context} (hm : m.Replaces i c l) (hc : c.alarm = none) :
    m.Agenda (Scored.remove i set) := by
  refine ⟨hs.ordered.remove i, ?_⟩
  intro x
  rw [waiting_replaced hm, Scored.mem_remove, hs.members, hc]
  simp

private theorem Agenda.keep {l m : Ledger} {set : List (String × Int)} (hs : l.Agenda set)
    {i : String} {c : Context} (hm : m.Replaces i c l) (hc : c.alarm = none)
    (hi : i ∉ l.map Prod.fst) : m.Agenda set := by
  refine ⟨hs.ordered, ?_⟩
  intro x
  rw [waiting_replaced hm, hs.members, hc]
  constructor
  · rintro ⟨e, he, hx, ha⟩
    refine .inr ⟨⟨e, he, hx, ha⟩, ?_⟩
    rintro rfl
    exact hi (List.mem_map.mpr ⟨e, he, hx⟩)
  · rintro (⟨_, ha⟩ | ⟨hw, _⟩)
    · cases ha
    · exact hw

private theorem roll_file {l : Ledger} {i : String} {c : Context}
    (hlast : ∀ e ∈ l, e.1 < i ∧ e.2.inserted.micros ≤ c.inserted.micros)
    (hc : c.inserted.isDated = true) {p : String × Context → Bool} (hp : p (i, c) = true) :
    Scored.add id i c.inserted.millis (roll (l.filter p)) = roll ((l ++ [(i, c)]).filter p) := by
  have hscore := scoreOf_millis hc
  rw [Scored.add_eq_append, hscore, List.filter_append, List.filter_cons_of_pos hp, roll, roll,
    List.map_append]
  · rfl
  · intro x hx
    obtain ⟨e, he, rfl⟩ := List.mem_map.mp hx
    obtain ⟨hlt, hle⟩ := hlast e (List.mem_of_mem_filter he)
    rw [hscore]
    exact ⟨hlt, Moment.millis_le hle⟩

private theorem roll_pass {l : Ledger} {e : String × Context} {p : String × Context → Bool}
    (hp : p e = false) : roll ((l ++ [e]).filter p) = roll (l.filter p) := by
  rw [List.filter_append, List.filter_cons_of_neg (by simp [hp]), List.filter_nil,
    List.append_nil]

end Ledger

namespace Server

private theorem addMember_ok {key : String} {s : Server} {set : List (String × Int)}
    (h : s.members key = .ok set) (member : String) (score : Int) :
    s.addMember key member score =
      .ok (Table.put key (.members (Scored.add id member score set)) s) := by
  simp only [addMember, h, Except.map]

private theorem removeMember_ok {key : String} {s : Server} {set : List (String × Int)}
    (h : s.members key = .ok set) (member : String) :
    s.removeMember key member =
      .ok (Table.put key (.members (Scored.remove member set)) s) := by
  simp only [removeMember, h, Except.map]

private theorem members_put_of_ne {key other : String} (h : other ≠ key) (e : Entry)
    (s : Server) : members key (Table.put other e s) = s.members key := by
  apply members_congr
  rw [Table.find?_put, if_neg h]

end Server

namespace Keys

private theorem contactKey_inj (k : Keys) {m n : Int}
    (h : k.contactKey (.int m) = k.contactKey (.int n)) : m = n := by
  have hnumber : toString m = toString n := by
    simpa [contactKey, key, Json.plain, Json.shown, String.intercalate_cons_cons] using h
  exact Text.toString_inj hnumber

private theorem schedule_alarm (k : Keys) (i : String) (c : Context) (s : Server) :
    k.schedule i (contextRow c) s =
      c.alarm.elim (.ok s) fun t => s.addMember k.wakeupsKey i t := by
  cases hc : c.completed <;> cases hw : c.wakeup <;>
    simp [schedule, contextRow, ContextRow.isSuspended, Context.alarm, Context.isCompleted, hc, hw]

private theorem writeRow_alarm (k : Keys) (rowKey i : String) (c : Context) :
    k.writeRow rowKey i (contextRow c) =
      c.alarm.elim
        (Server.removeMember k.wakeupsKey i (Table.put rowKey (.context (contextRow c)) k.server))
        fun t => Server.addMember k.wakeupsKey i t
          (Table.put rowKey (.context (contextRow c)) k.server) := by
  cases hc : c.completed <;> cases hw : c.wakeup <;>
    simp [writeRow, contextRow, ContextRow.isSuspended, Context.alarm, Context.isCompleted, hc, hw]

section Filing
variable {l : Ledger} {i : String} {c : Context}

private theorem enroll {β : Type} {keyOf : β → String} (hinj : ∀ x y, keyOf x = keyOf y → x = y)
    {isIn : β → String × Context → Bool} {b : β} (hb : ∀ x, isIn x (i, c) = true ↔ x = b)
    (hlast : ∀ e ∈ l, e.1 < i ∧ e.2.inserted.micros ≤ c.inserted.micros)
    (hc : c.inserted.isDated = true) {s : Server}
    (hs : ∀ x, s.members (keyOf x) = .ok (Ledger.roll (l.filter (isIn x)))) :
    ∃ s', s.addMember (keyOf b) i c.inserted.millis = .ok s' ∧
      (∀ x, s'.members (keyOf x) = .ok (Ledger.roll ((l ++ [(i, c)]).filter (isIn x)))) ∧
      ∀ key, key ≠ keyOf b → Table.find? key s' = Table.find? key s := by
  refine ⟨_, Server.addMember_ok (hs b) i _, ?_, ?_⟩
  · intro x
    by_cases hx : x = b
    · subst hx
      rw [Server.members_put, Ledger.roll_file hlast hc ((hb x).mpr rfl)]
    · have hout : isIn x (i, c) = false := Bool.eq_false_iff.mpr fun h => hx ((hb x).mp h)
      have hne : keyOf b ≠ keyOf x := fun h => hx (hinj b x h).symm
      rw [Server.members_put_of_ne hne, hs x, Ledger.roll_pass hout]
  · intro key hkey
    rw [Table.find?_put, if_neg hkey.symm]

private theorem adopt_enrolls {k : Keys} (hc : Ledger.Entered i c)
    (hlast : ∀ e ∈ l, e.1 < i ∧ e.2.inserted.micros ≤ c.inserted.micros) {s : Server}
    (hs : ∀ p, s.members (k.childrenKey (some p)) =
      .ok (Ledger.roll (l.filter fun e => e.2.parent = some p))) :
    ∃ s', k.adopt i c.parent c.inserted.millis s = .ok s' ∧
      (∀ p, s'.members (k.childrenKey (some p)) =
        .ok (Ledger.roll ((l ++ [(i, c)]).filter fun e => e.2.parent = some p))) ∧
      ∀ key, (∀ p, key ≠ k.childrenKey p) → Table.find? key s' = Table.find? key s := by
  cases hp : c.parent with
  | none =>
    refine ⟨s, rfl, ?_, fun _ _ => rfl⟩
    intro p
    rw [hs p, Ledger.roll_pass (by simp [hp])]
  | some q =>
    have hb (p : String) : decide (c.parent = some p) = true ↔ p = q := by
      simp [hp, eq_comm]
    obtain ⟨s', hadd, hsets, hframe⟩ :=
      enroll (fun _ _ => k.childrenKey_inj) hb hlast hc.inserted hs
    exact ⟨s', hadd, hsets, fun key hkey => hframe key (hkey _)⟩

private theorem contact_enrolls {k : Keys} (hc : Ledger.Entered i c)
    (hlast : ∀ e ∈ l, e.1 < i ∧ e.2.inserted.micros ≤ c.inserted.micros) {s : Server}
    (hs : ∀ n : Int, s.members (k.contactKey (.int n)) =
      .ok (Ledger.roll (l.filter fun e => e.2.contact = .int n))) :
    ∃ s', s.addMember (k.contactKey c.contact) i c.inserted.millis = .ok s' ∧
      (∀ n : Int, s'.members (k.contactKey (.int n)) =
        .ok (Ledger.roll ((l ++ [(i, c)]).filter fun e => e.2.contact = .int n))) ∧
      ∀ key, (∀ v, key ≠ k.contactKey v) → Table.find? key s' = Table.find? key s := by
  obtain ⟨n, hn⟩ := hc.contact
  have hb (m : Int) : decide (c.contact = .int m) = true ↔ m = n := by
    simp [hn, eq_comm]
  obtain ⟨s', hadd, hsets, hframe⟩ :=
    enroll (fun _ _ => k.contactKey_inj) hb hlast hc.inserted hs
  exact ⟨s', hn ▸ hadd, hsets, fun key hkey => hframe key (hkey _)⟩

private theorem replaces_append (hi : i ∉ l.map Prod.fst) :
    Ledger.Replaces (l ++ [(i, c)]) i c l := by
  intro e
  rw [List.mem_append, List.mem_singleton]
  constructor
  · rintro (he | he)
    · refine .inr ⟨he, ?_⟩
      rintro rfl
      exact hi (List.mem_map.mpr ⟨e, he, rfl⟩)
    · exact .inl he
  · rintro (he | ⟨he, _⟩)
    · exact .inr he
    · exact .inl he

private theorem schedule_agenda {k : Keys} (hc : Ledger.Entered i c) (hi : i ∉ l.map Prod.fst)
    {s : Server} {set : List (String × Int)} (hset : s.members k.wakeupsKey = .ok set)
    (hs : l.Agenda set) :
    ∃ s', k.schedule i (contextRow c) s = .ok s' ∧
      (∃ set', s'.members k.wakeupsKey = .ok set' ∧ Ledger.Agenda (l ++ [(i, c)]) set') ∧
      ∀ key, key ≠ k.wakeupsKey → Table.find? key s' = Table.find? key s := by
  rw [schedule_alarm]
  cases ha : c.alarm with
  | none => exact ⟨s, rfl, ⟨set, hset, hs.keep (replaces_append hi) ha hi⟩, fun _ _ => rfl⟩
  | some t =>
    refine ⟨_, Server.addMember_ok hset i t, ⟨_, Server.members_put _ _ _, ?_⟩, ?_⟩
    · exact hs.add (replaces_append hi) hc ha
    · intro key hkey
      rw [Table.find?_put, if_neg hkey.symm]

private theorem fileRow_reflects {k : Keys} (hk : Reflects l k) (hc : Ledger.Entered i c)
    (hi : i ∉ l.map Prod.fst)
    (hlast : ∀ e ∈ l, e.1 < i ∧ e.2.inserted.micros ≤ c.inserted.micros) :
    ∃ server, k.fileRow i c.parent (contextRow c) = .ok server ∧
      Reflects (l ++ [(i, c)]) { k with server } := by
  obtain ⟨set, hset, hagenda⟩ := hk.wakeups
  -- Four writes to different keys: each set is as its own write left it, and the row as the first.
  have hput {key : String} (hkey : k.contextKey (some i) ≠ key) :=
    Server.members_put_of_ne hkey (.context (contextRow c)) k.server
  obtain ⟨s₁, hadd, hcontacts, hframe₁⟩ := contact_enrolls (k := k) hc hlast
    fun n => (hput (k.contextKey_ne_contactKey _ _)).trans (hk.contacts n)
  have hfamilies₁ (p : String) :
      s₁.members (k.childrenKey (some p)) =
        .ok (Ledger.roll (l.filter fun e => e.2.parent = some p)) := by
    rw [Server.members_congr (hframe₁ _ fun v => k.childrenKey_ne_contactKey _ v),
      hput (k.contextKey_ne_childrenKey _ _)]
    exact hk.families p
  obtain ⟨s₂, hadopt, hfamilies, hframe₂⟩ := adopt_enrolls (k := k) hc hlast hfamilies₁
  have hset₂ : s₂.members k.wakeupsKey = .ok set := by
    rw [Server.members_congr (hframe₂ _ fun p => k.wakeupsKey_ne_childrenKey p),
      Server.members_congr (hframe₁ _ fun v => k.wakeupsKey_ne_contactKey v),
      hput (k.contextKey_ne_wakeupsKey _)]
    exact hset
  obtain ⟨s₃, hschedule, hwakeups, hframe₃⟩ := schedule_agenda (k := k) hc hi hset₂ hagenda
  refine ⟨s₃, bind_eq_ok.mpr ⟨s₁, hadd, bind_eq_ok.mpr ⟨s₂, hadopt, hschedule⟩⟩, ?_⟩
  constructor
  · exact hk.connected
  · intro j
    change Table.find? (k.contextKey (some j)) s₃ = _
    rw [hframe₃ _ (k.contextKey_ne_wakeupsKey _),
      hframe₂ _ fun p => k.contextKey_ne_childrenKey _ p,
      hframe₁ _ fun v => k.contextKey_ne_contactKey _ v, Table.find?_put, hk.rows j,
      ← Table.put_eq_append hi, Table.find?_put]
    by_cases hj : i = j
    · rw [hj, if_pos rfl, if_pos rfl]
      rfl
    · rw [if_neg hj, if_neg fun h => hj (k.contextKey_inj h)]
  · exact hwakeups
  · intro p
    have hframe := hframe₃ _ (k.wakeupsKey_ne_childrenKey (some p)).symm
    exact (Server.members_congr hframe).trans (hfamilies p)
  · intro n
    have hframe := (hframe₃ _ (k.wakeupsKey_ne_contactKey (.int n)).symm).trans
      (hframe₂ _ fun p => (k.childrenKey_ne_contactKey p (.int n)).symm)
    exact (Server.members_congr hframe).trans (hcontacts n)

end Filing

section Writing
variable {l : Ledger} {i : String} {c : Context}

private theorem replaces_put (h : l.Orderly) (hc : Table.find? i l = some c) (now : Moment)
    (changes : List Context.Change) :
    Ledger.Replaces (Table.put i (Ledger.revised now changes c) l) i
      (Ledger.revised now changes c) l := by
  have hmem : (i, c) ∈ l := Table.mem_of_find?_eq_some hc
  intro e
  rw [Ledger.put_revised h hc, List.mem_map]
  constructor
  · rintro ⟨x, hx, rfl⟩
    by_cases hxi : x.1 = i
    · rw [if_pos hxi, hxi, h.eq_of_find? hc hx hxi]
      exact .inl rfl
    · rw [if_neg hxi]
      exact .inr ⟨hx, hxi⟩
  · rintro (rfl | ⟨he, hne⟩)
    · exact ⟨(i, c), hmem, by rw [if_pos rfl]⟩
    · exact ⟨e, he, by rw [if_neg hne]⟩

private theorem roll_put (h : l.Orderly) (hc : Table.find? i l = some c) (now : Moment)
    (changes : List Context.Change) {p : Context → Bool}
    (hp : ∀ d, p (Ledger.revised now changes d) = p d) :
    Ledger.roll ((Table.put i (Ledger.revised now changes c) l).filter fun e => p e.2) =
      Ledger.roll (l.filter fun e => p e.2) := by
  rw [Ledger.put_revised h hc, List.filter_map, Ledger.roll, List.map_map, Ledger.roll]
  have hsame : l.filter ((fun e => p e.2) ∘ fun e =>
      (e.1, if e.1 = i then Ledger.revised now changes e.2 else e.2)) =
        l.filter fun e => p e.2 := by
    refine List.filter_congr ?_
    intro e _
    rw [Function.comp_apply]
    split
    · exact hp e.2
    · rfl
  rw [hsame]
  refine List.map_congr_left ?_
  intro e _
  rw [Function.comp_apply]
  split
  · rw [(Ledger.revised_frame now changes e.2).1]
  · rfl

private theorem writeRow_agenda {k : Keys} (h : l.Orderly) (hk : Reflects l k)
    (hc : Table.find? i l = some c) {changes : List Context.Change}
    (hch : ∀ ch ∈ changes, ch.IsTyped) (hl : ∀ ch ∈ changes, ch.isLegible = true) (now : Moment) :
    ∃ s, k.writeRow (k.contextKey (some i)) i (contextRow (Ledger.revised now changes c)) = .ok s ∧
      (∃ set, s.members k.wakeupsKey = .ok set ∧
        Ledger.Agenda (Table.put i (Ledger.revised now changes c) l) set) ∧
      ∀ key, key ≠ k.wakeupsKey → Table.find? key s = Table.find? key
        (Table.put (k.contextKey (some i))
          (.context (contextRow (Ledger.revised now changes c))) k.server) := by
  obtain ⟨set, hset, hagenda⟩ := hk.wakeups
  have hput := (Server.members_put_of_ne (k.contextKey_ne_wakeupsKey (some i))
    (.context (contextRow (Ledger.revised now changes c))) k.server).trans hset
  have hreplaces := replaces_put h hc now changes
  rw [writeRow_alarm]
  cases ha : (Ledger.revised now changes c).alarm with
  | none =>
    refine ⟨_, Server.removeMember_ok hput i, ⟨_, Server.members_put _ _ _, ?_⟩, ?_⟩
    · exact hagenda.remove hreplaces ha
    · intro key hkey
      rw [Table.find?_put, if_neg hkey.symm]
  | some t =>
    refine ⟨_, Server.addMember_ok hput i t, ⟨_, Server.members_put _ _ _, ?_⟩, ?_⟩
    · exact hagenda.add hreplaces ((h.find? hc).revised hch hl now) ha
    · intro key hkey
      rw [Table.find?_put, if_neg hkey.symm]

private theorem writeRow_reflects {k : Keys} (h : l.Orderly) (hk : Reflects l k)
    (hc : Table.find? i l = some c) {changes : List Context.Change}
    (hch : ∀ ch ∈ changes, ch.IsTyped) (hl : ∀ ch ∈ changes, ch.isLegible = true) (now : Moment) :
    ∃ server, k.writeRow (k.contextKey (some i)) i
        ((contextRow c).advanced fieldText changes now) = .ok server ∧
      Reflects (Table.put i (Ledger.revised now changes c) l) { k with server } := by
  have htext (name : String) : fieldText (.string name) = name := rfl
  rw [← contextRow_revised htext now hch c]
  obtain ⟨s, hwrite, hwakeups, hframe⟩ := writeRow_agenda h hk hc hch hl now
  refine ⟨s, hwrite, ?_⟩
  constructor
  · exact hk.connected
  · intro j
    change Table.find? (k.contextKey (some j)) s = _
    rw [hframe _ (k.contextKey_ne_wakeupsKey _), Table.find?_put, Table.find?_put, hk.rows j]
    by_cases hj : i = j
    · rw [hj, if_pos rfl, if_pos rfl]
      rfl
    · rw [if_neg hj, if_neg fun h => hj (k.contextKey_inj h)]
  · exact hwakeups
  · intro p
    have hkey := hframe _ (k.wakeupsKey_ne_childrenKey (some p)).symm
    rw [Table.find?_put, if_neg (k.contextKey_ne_childrenKey _ _)] at hkey
    rw [roll_put h hc now changes (p := fun d => d.parent = some p) fun d => by
      rw [(Ledger.revised_frame now changes d).2.1]]
    exact (Server.members_congr hkey).trans (hk.families p)
  · intro n
    have hkey := hframe _ (k.wakeupsKey_ne_contactKey (.int n)).symm
    rw [Table.find?_put, if_neg (k.contextKey_ne_contactKey _ _)] at hkey
    rw [roll_put h hc now changes (p := fun d => d.contact = .int n) fun d => by
      rw [(Ledger.revised_frame now changes d).2.2]]
    exact (Server.members_congr hkey).trans (hk.contacts n)

end Writing

private theorem insert_reflects {l : Ledger} {k : Keys} (hk : Reflects l k) {c : Context}
    {fresh : String} {now : Moment} (hc : c.Fileable) (hlegible : c.isLegible = true)
    (hnow : now.isDated = true) (hl : l.ComesBefore (.insert c fresh now)) :
    ∃ server, Store.insert fresh now ⟨.keys k, c⟩ =
        .ok () ⟨.keys { k with server }, (c.named fresh).stamped now⟩ ∧
      Reflects (Ledger.answer (.insert c fresh now) l).2 { k with server } := by
  obtain ⟨server, hfile, hreflects⟩ :=
    fileRow_reflects hk (.of_fileable hc hlegible hnow) hl.fresh (hl _ rfl)
  refine ⟨server, ?_, hreflects⟩
  have hnone : Table.find? fresh l = none := by
    cases hf : Table.find? fresh l with
    | none => rfl
    | some d =>
      exact absurd (List.mem_map.mpr ⟨_, Table.mem_of_find?_eq_some hf, rfl⟩) hl.fresh
  have hid : c.id.getD fresh = fresh := by rw [hc.unnamed, Option.getD_none]
  have hfree : k.checkFree (c.id.getD fresh) = .ok () := by
    simp [hid, checkFree, Server.holds, hk.rows, hnone]
  exact insert_of_ok (checkConnected_reflects hk) hfree (hid.symm ▸ hfile)

private theorem update_failed {l : Ledger} {k : Keys} (hk : Reflects l k) {now : Moment}
    {id : String} {changes : List Context.Change} {expected : Option Int} {f : Failure}
    (hf : l.revise now id changes expected = .error f) :
    k.update now none (some id) changes expected = .error f := by
  unfold Ledger.revise at hf
  unfold update
  rw [checkConnected_reflects hk]
  cases hfields : Context.checkFields changes with
  | error g =>
    rw [hfields] at hf
    cases hf
    rfl
  | ok _ =>
    rw [hfields] at hf
    have hrow := hk.rows id
    cases hc : Table.find? id l with
    | none =>
      rw [hc] at hrow hf
      simp only [Server.context?, hrow, Option.map_none]
      cases hf
      rfl
    | some c =>
      rw [hc] at hrow hf
      have hversion : (contextRow c).version = c.version := rfl
      simp only [Server.context?, hrow, Option.map_some, hversion]
      cases hv : Context.checkVersion (some id) expected c.version with
      | error g =>
        simp only [hv] at hf
        cases hf
        rfl
      | ok _ =>
        simp only [hv] at hf
        cases hf

private theorem update_reflects {l : Ledger} (h : l.Orderly) {k : Keys} (hk : Reflects l k)
    {now : Moment} {id : String} {changes : List Context.Change} {expected : Option Int}
    (hch : ∀ ch ∈ changes, ch.IsTyped) (hl : ∀ ch ∈ changes, ch.isLegible = true) {v : Int}
    {m : Ledger} (hm : l.revise now id changes expected = .ok (v, m)) :
    ∃ server, k.update now none (some id) changes expected = .ok (v, { k with server }) ∧
      Reflects m { k with server } := by
  obtain ⟨c, hc, hfields, hversion, rfl, rfl⟩ := Ledger.revise_eq_ok.mp hm
  obtain ⟨server, hwrite, hreflects⟩ := writeRow_reflects h hk hc hch hl now
  have hrow : k.server.context? (k.contextKey (some id)) = .ok (some (contextRow c)) := by
    rw [Server.context?_eq_some, hk.rows id, hc]
    rfl
  exact ⟨server, update_eq_ok.mpr ⟨hk.connected, rfl, id, contextRow c, server, rfl, hrow, hfields,
    hversion, rfl, hwrite, rfl⟩, hreflects⟩

/-- A store on a server answers as the ledger of its rows, and keeps doing so. -/
theorem perform_answer {l : Ledger} (h : l.Orderly) {k : Keys} (hk : Reflects l k) {a : Access}
    (ha : a.IsTyped) (hfits : a.FitsColumns) (hl : l.ComesBefore a) :
    (a.perform (.keys k)).1.map Reply.toMillis = (Ledger.answer a l).1.map Reply.toMillis ∧
      ∃ k', (a.perform (.keys k)).2 = .keys k' ∧ Reflects (Ledger.answer a l).2 k' := by
  cases a with
  | insert c fresh now =>
    obtain ⟨server, hinsert, hreflects⟩ := insert_reflects hk ha.1 hfits ha.2 hl
    simp only [Access.perform, hinsert]
    exact ⟨rfl, _, rfl, hreflects⟩
  | update now id changes expected =>
    cases hm : l.revise now id changes expected with
    | error f =>
      have hupdate := update_failed hk hm
      simp only [Access.perform, Store.update, hupdate, Ledger.answer, hm]
      exact ⟨rfl, k, rfl, hk⟩
    | ok p =>
      obtain ⟨v, m⟩ := p
      obtain ⟨server, hupdate, hreflects⟩ := update_reflects h hk ha hfits.1 hm
      simp only [Access.perform, Store.update, hupdate, Ledger.answer, hm]
      exact ⟨rfl, _, rfl, hreflects⟩
  | get id =>
    have hget : k.getContext (some id) = .ok ((Table.find? id l).map Context.toMillis) :=
      bind_eq_ok.mpr ⟨(), checkConnected_reflects hk, contextAt_reflects h hk id⟩
    simp only [Access.perform, Store.getContext, hget]
    exact ⟨congrArg Except.ok (Reply.toMillis_toMillis (.found _)), k, rfl, hk⟩
  | due now limit =>
    simp only [Access.perform, Store.due, due_reflects h hk ha.2 hfits]
    exact ⟨congrArg Except.ok (Reply.toMillis_toMillis (.listed _)), k, rfl, hk⟩
  | children parent =>
    simp only [Access.perform, Store.children, children_reflects h hk]
    exact ⟨congrArg Except.ok (Reply.toMillis_toMillis (.listed _)), k, rfl, hk⟩
  | ofContact contact includeCompleted =>
    simp only [Access.perform, Store.ofContact, ofContact_reflects h hk]
    exact ⟨congrArg Except.ok (Reply.toMillis_toMillis (.listed _)), k, rfl, hk⟩
  | nextWakeup =>
    simp only [Access.perform, Store.nextWakeup, nextWakeup_reflects h hk]
    exact ⟨rfl, k, rfl, hk⟩

end Keys
end DurableFlow.Store
