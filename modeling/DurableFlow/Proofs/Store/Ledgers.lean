import DurableFlow.Proofs.Store.GivenWakeups
import DurableFlow.Proofs.Store.LegibleRows
import DurableFlow.Proofs.Store.StoredCopies
import DurableFlow.Proofs.ZonedTimes

/-! The accesses to the contexts of a store, and a ledger that answers them: one list of contexts in
the order of their filing, without tables, keys or indexes. Times are compared to the millisecond. -/
namespace DurableFlow

namespace Table
variable {κ α : Type} [DecidableEq κ]

/-- A new key comes last. -/
theorem put_eq_append {key : κ} {value : α} {table : List (κ × α)}
    (h : key ∉ table.map Prod.fst) : put key value table = table ++ [(key, value)] := by
  induction table with
  | nil => rfl
  | cons e rest ih =>
    obtain ⟨k, v⟩ := e
    rw [List.map_cons, List.mem_cons, not_or] at h
    rw [put, if_neg (Ne.symm h.1), ih h.2]
    rfl

/-- A known key keeps its place, and so do all others. -/
theorem put_eq_map {key : κ} {value : α} (f : α → α) {table : List (κ × α)}
    (hn : (table.map Prod.fst).Nodup) (h : find? key table = some value) :
    put key (f value) table = table.map fun e => (e.1, if e.1 = key then f e.2 else e.2) := by
  induction table with
  | nil => cases h
  | cons e rest ih =>
    obtain ⟨k, v⟩ := e
    rw [List.map_cons, List.nodup_cons] at hn
    rw [List.map_cons]
    by_cases hk : k = key
    · subst hk
      have hv : v = value := by simpa [find?] using h
      have hrest : rest.map (fun e => (e.1, if e.1 = k then f e.2 else e.2)) = rest := by
        refine (List.map_congr_left ?_).trans rest.map_id
        intro e he
        have hne : e.1 ≠ k := by
          rintro rfl
          exact hn.1 (List.mem_map.mpr ⟨e, he, rfl⟩)
        rw [if_neg hne]
        rfl
      rw [put, if_pos rfl, if_pos rfl, hv, hrest]
    · rw [find?, if_neg hk] at h
      rw [put, if_neg hk, if_neg hk, ih hn.2 h]

end Table

theorem Json.same_int (m n : Int) : Json.same (.int m) (.int n) = decide (Json.int m = .int n) := by
  simp [same, place?, Binary64.Place.same]

def IsWord (n : Int) : Prop := -Nat.pow 2 63 ≤ n ∧ n < Nat.pow 2 63

instance (n : Int) : Decidable (IsWord n) := inferInstanceAs (Decidable (_ ∧ _))

namespace Moment

structure IsWhole (t : Moment) : Prop where
  zoned : t.zoned = true
  micros_eq : t.micros = t.millis * 1000

theorem millis_le {s t : Moment} (h : s.micros ≤ t.micros) : s.millis ≤ t.millis := by
  unfold millis
  rw [Int.fdiv_eq_ediv_of_nonneg _ (by decide), Int.fdiv_eq_ediv_of_nonneg _ (by decide)]
  omega

theorem IsWhole.lt_iff {t u : Moment} (ht : t.IsWhole) (hu : u.IsWhole) :
    t.micros < u.micros ↔ t.millis < u.millis := by
  have := ht.micros_eq
  have := hu.micros_eq
  omega

theorem IsWhole.isDated_ofMillis {t : Moment} (h : t.IsWhole) (hd : t.isDated = true) :
    (ofMillis t.millis).isDated = true := by
  rw [isDated_iff, h.micros_eq] at hd
  exact isDated_iff.mpr hd

theorem map_ofMillis_millis (t : Option Int) : (t.map ofMillis).map millis = t := by
  cases t with
  | none => rfl
  | some ms => exact congrArg some (Store.millis_ofMillis ms)

end Moment

namespace Context

def toMillis (c : Context) : Context :=
  { c with
    wakeup := (c.wakeup.map Moment.millis).map Moment.ofMillis
    completed := (c.completed.map Moment.millis).map Moment.ofMillis
    inserted := .ofMillis c.inserted.millis
    updated := .ofMillis c.updated.millis }

theorem toMillis_toMillis (c : Context) : c.toMillis.toMillis = c.toMillis := by
  simp only [toMillis, Store.millis_ofMillis, Moment.map_ofMillis_millis]

def alarm (c : Context) : Option Int :=
  if c.isCompleted then none else c.wakeup.map Moment.millis

theorem alarm_eq_some {c : Context} {ms : Int} :
    c.alarm = some ms ↔ c.completed = none ∧ c.wakeup.map Moment.millis = some ms := by
  cases hc : c.completed <;> simp [alarm, isCompleted, hc]

/-- Contexts as callers file them: the store chooses the id, the fields have the types that they are
declared with, and a context that has a parent names it. -/
structure Fileable (c : Context) : Prop where
  unnamed : c.id = none
  contact : ∃ n : Int, c.contact = .int n ∧ IsWord n
  flow : IsWord c.flow
  flowUuid : ∃ uuid, c.flowUuid = some uuid
  node : ∃ name, c.node = .string name
  parent : c.parent ≠ some ""
  wakeup : ∀ t, c.wakeup = some t → t.IsWhole
  completed : ∀ t, c.completed = some t → t.IsWhole

def Change.IsTyped : Change → Prop
  | .node v => ∃ name, v = .string name
  | .wakeup t | .completed t => ∀ u, t = some u → u.IsWhole
  | .results _ | .other _ => True

end Context

namespace Store

/-- An access to the contexts of a store. An insertion leaves the id to the store; the fresh id and
the readings of the clock come from outside. -/
inductive Access where
  | insert (c : Context) (fresh : String) (now : Moment)
  | update (now : Moment) (id : String) (changes : List Context.Change) (expected : Option Int)
  | get (id : String)
  | due (now : Moment) (limit : Option Nat)
  | children (parent : String)
  | ofContact (contact : Int) (includeCompleted : Bool)
  | nextWakeup

inductive Reply where
  | filed (c : Context)
  | version (n : Int)
  | found (c : Option Context)
  | listed (cs : List Context)
  | time (t : Option Moment)
  deriving DecidableEq

def Reply.toMillis : Reply → Reply
  | .filed c => .filed c.toMillis
  | .version n => .version n
  | .found c => .found (c.map Context.toMillis)
  | .listed cs => .listed (cs.map Context.toMillis)
  | .time t => .time ((t.map Moment.millis).map Moment.ofMillis)

theorem Reply.toMillis_toMillis (r : Reply) : r.toMillis.toMillis = r.toMillis := by
  cases r with
  | filed c => exact congrArg Reply.filed (Context.toMillis_toMillis c)
  | version n => rfl
  | found c =>
    simp only [Reply.toMillis, Option.map_map]
    congr 2
    funext c
    exact Context.toMillis_toMillis c
  | listed cs =>
    simp only [Reply.toMillis, List.map_map]
    congr 2
    funext c
    exact Context.toMillis_toMillis c
  | time t => simp only [Reply.toMillis, Moment.map_ofMillis_millis]

namespace Access

def limitValue (limit : Option Nat) : Json := (limit.map fun n : Nat => Json.int n).getD .null

def perform : Access → Store → Except Failure Reply × Store
  | .insert c fresh now, s =>
    match Store.insert fresh now ⟨s, c⟩ with
    | .ok _ h => (.ok (.filed h.held), h.state)
    | .error f h => (.error f, h.state)
  | .update now id changes expected, s =>
    match s.update now none (some id) changes expected with
    | .ok (v, t) => (.ok (.version v), t)
    | .error f => (.error f, s)
  | .get id, s => ((s.getContext (some id)).map .found, s)
  | .due now limit, s =>
    ((s.due (some now) (limitValue limit)).map .listed, s)
  | .children parent, s => ((s.children (some parent)).map .listed, s)
  | .ofContact contact includeCompleted, s =>
    ((s.ofContact (.int contact) includeCompleted).map .listed, s)
  | .nextWakeup, s => (s.nextWakeup.map .time, s)

def replies : List Access → Store → List (Except Failure Reply)
  | [], _ => []
  | a :: rest, s => (a.perform s).1 :: replies rest (a.perform s).2

def filing? : Access → Option (Moment × String)
  | .insert _ fresh now => some (now, fresh)
  | _ => none

def InOrder (accesses : List Access) : Prop :=
  (accesses.filterMap filing?).Pairwise fun p q => p.1.micros ≤ q.1.micros ∧ p.2 < q.2

instance (accesses : List Access) : Decidable (InOrder accesses) :=
  inferInstanceAs (Decidable (List.Pairwise _ _))

/-- Accesses of the declared types, contacts and flows among them that have at most 64 bits. -/
def IsTyped : Access → Prop
  | .insert c _ now => c.Fileable ∧ now.isDated = true
  | .update _ _ changes _ => ∀ ch ∈ changes, ch.IsTyped
  | .due now _ => now.zoned = true ∧ now.IsShown
  | .ofContact contact _ => IsWord contact
  | .get _ | .children _ | .nextWakeup => True

/-- The times that may be compared: the wakeup times that are given, and the times by which
contexts are to be due. -/
def times : Access → List Moment
  | .insert c _ _ => c.wakeup.toList
  | .update _ _ changes _ => Context.Change.wakeups changes
  | .due now _ => [now]
  | .get _ | .children _ | .ofContact .. | .nextWakeup => []

def InStep (accesses : List Access) : Prop :=
  ∀ t ∈ accesses.flatMap times, ∀ u ∈ accesses.flatMap times, t.InStep u

instance (accesses : List Access) : Decidable (InStep accesses) :=
  inferInstanceAs (Decidable (∀ t ∈ accesses.flatMap times, ∀ u ∈ accesses.flatMap times, t.InStep u))

/-- What columns and commands hold and give back: a limit and an expected version of at most 64 bits,
and times in the years 1 to 9999 of UTC. -/
def FitsColumns : Access → Prop
  | .insert c _ _ => c.isLegible = true
  | .update _ _ changes expected =>
    (∀ ch ∈ changes, ch.isLegible = true) ∧ ∀ n : Int, expected = some n → IsWord n
  | .due _ limit => ∀ n : Nat, limit = some n → IsWord n
  | .get _ | .children _ | .ofContact .. | .nextWakeup => True

end Access

abbrev Ledger := List (String × Context)

namespace Ledger

def dueBy (now : Moment) (l : Ledger) : Ledger :=
  (l.filter fun e => e.2.alarm.any (· ≤ now.millis)).mergeSort fun a b =>
    decide (a.2.alarm.getD 0 ≤ b.2.alarm.getD 0)

def contexts (l : Ledger) : List Context := l.map (·.2)

def revise (now : Moment) (id : String) (changes : List Context.Change) (expected : Option Int)
    (l : Ledger) : Except Failure (Int × Ledger) := do
  Context.checkFields changes
  match Table.find? id l with
  | none => throw (.contextNotFound (some id))
  | some c => do
    Context.checkVersion (some id) expected c.version
    let next := { c.applyAll changes with version := c.version + 1, updated := now }
    return (next.version, Table.put id next l)

/-- The reply to an access, and the ledger after it. Lists of contexts are in the order of filing,
also those of the due ones that wake at the same time. -/
def answer : Access → Ledger → Except Failure Reply × Ledger
  | .insert c fresh now, l =>
    let filed := (c.named fresh).stamped now
    (.ok (.filed filed), l ++ [(fresh, filed.unbound)])
  | .update now id changes expected, l =>
    match l.revise now id changes expected with
    | .ok (v, m) => (.ok (.version v), m)
    | .error f => (.error f, l)
  | .get id, l => (.ok (.found (Table.find? id l)), l)
  | .due now limit, l =>
    (.ok (.listed (contexts ((l.dueBy now).take (limit.getD (l.dueBy now).length)))), l)
  | .children parent, l =>
    (.ok (.listed (contexts (l.filter fun e => e.2.parent = some parent))), l)
  | .ofContact contact includeCompleted, l =>
    (.ok (.listed (contexts (l.filter fun e =>
      e.2.contact = .int contact && (includeCompleted || !e.2.isCompleted)))), l)
  | .nextWakeup, l =>
    (.ok (.time ((l.filterMap fun e => e.2.alarm).min?.map Moment.ofMillis)), l)

def answers : List Access → Ledger → List (Except Failure Reply)
  | [], _ => []
  | a :: rest, l => (answer a l).1 :: answers rest (answer a l).2

/-! ## What stands in a ledger -/

/-- A context as it was filed under an id, or as changes of the declared types have left it. -/
structure Entered (id : String) (c : Context) : Prop where
  id : c.id = some id
  contact : ∃ n : Int, c.contact = .int n
  flowUuid : ∃ uuid, c.flowUuid = some uuid
  node : ∃ name, c.node = .string name
  parent : c.parent ≠ some ""
  wakeup : ∀ t, c.wakeup = some t → t.IsWhole
  completed : ∀ t, c.completed = some t → t.IsWhole
  legible : c.isLegible = true
  inserted : c.inserted.isDated = true
  index : c.index = none

/-- Entries that were filed under increasing ids, by a clock that did not go back. -/
structure Orderly (l : Ledger) : Prop where
  entered : ∀ e ∈ l, Entered e.1 e.2
  inOrder : l.Pairwise fun a b => a.1 < b.1 ∧ a.2.inserted.micros ≤ b.2.inserted.micros

def ComesBefore (l : Ledger) (a : Access) : Prop :=
  ∀ p, a.filing? = some p → ∀ e ∈ l, e.1 < p.2 ∧ e.2.inserted.micros ≤ p.1.micros

/-- The id of a later insertion is new. -/
theorem ComesBefore.fresh {l : Ledger} {c : Context} {fresh : String} {now : Moment}
    (h : l.ComesBefore (.insert c fresh now)) : fresh ∉ l.map Prod.fst := by
  intro hm
  obtain ⟨e, he, rfl⟩ := List.mem_map.mp hm
  exact String.lt_irrefl _ (h _ rfl e he).1

/-- A calendar shows the time for which an entry waits. -/
theorem Entered.isDated_alarm {i : String} {c : Context} (h : Entered i c) {ms : Int}
    (ha : c.alarm = some ms) : (Moment.ofMillis ms).isDated = true := by
  obtain ⟨t, ht, rfl⟩ := Option.map_eq_some_iff.mp (Context.alarm_eq_some.mp ha).2
  have hdated : c.wakeup.all Moment.isDated = true := ((Bool.and_eq_true _ _).mp h.legible).1
  rw [ht] at hdated
  exact (h.wakeup t ht).isDated_ofMillis hdated

theorem Entered.of_fileable {c : Context} (h : c.Fileable) (hl : c.isLegible = true)
    {fresh : String} {now : Moment} (hnow : now.isDated = true) :
    Entered fresh ((c.named fresh).stamped now).unbound := by
  obtain ⟨n, hn, _⟩ := h.contact
  refine ⟨?_, ⟨n, hn⟩, h.flowUuid, h.node, h.parent, h.wakeup, h.completed, hl, hnow, rfl⟩
  simp only [Context.unbound, Context.stamped, Context.named, h.unnamed, Option.getD_none]

theorem Entered.apply {i : String} {c : Context} (h : Entered i c) {ch : Context.Change}
    (hch : ch.IsTyped) (hl : ch.isLegible = true) : Entered i (c.apply ch) := by
  have hlegible : (c.apply ch).isLegible = true :=
    Context.isLegible_applyAll h.legible (List.forall_mem_singleton.mpr hl)
  cases ch with
  | node v => exact { h with node := hch, legible := hlegible }
  | wakeup t => exact { h with wakeup := hch, legible := hlegible }
  | completed t => exact { h with completed := hch, legible := hlegible }
  | results v => exact { h with }
  | other name => exact h

theorem Entered.applyAll {i : String} {c : Context} (h : Entered i c)
    {changes : List Context.Change} (hch : ∀ ch ∈ changes, ch.IsTyped)
    (hl : ∀ ch ∈ changes, ch.isLegible = true) :
    Entered i (c.applyAll changes) := by
  induction changes generalizing c with
  | nil => exact h
  | cons ch rest ih =>
    obtain ⟨hone, hrest⟩ := List.forall_mem_cons.mp hch
    obtain ⟨hlone, hlrest⟩ := List.forall_mem_cons.mp hl
    exact ih (h.apply hone hlone) hrest hlrest

theorem Orderly.nodup {l : Ledger} (h : l.Orderly) : (l.map Prod.fst).Nodup := by
  refine List.pairwise_map.mpr (h.inOrder.imp ?_)
  rintro a b ⟨hlt, _⟩ he
  exact String.lt_irrefl _ (he ▸ hlt)

theorem Orderly.find? {l : Ledger} (h : l.Orderly) {i : String} {c : Context}
    (hf : Table.find? i l = some c) : Entered i c :=
  h.entered (i, c) (Table.mem_of_find?_eq_some hf)

/-- An id names one entry only. -/
theorem Orderly.eq_of_find? {l : Ledger} (h : l.Orderly) {i : String} {c : Context}
    (hc : Table.find? i l = some c) {e : String × Context} (he : e ∈ l) (hi : e.1 = i) :
    e.2 = c := by
  have hfind := Table.find?_eq_some_of_mem h.nodup he
  rw [hi, hc] at hfind
  exact (Option.some.inj hfind).symm

def revised (now : Moment) (changes : List Context.Change) (c : Context) : Context :=
  { c.applyAll changes with version := c.version + 1, updated := now }

theorem revise_eq_ok {now : Moment} {id : String} {changes : List Context.Change}
    {expected : Option Int} {l m : Ledger} {v : Int} :
    l.revise now id changes expected = .ok (v, m) ↔
      ∃ c, Table.find? id l = some c ∧ Context.unknownFields changes = [] ∧
        (∀ n, expected = some n → n = c.version) ∧ v = c.version + 1 ∧
        m = Table.put id (revised now changes c) l := by
  simp only [revise, bind_eq_ok, checkFields_eq_ok]
  constructor
  · rintro ⟨_, hf, h⟩
    split at h
    · cases h
    · rename_i c hc
      obtain ⟨_, hv, h⟩ := bind_eq_ok.mp h
      cases h
      exact ⟨c, hc, hf, checkVersion_eq_ok.mp hv, rfl, rfl⟩
  · rintro ⟨c, hc, hf, hv, rfl, rfl⟩
    refine ⟨(), hf, ?_⟩
    simp only [hc]
    exact bind_eq_ok.mpr ⟨(), checkVersion_eq_ok.mpr hv, rfl⟩

/-! ## What an access keeps -/

/-- Changes leave alone when, under which parent and for which contact a context was filed. -/
theorem revised_frame (now : Moment) (changes : List Context.Change) (c : Context) :
    (revised now changes c).inserted = c.inserted ∧ (revised now changes c).parent = c.parent ∧
      (revised now changes c).contact = c.contact := by
  have h := Context.SameFrame.applyAll c changes
  exact ⟨h.inserted, h.parent, h.contact⟩

theorem Entered.revised {i : String} {c : Context} (h : Entered i c)
    {changes : List Context.Change} (hch : ∀ ch ∈ changes, ch.IsTyped)
    (hl : ∀ ch ∈ changes, ch.isLegible = true) (now : Moment) : Entered i (revised now changes c) :=
  { h.applyAll hch hl with }

private theorem Orderly.file {l : Ledger} (h : l.Orderly) {c : Context} (hc : c.Fileable)
    (hlegible : c.isLegible = true) {fresh : String} {now : Moment} (hnow : now.isDated = true)
    (hl : l.ComesBefore (.insert c fresh now)) :
    Orderly (l ++ [(fresh, ((c.named fresh).stamped now).unbound)]) := by
  constructor
  · intro e he
    rcases List.mem_append.mp he with he | he
    · exact h.entered e he
    · cases List.mem_singleton.mp he
      exact .of_fileable hc hlegible hnow
  · refine List.pairwise_append.mpr ⟨h.inOrder, List.pairwise_singleton _ _, ?_⟩
    intro a ha b hb
    cases List.mem_singleton.mp hb
    exact hl _ rfl a ha

theorem put_revised {l : Ledger} (h : l.Orderly) {i : String} {c : Context}
    (hc : Table.find? i l = some c) (now : Moment) (changes : List Context.Change) :
    Table.put i (revised now changes c) l =
      l.map fun e => (e.1, if e.1 = i then revised now changes e.2 else e.2) :=
  Table.put_eq_map (revised now changes) h.nodup hc

private theorem Orderly.put {l : Ledger} (h : l.Orderly) {i : String} {c : Context}
    (hc : Table.find? i l = some c) {changes : List Context.Change}
    (hch : ∀ ch ∈ changes, ch.IsTyped) (hl : ∀ ch ∈ changes, ch.isLegible = true) (now : Moment) :
    Orderly (Table.put i (revised now changes c) l) := by
  constructor
  · intro e he
    rcases Table.mem_put he with rfl | he
    · exact (h.find? hc).revised hch hl now
    · exact h.entered e he
  · rw [put_revised h hc, List.pairwise_map]
    refine h.inOrder.imp ?_
    have hsame (e : String × Context) :
        (if e.1 = i then revised now changes e.2 else e.2).inserted = e.2.inserted := by
      split
      · exact (revised_frame now changes e.2).1
      · rfl
    intro a b hab
    simpa only [hsame] using hab

private theorem answer_update (now : Moment) (id : String) (changes : List Context.Change)
    (expected : Option Int) (l : Ledger) :
    (answer (.update now id changes expected) l).2 = l ∨
      ∃ c, Table.find? id l = some c ∧
        (answer (.update now id changes expected) l).2 =
          Table.put id (revised now changes c) l := by
  cases hr : l.revise now id changes expected with
  | error f => exact .inl (by simp only [answer, hr])
  | ok p =>
    obtain ⟨v, m⟩ := p
    obtain ⟨c, hc, _, _, _, rfl⟩ := revise_eq_ok.mp hr
    exact .inr ⟨c, hc, by simp only [answer, hr]⟩

def WakesAt (ts : List Moment) (l : Ledger) : Prop :=
  ∀ e ∈ l, ∀ w, e.2.wakeup = some w → w ∈ ts

theorem WakesAt.answer {ts : List Moment} {l : Ledger} (h : l.WakesAt ts) {a : Access}
    (ha : ∀ t ∈ a.times, t ∈ ts) : WakesAt ts (answer a l).2 := by
  cases a with
  | insert c fresh now =>
    intro e he
    rcases List.mem_append.mp he with he | he
    · exact h e he
    · cases List.mem_singleton.mp he
      exact fun w hw => ha w (Option.mem_toList.mpr hw)
  | update now id changes expected =>
    obtain hl | ⟨c, hc, hl⟩ := answer_update now id changes expected l
    · rwa [hl]
    · rw [hl]
      intro e he w hw
      rcases Table.mem_put he with rfl | he
      · obtain hgiven | hbefore := Context.wakeup_applyAll hw
        · exact ha w hgiven
        · exact h (id, c) (Table.mem_of_find?_eq_some hc) w hbefore
      · exact h e he w hw
  | get id => exact h
  | due now limit => exact h
  | children parent => exact h
  | ofContact contact includeCompleted => exact h
  | nextWakeup => exact h

/-- An access keeps a ledger in order. -/
theorem Orderly.answer {l : Ledger} (h : l.Orderly) {a : Access} (ha : a.IsTyped)
    (hfits : a.FitsColumns) (hl : l.ComesBefore a) : Orderly (answer a l).2 := by
  cases a with
  | insert c fresh now => exact h.file ha.1 hfits ha.2 hl
  | update now id changes expected =>
    obtain he | ⟨c, hc, he⟩ := answer_update now id changes expected l
    · rwa [he]
    · rw [he]
      exact h.put hc ha hfits.1 now
  | get id => exact h
  | due now limit => exact h
  | children parent => exact h
  | ofContact contact includeCompleted => exact h
  | nextWakeup => exact h

/-- Whatever comes after a ledger and after an access comes after both. -/
theorem ComesBefore.answer {l : Ledger} {a b : Access} (hb : l.ComesBefore b)
    (hab : ∀ p, a.filing? = some p → ∀ q, b.filing? = some q →
      p.1.micros ≤ q.1.micros ∧ p.2 < q.2) :
    ComesBefore (answer a l).2 b := by
  intro q hq e he
  cases a with
  | insert c fresh now =>
    rcases List.mem_append.mp he with he | he
    · exact hb q hq e he
    · cases List.mem_singleton.mp he
      exact (hab _ rfl q hq).symm
  | update now id changes expected =>
    obtain hl | ⟨c, hc, hl⟩ := answer_update now id changes expected l
    · exact hb q hq e (hl ▸ he)
    · rw [hl] at he
      rcases Table.mem_put he with rfl | he
      · have hold := hb q hq (id, c) (Table.mem_of_find?_eq_some hc)
        rwa [← (revised_frame now changes c).1] at hold
      · exact hb q hq e he
  | get id => exact hb q hq e he
  | due now limit => exact hb q hq e he
  | children parent => exact hb q hq e he
  | ofContact contact includeCompleted => exact hb q hq e he
  | nextWakeup => exact hb q hq e he

end Ledger
end Store
end DurableFlow
