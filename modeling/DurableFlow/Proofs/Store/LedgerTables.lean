import Mathlib.Data.List.Basic
import DurableFlow.Proofs.Store.Ledgers
import DurableFlow.Proofs.Store.OptimisticUpdates

/-! A store in tables answers as the ledger of its rows. A row has its times in milliseconds and every
text present; nothing else of a context is lost in it. -/
namespace DurableFlow.Store

/-! ## Contexts and their rows -/

theorem filter_parent {parent : Option String} (h : parent ≠ some "") :
    parent.filter (· ≠ "") = parent := by
  cases parent with
  | none => rfl
  | some p =>
    have hne : p ≠ "" := fun he => h (congrArg some he)
    simp [hne]

/-- What a row keeps of an entry of a ledger is all but the zones, and the microseconds of two
times. -/
theorem Ledger.Entered.context_contextRow {i : String} {c : Context} (h : Ledger.Entered i c) :
    (Keys.contextRow c).context = c.toMillis := by
  obtain ⟨uuid, huuid⟩ := h.flowUuid
  obtain ⟨name, hname⟩ := h.node
  have hparent := filter_parent h.parent
  have hnode : Json.string (Keys.fieldText c.node) = c.node := by
    rw [hname]
    rfl
  simp only [ContextRow.context, Keys.contextRow, Context.toMillis, hparent, hnode, h.id, huuid,
    h.index, Option.getD_some]

/-- The row of an entry is read as that. -/
theorem Ledger.Entered.read_contextRow {i : String} {c : Context} (h : Ledger.Entered i c) :
    (Keys.contextRow c).read = .ok c.toMillis := by
  refine ContextRow.read_eq_ok.mpr ⟨?_, h.context_contextRow.symm⟩
  have hdated {o : Option Moment} (ho : ∀ t, o = some t → t.IsWhole)
      (hd : o.all Moment.isDated = true) :
      ((o.map Moment.millis).map Moment.ofMillis).all Moment.isDated = true := by
    cases o with
    | none => rfl
    | some t => exact (ho t rfl).isDated_ofMillis hd
  obtain ⟨hw, hd⟩ := (Bool.and_eq_true _ _).mp h.legible
  rw [h.context_contextRow, Context.isLegible, Bool.and_eq_true]
  exact ⟨hdated h.wakeup hw, hdated h.completed hd⟩

private theorem contextRow_apply {nodeText : Json → String}
    (ht : ∀ name, nodeText (.string name) = name) (c : Context) {ch : Context.Change}
    (hch : ch.IsTyped) :
    Keys.contextRow (c.apply ch) = (Keys.contextRow c).apply nodeText ch := by
  cases ch with
  | node v =>
    obtain ⟨name, rfl⟩ := hch
    simp only [Context.apply, Keys.contextRow, ContextRow.apply, ht]
    rfl
  | wakeup t => rfl
  | completed t => rfl
  | results v => rfl
  | other name => rfl

/-- Writing changes of the declared types into a row is changing the context first. -/
theorem contextRow_revised {nodeText : Json → String}
    (ht : ∀ name, nodeText (.string name) = name) (now : Moment) {changes : List Context.Change}
    (hch : ∀ ch ∈ changes, ch.IsTyped) (c : Context) :
    Keys.contextRow (Ledger.revised now changes c) =
      (Keys.contextRow c).advanced nodeText changes now := by
  have hfold (c : Context) : Keys.contextRow (c.applyAll changes) =
      changes.foldl (ContextRow.apply nodeText) (Keys.contextRow c) := by
    induction changes generalizing c with
    | nil => rfl
    | cons ch rest ih =>
      obtain ⟨hone, hrest⟩ := List.forall_mem_cons.mp hch
      rw [List.foldl_cons, ← contextRow_apply ht c hone]
      exact ih hrest (c.apply ch)
  simp only [ContextRow.advanced, ← hfold]
  rfl

/-! ## Tables -/

def Ledger.rows (l : Ledger) : List ContextRow := l.map fun e => Keys.contextRow e.2

namespace Rows

structure Reflects (l : Ledger) (r : Rows) : Prop where
  connected : r.connected = true
  contexts : r.contexts = l.rows

theorem checkSize_eq_ok {n : Int} (h : IsWord n) : checkSize n = .ok () := by
  have hlargest : largest = Nat.pow 2 63 - 1 := rfl
  have hfits : -largest - 1 ≤ n ∧ n ≤ largest := by
    have hbounds : -Nat.pow 2 63 ≤ n ∧ n < Nat.pow 2 63 := h
    omega
  exact if_pos hfits

private theorem contextRow_fileable {c : Context} (h : c.Fileable) (fresh : String)
    (now : Moment) :
    contextRow ((c.named fresh).stamped now) =
      .ok (Keys.contextRow ((c.named fresh).stamped now).unbound) := by
  obtain ⟨n, hn, hsize⟩ := h.contact
  obtain ⟨uuid, huuid⟩ := h.flowUuid
  obtain ⟨name, hname⟩ := h.node
  have hparent := filter_parent h.parent
  have hcontact : cell (.int n) = .ok (.int n) := by
    simp only [cell, checkSize_eq_ok hsize, Except.map]
  simp only [contextRow, Keys.contextRow, Context.stamped, Context.named, Context.unbound, hn,
    hcontact, hname, huuid, hparent, checkSize_eq_ok h.flow]
  rfl

private theorem id_contextRow {i : String} {c : Context} (h : Ledger.Entered i c) :
    (Keys.contextRow c).id = i := by
  simp only [Keys.contextRow, h.id, Option.getD_some]

theorem find?_rows {l : Ledger} (h : l.Orderly) (i : String) :
    l.rows.find? (fun row => some row.id = some i) = (Table.find? i l).map Keys.contextRow := by
  have hall := h.entered
  clear h
  induction l with
  | nil => rfl
  | cons e rest ih =>
    obtain ⟨he, hrest⟩ := List.forall_mem_cons.mp hall
    obtain ⟨j, c⟩ := e
    have hid : (Keys.contextRow c).id = j := id_contextRow he
    change List.find? _ (Keys.contextRow c :: Ledger.rows rest) = _
    rw [List.find?_cons, Table.find?, hid]
    by_cases hj : j = i
    · simp [hj]
    · simpa [hj] using ih hrest

private theorem checkConnected_reflects {l : Ledger} {r : Rows} (hr : Reflects l r) :
    r.checkConnected = .ok () :=
  if_pos hr.connected

private theorem insert_rows {l : Ledger} (h : l.Orderly) {r : Rows} (hr : Reflects l r)
    {c : Context} (hc : c.Fileable) {fresh : String} (hfresh : fresh ∉ l.map Prod.fst)
    (now : Moment) :
    Store.insert fresh now ⟨.rows r, c⟩ = .ok () ⟨.rows { r with
      contexts := r.contexts ++ [Keys.contextRow ((c.named fresh).stamped now).unbound] },
      (c.named fresh).stamped now⟩ := by
  have hid : (Keys.contextRow ((c.named fresh).stamped now).unbound).id = fresh := by
    simp only [Keys.contextRow, Context.stamped, Context.named, Context.unbound, hc.unnamed,
      Option.getD_none, Option.getD_some]
  have hfree : r.checkFree (Keys.contextRow ((c.named fresh).stamped now).unbound) = .ok () := by
    refine if_neg ?_
    rw [hid, hr.contexts]
    intro hany
    obtain ⟨row, hrow, he⟩ := List.any_eq_true.mp hany
    obtain ⟨e, hm, rfl⟩ := List.mem_map.mp hrow
    have hkey : e.1 = fresh :=
      (id_contextRow (h.entered e hm)).symm.trans (of_decide_eq_true he)
    exact hfresh (List.mem_map.mpr ⟨e, hm, hkey⟩)
  exact insert_of_ok (checkConnected_reflects hr) (contextRow_fileable hc fresh now) hfree

private theorem rows_put {l : Ledger} (h : l.Orderly) {i : String} {c : Context}
    (hc : Table.find? i l = some c) (now : Moment) {changes : List Context.Change}
    (hch : ∀ ch ∈ changes, ch.IsTyped) :
    Ledger.rows (Table.put i (Ledger.revised now changes c) l) =
      l.rows.map fun x => if x.id = ((Keys.contextRow c).advanced textCell changes now).id then
        (Keys.contextRow c).advanced textCell changes now else x := by
  have hold : (Keys.contextRow c).id = i := id_contextRow (h.find? hc)
  have hid : ((Keys.contextRow c).advanced textCell changes now).id = i :=
    (advanced_id _ _ _ _).trans hold
  simp only [Ledger.rows, Ledger.put_revised h hc, List.map_map, hid]
  refine List.map_congr_left ?_
  intro e he
  by_cases hi : e.1 = i
  · have hsame : e.2 = c := h.eq_of_find? hc he hi
    have htext (name : String) : textCell (.string name) = name := rfl
    simp only [Function.comp_apply, hi, if_pos, hsame, hold]
    exact contextRow_revised htext now hch c
  · have hide := id_contextRow (h.entered e he)
    simp only [Function.comp_apply, hide, hi, if_neg, not_false_eq_true]

private theorem checkNode_typed {changes : List Context.Change}
    (hch : ∀ ch ∈ changes, ch.IsTyped) : checkNode changes = .ok () := by
  refine checkNode_eq_ok.mpr ?_
  intro hm
  obtain ⟨name, hname⟩ := hch _ hm
  cases hname

private theorem update_rows_reflects {l : Ledger} (h : l.Orderly) {r : Rows} (hr : Reflects l r)
    {changes : List Context.Change} (hch : ∀ ch ∈ changes, ch.IsTyped) {expected : Option Int}
    (he : ∀ n : Int, expected = some n → IsWord n) (now : Moment) (id : String) :
    r.update now (some id) changes expected =
      (l.revise now id changes expected).map fun p => (p.1, { r with contexts := p.2.rows }) := by
  have hexpected : checkExpected expected = .ok () := by
    cases expected with
    | none => rfl
    | some n => exact checkSize_eq_ok (he n rfl)
  have hchange : changes.forM checkChange = .ok () :=
    checkChange_of_wellTyped fun _ hv => hch _ hv
  unfold update Ledger.revise
  rw [checkConnected_reflects hr]
  cases Context.checkFields changes with
  | error f => rfl
  | ok _ =>
    simp only [hchange, hexpected, hr.contexts, find?_rows h]
    cases hc : Table.find? id l with
    | none => rfl
    | some c =>
      have hversion : (Keys.contextRow c).version = c.version := rfl
      simp only [Option.map_some, hversion]
      cases Context.checkVersion (some id) expected c.version with
      | error f => rfl
      | ok _ =>
        have hput := rows_put h hc now hch
        simp only [checkNode_typed hch, putContext, hr.contexts, ← hput]
        rfl

theorem bound?_limit {limit : Option Nat} (h : ∀ n : Nat, limit = some n → IsWord n) :
    bound? (Access.limitValue limit) = .ok limit := by
  cases limit with
  | none => rfl
  | some n =>
    have hsize : checkSize (n : Int) = .ok () := checkSize_eq_ok (h n rfl)
    have hcell : cell (.int n) = .ok (.int n) := by
      simp only [cell, hsize, Except.map]
    simp [bound?, Access.limitValue, hcell, integerCell, bind, Except.bind, pure, Except.pure]

private theorem mapM_read_rows {l : Ledger} (h : ∀ e ∈ l, Ledger.Entered e.1 e.2) :
    l.rows.mapM ContextRow.read = .ok (l.contexts.map Context.toMillis) := by
  refine mapM_read_eq_ok.mpr ⟨?_, ?_⟩
  · intro row hrow
    obtain ⟨e, he, rfl⟩ := List.mem_map.mp hrow
    exact (ContextRow.read_eq_ok.mp (h e he).read_contextRow).1
  · simp only [Ledger.rows, Ledger.contexts, List.map_map]
    refine List.map_congr_left ?_
    intro e he
    exact (h e he).context_contextRow.symm

private theorem oldestFirst_rows {l : Ledger} (h : l.Orderly) {p : ContextRow → Bool}
    {q : String × Context → Bool} (hpq : ∀ e ∈ l, p (Keys.contextRow e.2) = q e) :
    (oldestFirst (l.rows.filter p)).mapM ContextRow.read =
      .ok ((Ledger.contexts (l.filter q)).map Context.toMillis) := by
  have hsorted : l.rows.Pairwise fun a b => (decide (a.inserted < b.inserted) ||
      (a.inserted = b.inserted && decide (a.id ≤ b.id))) = true := by
    refine List.pairwise_map.mpr (List.Pairwise.imp_of_mem ?_ h.inOrder)
    -- Rows stand by the time of their filing already; ids break the ties that milliseconds make.
    rintro a b ha hb ⟨hlt, hle⟩
    have hms : (Keys.contextRow a.2).inserted ≤ (Keys.contextRow b.2).inserted :=
      Moment.millis_le hle
    rw [id_contextRow (h.entered a ha), id_contextRow (h.entered b hb)]
    simp only [Bool.or_eq_true, Bool.and_eq_true, decide_eq_true_eq]
    rcases Int.lt_or_eq_of_le hms with hms | hms
    · exact .inl hms
    · exact .inr ⟨hms, String.not_lt.mp (String.lt_asymm hlt)⟩
  have hkept := List.mergeSort_of_pairwise (hsorted.sublist (List.filter_sublist (p := p)))
  have hrows : l.rows.filter p = Ledger.rows (l.filter q) := by
    rw [Ledger.rows, List.filter_map]
    exact congrArg Ledger.rows (List.filter_congr hpq)
  rw [oldestFirst, hkept, hrows]
  exact mapM_read_rows fun e he => h.entered e (List.mem_of_mem_filter he)

private theorem alarm_contextRow (c : Context) :
    (if (Keys.contextRow c).completed.isNone then (Keys.contextRow c).wakeup else none) =
      c.alarm := by
  cases hc : c.completed <;> simp [Keys.contextRow, Context.alarm, Context.isCompleted, hc]

private theorem due_rows {l : Ledger} (h : l.Orderly) {r : Rows} (hr : Reflects l r)
    (now : Moment) {limit : Option Nat} (hn : ∀ n : Nat, limit = some n → IsWord n) :
    r.due (some now) (Access.limitValue limit) =
      .ok ((Ledger.contexts ((l.dueBy now).take (limit.getD (l.dueBy now).length))).map
        Context.toMillis) := by
  have hfound : r.contexts.filter (fun row => row.completed.isNone &&
      row.wakeup.any fun t => (some now).any fun n => t ≤ n.millis) =
        Ledger.rows (l.filter fun e => e.2.alarm.any (· ≤ now.millis)) := by
    rw [hr.contexts, Ledger.rows, List.filter_map]
    refine congrArg Ledger.rows (List.filter_congr ?_)
    intro e he
    rw [Function.comp_apply, ← alarm_contextRow]
    cases (Keys.contextRow e.2).completed <;> simp
  have hsort : (Ledger.rows (l.filter fun e => e.2.alarm.any (· ≤ now.millis))).mergeSort
      (fun a b => decide (a.wakeup.getD 0 ≤ b.wakeup.getD 0)) = (l.dueBy now).rows := by
    refine (List.map_mergeSort ?_).symm
    intro a ha b hb
    obtain ⟨x, hx, _⟩ := (Option.any_eq_true _ _).mp (List.mem_filter.mp ha).2
    obtain ⟨y, hy, _⟩ := (Option.any_eq_true _ _).mp (List.mem_filter.mp hb).2
    have hwx : (Keys.contextRow a.2).wakeup = some x := (Context.alarm_eq_some.mp hx).2
    have hwy : (Keys.contextRow b.2).wakeup = some y := (Context.alarm_eq_some.mp hy).2
    rw [hwx, hwy, hx, hy]
  have hall : ∀ e ∈ (l.dueBy now).take (limit.getD (l.dueBy now).length),
      Ledger.Entered e.1 e.2 := by
    intro e he
    have hm := List.mem_mergeSort.mp (List.mem_of_mem_take he)
    exact h.entered e (List.mem_of_mem_filter hm)
  refine bind_eq_ok.mpr ⟨(), checkConnected_reflects hr, ?_⟩
  refine bind_eq_ok.mpr ⟨limit, bound?_limit hn, ?_⟩
  rw [hfound]
  dsimp only
  rw [hsort, ← mapM_read_rows hall]
  simp only [Ledger.rows, List.map_take, List.length_map]

private theorem children_rows {l : Ledger} (h : l.Orderly) {r : Rows} (hr : Reflects l r)
    (parent : String) :
    r.children (some parent) = .ok ((Ledger.contexts
      (l.filter fun e => e.2.parent = some parent)).map Context.toMillis) := by
  refine bind_eq_ok.mpr ⟨(), checkConnected_reflects hr, ?_⟩
  rw [hr.contexts]
  refine oldestFirst_rows h ?_
  intro e he
  have hparent : (Keys.contextRow e.2).parent = e.2.parent :=
    filter_parent (h.entered e he).parent
  simp [hparent]

private theorem ofContact_rows {l : Ledger} (h : l.Orderly) {r : Rows} (hr : Reflects l r)
    {contact : Int} (hc : IsWord contact) (includeCompleted : Bool) :
    r.ofContact (.int contact) includeCompleted = .ok ((Ledger.contexts (l.filter fun e =>
      e.2.contact = .int contact && (includeCompleted || !e.2.isCompleted))).map
        Context.toMillis) := by
  have hcell : cell (.int contact) = .ok (.int contact) := by
    simp only [cell, checkSize_eq_ok hc, Except.map]
  refine bind_eq_ok.mpr ⟨(), checkConnected_reflects hr, ?_⟩
  refine bind_eq_ok.mpr ⟨.int contact, hcell, ?_⟩
  rw [hr.contexts]
  refine oldestFirst_rows h ?_
  intro e he
  obtain ⟨n, hn⟩ := (h.entered e he).contact
  have hrow : (Keys.contextRow e.2).contact = .int n := hn
  have hvalue : integerCell (.int contact) = .int contact := rfl
  rw [hrow, hn, hvalue, Json.same_int]
  cases hd : e.2.completed <;> simp [Keys.contextRow, Context.isCompleted, hd]

private theorem nextWakeup_rows {l : Ledger} (h : l.Orderly) {r : Rows} (hr : Reflects l r) :
    r.nextWakeup = .ok ((l.filterMap fun e => e.2.alarm).min?.map Moment.ofMillis) := by
  have htimes : r.contexts.filterMap (fun row =>
      if row.completed.isNone then row.wakeup else none) = l.filterMap fun e => e.2.alarm := by
    rw [hr.contexts, Ledger.rows, List.filterMap_map]
    exact List.filterMap_congr fun e _ => alarm_contextRow e.2
  refine bind_eq_ok.mpr ⟨(), checkConnected_reflects hr, ?_⟩
  rw [htimes]
  refine (option_mapM_eq_ok fun ms _ => Moment.dated_eq_ok).mpr ⟨?_, rfl⟩
  intro ms hms
  obtain ⟨e, he, ha⟩ := List.mem_filterMap.mp (List.min?_mem hms)
  exact (h.entered e he).isDated_alarm ha

private theorem getContext_rows {l : Ledger} (h : l.Orderly) {r : Rows} (hr : Reflects l r)
    (id : String) :
    r.getContext (some id) = .ok ((Table.find? id l).map Context.toMillis) := by
  refine bind_eq_ok.mpr ⟨(), checkConnected_reflects hr, ?_⟩
  rw [hr.contexts, find?_rows h]
  cases hc : Table.find? id l with
  | none => rfl
  | some c =>
    simp only [Option.map_some, Option.mapM_some, (h.find? hc).read_contextRow]
    rfl

private theorem Reflects.answer_insert {l : Ledger} {r : Rows} (hr : Reflects l r) (c : Context)
    (fresh : String) (now : Moment) :
    Reflects (Ledger.answer (.insert c fresh now) l).2 { r with
      contexts := r.contexts ++ [Keys.contextRow ((c.named fresh).stamped now).unbound] } := by
  refine ⟨hr.connected, ?_⟩
  simp only [Ledger.answer, Ledger.rows, List.map_append, List.map_cons, List.map_nil,
    hr.contexts]

/-- A store in tables answers as the ledger of its rows, and keeps doing so. -/
theorem perform_answer {l : Ledger} (h : l.Orderly) {r : Rows} (hr : Reflects l r) {a : Access}
    (ha : a.IsTyped) (hfits : a.FitsColumns) (hl : l.ComesBefore a) :
    (a.perform (.rows r)).1.map Reply.toMillis = (Ledger.answer a l).1.map Reply.toMillis ∧
      ∃ r', (a.perform (.rows r)).2 = .rows r' ∧ Reflects (Ledger.answer a l).2 r' := by
  cases a with
  | insert c fresh now =>
    have hinsert := insert_rows h hr ha.1 hl.fresh now
    simp only [Access.perform, hinsert]
    exact ⟨rfl, _, rfl, hr.answer_insert c fresh now⟩
  | update now id changes expected =>
    have hupdate := update_rows_reflects h hr ha hfits.2 now id
    simp only [Access.perform, Store.update, hupdate, Ledger.answer]
    cases l.revise now id changes expected with
    | error f => exact ⟨rfl, r, rfl, hr⟩
    | ok p => exact ⟨rfl, _, rfl, hr.connected, rfl⟩
  | get id =>
    simp only [Access.perform, Store.getContext, getContext_rows h hr]
    exact ⟨congrArg Except.ok (Reply.toMillis_toMillis (.found _)), r, rfl, hr⟩
  | due now limit =>
    simp only [Access.perform, Store.due, due_rows h hr now hfits]
    exact ⟨congrArg Except.ok (Reply.toMillis_toMillis (.listed _)), r, rfl, hr⟩
  | children parent =>
    simp only [Access.perform, Store.children, children_rows h hr]
    exact ⟨congrArg Except.ok (Reply.toMillis_toMillis (.listed _)), r, rfl, hr⟩
  | ofContact contact includeCompleted =>
    simp only [Access.perform, Store.ofContact, ofContact_rows h hr ha]
    exact ⟨congrArg Except.ok (Reply.toMillis_toMillis (.listed _)), r, rfl, hr⟩
  | nextWakeup =>
    simp only [Access.perform, Store.nextWakeup, nextWakeup_rows h hr]
    exact ⟨rfl, r, rfl, hr⟩

end Rows
end DurableFlow.Store
