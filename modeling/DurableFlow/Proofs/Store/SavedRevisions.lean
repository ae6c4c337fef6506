import Mathlib.Data.List.Nodup
import DurableFlow.Proofs.Store.ListedFlows

/-! Saved revisions. The numbers of a list in memory, the renumbered rows of a table and the places in
a list on a server hold the same history of a flow, and every save extends it in the same way. -/
namespace DurableFlow.Store
open DurableFlow.Action (Ensures)
open DurableFlow.Flow (Definition Publishing Revision)

def facts (r : Revision) : Int × Int × Json × Publishing := (r.flow, r.number, r.document, r.status)

/-- Revisions of a flow hold a history, newest first, and are numbered by their age. -/
def ByAge (n : Int) (history : List (Json × Publishing)) (revisions : List Revision) : Prop :=
  revisions.map facts = history.mapIdx fun age issue => (n, (age : Int), issue)

def RevisionRow.revision (x : RevisionRow) : Revision := x.snapshot.revision x.flow x.number

def Rows.lastFirst (n : Int) (rows : List RevisionRow) : List Revision :=
  (rows.filter (·.flow = n)).reverse.map RevisionRow.revision

def Issued (n : Int) (history : List (Json × Publishing)) : Store → Prop
  | .memory m => ByAge n history (m.revisionsOf n)
  | .rows r => ByAge n history (Rows.lastFirst n r.revisions)
  | .keys k => ∃ items, k.server.snapshots (k.revisionsKey n) = .ok items ∧
      items.map (fun x => (x.document, x.status)) = history

/-- The numbers of a server's flows stand in ascending order, each with itself as its score. -/
def NumbersAscend : Store → Prop
  | .keys k => ∀ set, k.server.numbers (k.key ["flows"]) = .ok set →
      (set.Pairwise fun a b => a.1 < b.1) ∧ ∀ x ∈ set, x.2 = x.1
  | .memory _ | .rows _ => True

variable {s t : Store} {documents : List Json} {n : Int} {history : List (Json × Publishing)}
  {revisions : List Revision}

/-! ## Numbers and ages -/

private theorem ByAge.renumbered (h : ByAge n history revisions) {live : Revision}
    {issue : Json × Publishing} (hl : facts live = (n, 0, issue)) :
    ByAge n (issue :: history) (live :: revisions.map fun r => { r with number := r.number + 1 }) := by
  have holder : (revisions.map fun r => { r with number := r.number + 1 }).map facts =
      (revisions.map facts).map fun x => (x.1, x.2.1 + 1, x.2.2) := by
    simp only [List.map_map]
    rfl
  rw [ByAge, List.map_cons, holder, h, hl, List.mapIdx_cons]
  refine congrArg _ (List.ext_getElem (by simp) fun i hi _ => ?_)
  simp

theorem ByAge.number_eq (h : ByAge n history revisions) {i : Nat} (hi : i < revisions.length) :
    revisions[i].number = i := by
  have hlength : revisions.length = history.length := by simpa using congrArg List.length h
  have hfacts : facts revisions[i] = (n, (i : Int), history[i]) := by
    have hget : (revisions.map facts)[i]? = some (n, (i : Int), history[i]) := by
      rw [h]
      simp [hlength ▸ hi]
    simpa [hi] using hget
  exact congrArg (fun x => x.2.1) hfacts

theorem ByAge.number_lt (h : ByAge n history revisions) :
    revisions.Pairwise fun a b => a.number < b.number := by
  rw [List.pairwise_iff_getElem]
  intro i j hi hj hij
  rw [h.number_eq hi, h.number_eq hj]
  omega

private theorem rows_revisionsAt {r : Rows} (h : (Store.rows r).Issued n history) :
    ByAge n history (r.revisionsOf n) := by
  change ByAge n history (Rows.lastFirst n r.revisions) at h
  rw [Rows.revisionsOf]
  unfold Rows.lastFirst at h
  generalize r.revisions.filter (·.flow = n) = rows at h ⊢
  have hlt : rows.reverse.Pairwise fun a b => a.number < b.number := by
    have hmapped := h.number_lt
    rw [List.pairwise_map] at hmapped
    exact hmapped
  have hinj : ∀ a ∈ rows.reverse, ∀ b ∈ rows.reverse, a.number = b.number → a = b := by
    have hnodup : (rows.reverse.map RevisionRow.number).Nodup :=
      List.pairwise_map.mpr (hlt.imp fun hab => Int.ne_of_lt hab)
    exact fun a ha b hb hab => List.inj_on_of_nodup_map hnodup ha hb hab
  have hperm := (List.mergeSort_perm rows fun a b => decide (a.number ≤ b.number)).trans
    (List.reverse_perm rows).symm
  have hsorted : rows.mergeSort (fun a b => decide (a.number ≤ b.number)) = rows.reverse := by
    refine hperm.eq_of_pairwise ?_ (List.pairwise_mergeSort ?_ ?_ rows)
      (hlt.imp fun hab => decide_eq_true (Int.le_of_lt hab))
    · intro a b ha hb hab hba
      refine hinj a (hperm.mem_iff.mp ha) b hb ?_
      exact Int.le_antisymm (of_decide_eq_true hab) (of_decide_eq_true hba)
    · intro a b c hab hbc
      exact decide_eq_true (Int.le_trans (of_decide_eq_true hab) (of_decide_eq_true hbc))
    · intro a b
      simpa using Int.le_total a.number b.number
  rw [hsorted]
  exact h

/-- A store that keeps a history under a flow reads it by age. -/
theorem Issued.revisionsAt (h : s.Issued n history) : ByAge n history (s.revisionsAt n) := by
  cases s with
  | memory m => exact h
  | rows r => exact rows_revisionsAt h
  | keys k =>
    obtain ⟨items, hitems, rfl⟩ := h
    rw [Store.revisionsAt, hitems]
    refine List.ext_getElem (by simp) fun i _ _ => ?_
    simp [facts, Snapshot.revision]

/-! ## Saved flows -/

/-- A flow has been placed under a number, and every history is as before. -/
structure Placed (s : Store) (n : Int) (t : Store) : Prop where
  flows : ∀ m, m ∈ t.flowIds ↔ m = n ∨ m ∈ s.flowIds
  issued : ∀ m history, s.Issued m history → t.Issued m history
  ascend : n.natAbs < 2 ^ 53 → s.NumbersAscend → t.NumbersAscend

structure Unplaced (s t : Store) : Prop where
  flows : t.flowIds = s.flowIds
  issued : ∀ m history, s.Issued m history → t.Issued m history
  ascend : s.NumbersAscend → t.NumbersAscend

private theorem Unplaced.refl : Unplaced s s := ⟨rfl, fun _ _ h => h, fun h => h⟩

private theorem Unplaced.placed {u : Store} (h : Unplaced s t) (h' : Placed t n u) : Placed s n u :=
  ⟨fun m => by rw [h'.flows, h.flows], fun m history hm => h'.issued m history (h.issued m history hm),
    fun hn hs => h'.ascend hn (h.ascend hs)⟩

private theorem memory_places {m m' : Memory} {d d' : Definition}
    (ho : m.saveFlow d = .ok (d', m')) :
    ∃ n, d'.id = some n ∧ Placed (.memory m) n (.memory m') := by
  unfold Memory.saveFlow at ho
  split at ho
  · cases ho
  cases ho
  refine ⟨_, rfl, fun k => Table.mem_keys_put, ?_, fun _ _ => trivial⟩
  intro k history hk
  have hsame (i : Int) : (Table.find? k (if (Table.find? i m.revisions).isSome then m.revisions
      else Table.put i [] m.revisions)).getD [] = m.revisionsOf k := by
    split
    · rfl
    · rename_i hnone
      rw [Table.find?_put, Memory.revisionsOf]
      split
      · rename_i hkey
        rw [← hkey, Option.not_isSome_iff_eq_none.mp hnone]
        rfl
      · rfl
  change ByAge k history (Memory.revisionsOf _ k)
  rw [Memory.revisionsOf, hsame]
  exact hk

private theorem rows_places {r r' : Rows} {d d' : Definition}
    (ho : r.saveFlow d = .ok (d', r')) : ∃ n, d'.id = some n ∧ Placed (.rows r) n (.rows r') := by
  obtain ⟨n, row, -, rfl, hrow, -, -, -, rfl⟩ := Rows.saveFlow_eq_ok ho
  obtain ⟨rfl, -⟩ := Rows.definition_flowRow hrow
  refine ⟨row.id, rfl, ?_, fun _ _ hm => hm, fun _ _ => trivial⟩
  intro m
  simp only [flowIds, Rows.map_id_byId, Rows.byId_putFlow]
  exact Table.mem_keys_put

private theorem ascend_insert {set : List (Int × Int)} (hlt : set.Pairwise fun a b => a.1 < b.1)
    (hself : ∀ x ∈ set, x.2 = x.1) (hne : ∀ x ∈ set, x.1 ≠ n) :
    (Scored.insert toString (n, n) set).Pairwise fun a b => a.1 < b.1 := by
  induction set with
  | nil => exact List.pairwise_singleton _ _
  | cons x rest ih =>
    obtain ⟨hx, hrest⟩ := List.pairwise_cons.mp hlt
    obtain ⟨hxself, hrestself⟩ := List.forall_mem_cons.mp hself
    obtain ⟨hxne, hrestne⟩ := List.forall_mem_cons.mp hne
    have hbefore : Scored.isBefore toString (n, n) x = true ↔ n < x.1 := by
      simp only [Scored.isBefore, hxself, Ne.symm hxne, decide_false, Bool.false_and, Bool.or_false,
        decide_eq_true_eq]
    unfold Scored.insert
    split
    · rename_i hb
      have hnx := hbefore.mp hb
      refine List.pairwise_cons.mpr ⟨?_, hlt⟩
      rintro y (_ | ⟨_, hy⟩)
      · exact hnx
      · exact Int.lt_trans hnx (hx y hy)
    · rename_i hb
      have hxn : x.1 < n := by
        have hle : ¬ n < x.1 := fun hnx => hb (hbefore.mpr hnx)
        omega
      refine List.pairwise_cons.mpr ⟨?_, ih hrest hrestself hrestne⟩
      intro y hy
      rcases (Scored.mem_insert _ _ y rest).mp hy with rfl | hy
      · exact hxn
      · exact hx y hy

private theorem ascend_add (hn : n.natAbs < 2 ^ 53) {set : List (Int × Int)}
    (h : (set.Pairwise fun a b => a.1 < b.1) ∧ ∀ x ∈ set, x.2 = x.1) :
    ((Scored.add toString n n set).Pairwise fun a b => a.1 < b.1) ∧
      ∀ x ∈ Scored.add toString n n set, x.2 = x.1 := by
  have hscore : Scored.scoreOf n = n := if_pos (Nat.le_of_lt hn)
  have hkept (x : Int × Int) (hx : x ∈ Scored.remove n set) : x ∈ set ∧ x.1 ≠ n := by
    simpa [Scored.remove] using hx
  rw [Scored.add, hscore]
  constructor
  · refine ascend_insert (h.1.sublist List.filter_sublist) ?_ fun x hx => (hkept x hx).2
    exact fun x hx => h.2 x (hkept x hx).1
  · intro x hx
    rcases (Scored.mem_insert _ _ x _).mp hx with rfl | hx
    · rfl
    · exact h.2 x (hkept x hx).1

private theorem server_places {k : Keys} (h : (Store.keys k).Listed documents) {d : Definition}
    {previous : Option FlowRow} {server : Server} (hf : k.fileFlow n d previous = .ok server) :
    Placed (.keys k) n (.keys { k with server }) := by
  obtain ⟨-, -, ⟨set, hset, -, -⟩, -⟩ := h
  obtain ⟨row, hfiles⟩ := Keys.fileFlow_files hf
  have hset' : server.numbers (({ k with server } : Keys).key ["flows"]) =
      .ok (Scored.add toString n n set) := hfiles.numbers set hset
  constructor
  · intro m
    simp only [flowIds, hset, hset']
    exact Scored.mem_names_add
  · rintro m history ⟨items, hitems, hhistory⟩
    refine ⟨items, ?_, hhistory⟩
    have hkey : ({ k with server } : Keys).revisionsKey m = k.revisionsKey m := rfl
    rw [← hitems]
    simp only [Server.snapshots, hkey, hfiles.revisions]
  · intro hn hascend new hnew
    cases hset'.symm.trans hnew
    exact ascend_add hn (hascend set hset)

private theorem counted_unplaced (k : Keys) (count : Int) :
    Unplaced (.keys k) (.keys (k.counted count)) := by
  have hkey : (k.counted count).key ["flows"] = k.key ["flows"] := rfl
  have hnumbers := k.numbers_counted count
  constructor
  · simp only [flowIds, hkey, hnumbers]
  · rintro m history ⟨items, hitems, hhistory⟩
    exact ⟨items, (k.snapshots_counted count m).trans hitems, hhistory⟩
  · intro hascend set hset
    exact hascend set (hnumbers.symm.trans hset)

private theorem saveFlow_places {k : Keys} (h : (Store.keys k).Listed documents) (d : Definition) :
    Ensures Keys.saveFlow ⟨k, d⟩
      (fun _ g => ∃ n, g.held.id = some n ∧ Placed (.keys k) n (.keys g.state))
      (fun _ g => Unplaced (.keys k) (.keys g.state)) := by
  have hchecked {α : Type} {r : Except Failure α} :
      Ensures (Action.ofExcept r) (⟨k, d⟩ : Holding Keys Definition)
        (fun a g => g = ⟨k, d⟩ ∧ r = .ok a) (fun _ g => Unplaced (.keys k) (.keys g.state)) :=
    Ensures.ofExcept (fun _ ha => ⟨rfl, ha⟩) (fun _ _ => .refl)
  unfold Keys.saveFlow
  apply Ensures.bind
  apply Ensures.get
  apply Ensures.bind
  apply Ensures.held
  apply Ensures.bind
  refine hchecked.mono ?_ (fun _ _ hf => hf)
  rintro _ _ ⟨rfl, -⟩
  apply Ensures.bind
  refine hchecked.mono ?_ (fun _ _ hf => hf)
  rintro _ _ ⟨rfl, -⟩
  apply Ensures.bind
  refine hchecked.mono ?_ (fun _ _ hf => hf)
  rintro _ _ ⟨rfl, -⟩
  split
  · rename_i n hid
    apply Ensures.bind
    refine hchecked.mono ?_ (fun _ _ hf => hf)
    rintro previous _ ⟨rfl, -⟩
    apply Ensures.bind
    refine hchecked.mono ?_ (fun _ _ hf => hf)
    rintro server _ ⟨rfl, hserver⟩
    exact Ensures.modify ⟨n, hid, server_places h hserver⟩
  · apply Ensures.bind
    refine hchecked.mono ?_ (fun _ _ hf => hf)
    rintro count _ ⟨rfl, -⟩
    have hcounted := counted_unplaced k (count + 1)
    have hlisted : (Store.keys (k.counted (count + 1))).Listed documents :=
      h.counted (count + 1)
    apply Ensures.bind
    apply Ensures.set
    apply Ensures.bind
    apply Ensures.ofExcept
    · intro server hserver
      exact Ensures.modify ⟨count + 1, rfl, hcounted.placed (server_places hlisted hserver)⟩
    · intro f _
      exact hcounted

/-- The outcome of a save: a flow is placed under its number, or none is. -/
theorem saving_places (h : s.Listed documents) (d : Definition) :
    (∃ d' n t, s.saving d = (.ok d', t) ∧ d'.id = some n ∧ t.Listed documents ∧ Placed s n t) ∨
      ∃ f t, s.saving d = (.error f, t) ∧ t.Listed documents ∧ Unplaced s t := by
  have hlisted := h.saveFlow d
  have hplaces : Ensures Store.saveFlow ⟨s, d⟩
      (fun _ g => ∃ n, g.held.id = some n ∧ Placed s n g.state) (fun _ g => Unplaced s g.state) := by
    unfold Store.saveFlow
    apply Ensures.bind
    apply Ensures.held
    apply Ensures.bind
    apply Ensures.get
    cases s with
    | memory m =>
      dsimp only
      unfold Ensures Store.keepHeld Store.wrapped
      cases ho : m.saveFlow d with
      | ok saved => exact memory_places ho
      | error f => exact .refl
    | rows r =>
      dsimp only
      unfold Ensures Store.keepHeld Store.wrapped
      cases ho : r.saveFlow d with
      | ok saved => exact rows_places ho
      | error f => exact .refl
    | keys k =>
      have hsave := saveFlow_places h d
      dsimp only
      unfold Ensures Store.within
      cases ho : Keys.saveFlow ⟨k, d⟩ with
      | ok _ g => exact hsave.of_eq_ok ho
      | error f g => exact hsave.of_eq_error ho
  unfold saving
  cases ho : Store.saveFlow ⟨s, d⟩ with
  | ok _ g =>
    obtain ⟨n, hid, hplaced⟩ := hplaces.of_eq_ok ho
    exact .inl ⟨_, n, _, rfl, hid, hlisted.of_eq_ok ho, hplaced⟩
  | error f g => exact .inr ⟨f, _, rfl, hlisted.of_eq_error ho, hplaces.of_eq_error ho⟩

/-! ## Saved revisions -/

/-- The history of one flow has got a new beginning, and nothing else has changed. -/
structure Added (s : Store) (n : Int) (issue : Json × Publishing) (t : Store) : Prop where
  flows : t.flowIds = s.flowIds
  first : ∀ history, s.Issued n history → t.Issued n (issue :: history)
  others : ∀ m, m ≠ n → ∀ history, s.Issued m history → t.Issued m history
  ascend : s.NumbersAscend → t.NumbersAscend

section Revisions
variable {time : Moment} {trigger : Option String} {document : Json} {status : Publishing}
  {revision : Revision}

private theorem memory_adds {m m' : Memory}
    (h : m.saveRevision time n document status = .ok (revision, m')) :
    Added (.memory m) n (document, status) (.memory m') := by
  unfold Memory.saveRevision at h
  split at h
  · cases h
  cases h
  refine ⟨rfl, ?_, ?_, fun _ => trivial⟩
  · intro history hn
    change ByAge n _ (Memory.revisionsOf _ n)
    rw [Memory.revisionsOf, Table.find?_put, if_pos rfl, Option.getD_some]
    exact ByAge.renumbered hn rfl
  · intro k hk history hkept
    change ByAge k _ (Memory.revisionsOf _ k)
    rw [Memory.revisionsOf, Table.find?_put, if_neg (Ne.symm hk)]
    exact hkept

private theorem lastFirst_renumbered (n m : Int) (rows : List RevisionRow) :
    Rows.lastFirst m (rows.map fun x => if x.flow = n then { x with number := x.number + 1 } else x) =
      if m = n then (Rows.lastFirst m rows).map fun r => { r with number := r.number + 1 }
      else Rows.lastFirst m rows := by
  have hfilter : (rows.map fun x => if x.flow = n then { x with number := x.number + 1 } else x).filter
      (fun x => x.flow = m) = (rows.filter fun x => x.flow = m).map fun x =>
        if m = n then { x with number := x.number + 1 } else x := by
    induction rows with
    | nil => rfl
    | cons x rest ih =>
      rw [List.map_cons, List.filter_cons, List.filter_cons, ih]
      by_cases hm : x.flow = m
      · split <;> simp_all
      · split <;> simp_all
  rw [Rows.lastFirst, hfilter, Rows.lastFirst]
  split
  · rw [← List.map_reverse, List.map_map, List.map_map]
    rfl
  · rw [List.map_id']

private theorem rows_adds {r r' : Rows}
    (h : r.saveRevision time trigger n document status = .ok (revision, r')) :
    Added (.rows r) n (document, status) (.rows r') := by
  simp only [Rows.saveRevision, bind_eq_ok] at h
  obtain ⟨_, -, _, -, h⟩ := h
  split at h
  · cases h
  split at h
  · cases h
  cases h
  have hlast (m : Int) (rows : List RevisionRow) (x : RevisionRow) :
      Rows.lastFirst m (rows ++ [x]) =
        if x.flow = m then x.revision :: Rows.lastFirst m rows else Rows.lastFirst m rows := by
    rw [Rows.lastFirst, List.filter_append]
    split <;> simp_all [Rows.lastFirst]
  refine ⟨rfl, ?_, ?_, fun _ => trivial⟩
  · intro history hn
    change ByAge n _ (Rows.lastFirst n (_ ++ [_]))
    rw [hlast, if_pos rfl, lastFirst_renumbered, if_pos rfl]
    exact ByAge.renumbered hn rfl
  · intro m hm history hkept
    change ByAge m _ (Rows.lastFirst m (_ ++ [_]))
    rw [hlast, if_neg (Ne.symm hm), lastFirst_renumbered, if_neg hm]
    exact hkept

private theorem server_adds {k k' : Keys}
    (h : k.saveRevision time n document status = .ok (revision, k')) :
    Added (.keys k) n (document, status) (.keys k') := by
  simp only [Keys.saveRevision, bind_eq_ok] at h
  obtain ⟨_, -, h⟩ := h
  split at h
  · cases h
  obtain ⟨older, holder, h⟩ := bind_eq_ok.mp h
  cases h
  have hflows : k.revisionsKey n ≠ k.key ["flows"] := k.revisionsKey_ne n (by decide)
  have hnumbers (e : Entry) : Server.numbers (k.key ["flows"]) (Table.put (k.revisionsKey n) e k.server) =
      k.server.numbers (k.key ["flows"]) := by
    rw [Server.numbers, Table.find?_put, if_neg hflows, Server.numbers]
  have hsnapshots (m : Int) (items : List Snapshot) :
      Server.snapshots (k.revisionsKey m) (Table.put (k.revisionsKey n) (.snapshots items) k.server) =
        if n = m then .ok items else k.server.snapshots (k.revisionsKey m) := by
    rw [Server.snapshots, Table.find?_put]
    by_cases hm : n = m
    · simp [hm]
    · rw [if_neg fun he => hm (k.revisionsKey_inj he), if_neg hm, Server.snapshots]
  refine ⟨?_, ?_, ?_, ?_⟩
  · have hkey (server : Server) : ({ k with server } : Keys).key ["flows"] = k.key ["flows"] := rfl
    simp only [flowIds, hkey, hnumbers]
  · rintro history ⟨items, hitems, rfl⟩
    cases hitems.symm.trans holder
    exact ⟨_, (hsnapshots n _).trans (if_pos rfl), rfl⟩
  · rintro m hm history ⟨items, hitems, hhistory⟩
    exact ⟨items, (hsnapshots m _).trans ((if_neg (Ne.symm hm)).trans hitems), hhistory⟩
  · intro hascend set hset
    exact hascend set ((hnumbers _).symm.trans hset)

/-- A revision that is saved begins the history of its flow. -/
theorem saveRevision_adds (h : s.saveRevision time trigger n document status = .ok (revision, t)) :
    Added s n (document, status) t := by
  cases s with
  | memory m =>
    obtain ⟨m', ho, rfl⟩ := wrapped_eq_ok.mp h
    exact memory_adds ho
  | rows r =>
    obtain ⟨r', ho, rfl⟩ := wrapped_eq_ok.mp h
    exact rows_adds ho
  | keys k =>
    obtain ⟨k', ho, rfl⟩ := wrapped_eq_ok.mp h
    exact server_adds ho

end Revisions

end DurableFlow.Store
