import DurableFlow.Proofs.Store.RevisionReads

/-! Revisions by age. What every kind of store gives of its flows and their revisions is the log of the
saves that have succeeded, read from the newest save back. -/
namespace DurableFlow.Store
open DurableFlow.Flow (Definition Publishing Revision)

/-- A call that saves a flow, or a document as the live revision of one. -/
inductive Save where
  | flow (d : Definition)
  | revision (time : Moment) (trigger : Option String) (flow : Int)
      (document : List (String × Json)) (status : Publishing)

inductive Saved where
  | flow (id : Option Int)
  | revision (flow : Int) (document : Json) (status : Publishing)
  deriving DecidableEq

def Save.perform (s : Store) : Save → Except Failure Saved × Store
  | .flow d => ((s.saving d).1.map fun saved => Saved.flow saved.id, (s.saving d).2)
  | .revision time trigger n document status =>
    match s.saveRevision time trigger n (.object document) status with
    | .ok (_, t) => (.ok (.revision n (.object document) status), t)
    | .error f => (.error f, s)

structure Logged where
  store : Store
  log : List Saved

def Logged.step (r : Logged) (save : Save) : Logged :=
  match save.perform r.store with
  | (.ok saved, t) => ⟨t, saved :: r.log⟩
  | (.error _, t) => ⟨t, r.log⟩

def Logged.run (s : Store) (saves : List Save) : Logged := saves.foldl Logged.step ⟨s, []⟩

def Saved.under? (n : Int) : Saved → Option (Json × Publishing)
  | .revision m document status => if m = n then some (document, status) else none
  | .flow _ => none

def issues (n : Int) (log : List Saved) : List (Json × Publishing) := log.filterMap (Saved.under? n)

variable {s : Store} {documents : List Json} {n : Int}

/-! ## Runs -/

private structure Recorded (documents : List Json) (r : Logged) : Prop where
  listed : r.store.Listed documents
  flows : ∀ n, n ∈ r.store.flowIds ↔ .flow (some n) ∈ r.log
  issued : ∀ n, r.store.Issued n (issues n r.log)
  known : ∀ n, issues n r.log ≠ [] → n ∈ r.store.flowIds
  ascend : (∀ n, .flow (some n) ∈ r.log → n.natAbs < 2 ^ 53) → r.store.NumbersAscend

private def Save.document? : Save → Option Json
  | .flow _ => none
  | .revision _ _ _ document _ => some (.object document)

private theorem issues_revision (m : Int) (document : Json) (status : Publishing) (log : List Saved) :
    issues n (.revision m document status :: log) =
      if m = n then (document, status) :: issues n log else issues n log := by
  by_cases hm : m = n
  · simp [issues, Saved.under?, hm]
  · simp [issues, Saved.under?, hm]

private theorem Recorded.flow {r : Logged} (h : Recorded documents r) (d : Definition) :
    Recorded documents (r.step (.flow d)) := by
  obtain ⟨d', n, t, hs, hid, hlisted, hplaced⟩ | ⟨f, t, hs, hlisted, hsame⟩ := saving_places h.listed d
  · have hstep : r.step (.flow d) = ⟨t, .flow (some n) :: r.log⟩ := by
      simp only [Logged.step, Save.perform, hs, Except.map, hid]
    rw [hstep]
    refine ⟨hlisted, ?_, ?_, ?_, ?_⟩
    · intro m
      simp only [hplaced.flows, h.flows, List.mem_cons, Saved.flow.injEq, Option.some.injEq]
    · exact fun m => hplaced.issued m _ (h.issued m)
    · exact fun m hm => (hplaced.flows m).mpr (.inr (h.known m hm))
    · intro hsmall
      exact hplaced.ascend (hsmall n (.head _)) (h.ascend fun m hm => hsmall m (.tail _ hm))
  · have hstep : r.step (.flow d) = ⟨t, r.log⟩ := by
      simp only [Logged.step, Save.perform, hs, Except.map]
    rw [hstep]
    refine ⟨hlisted, ?_, fun m => hsame.issued m _ (h.issued m), ?_, fun hsmall => hsame.ascend (h.ascend hsmall)⟩
    · intro m
      rw [hsame.flows]
      exact h.flows m
    · intro m hm
      rw [hsame.flows]
      exact h.known m hm

private theorem Recorded.revision {r : Logged} (h : Recorded documents r) {time : Moment}
    {trigger : Option String} {document : List (String × Json)} {status : Publishing}
    (hd : .object document ∈ documents) :
    Recorded documents (r.step (.revision time trigger n document status)) := by
  cases ho : r.store.saveRevision time trigger n (.object document) status with
  | error f =>
    have hstep : r.step (.revision time trigger n document status) = r := by
      simp only [Logged.step, Save.perform, ho]
    rw [hstep]
    exact h
  | ok saved =>
    obtain ⟨revision, t⟩ := saved
    have hstep : r.step (.revision time trigger n document status) =
        ⟨t, .revision n (.object document) status :: r.log⟩ := by
      simp only [Logged.step, Save.perform, ho]
    have hadds := saveRevision_adds ho
    have hknown : n ∈ r.store.flowIds := by
      by_contra hunknown
      rw [saveRevision_unknown h.listed hunknown] at ho
      obtain ⟨_, -, hrefused⟩ := bind_eq_ok.mp ho
      cases hrefused
    rw [hstep]
    refine ⟨h.listed.saveRevision hd ho, ?_, ?_, ?_, ?_⟩
    · intro m
      rw [hadds.flows]
      simp only [h.flows, List.mem_cons, reduceCtorEq, false_or]
    · intro m
      rw [issues_revision]
      split
      · rename_i hm
        exact hm ▸ hadds.first _ (h.issued n)
      · rename_i hm
        exact hadds.others m (Ne.symm hm) _ (h.issued m)
    · intro m hm
      rw [issues_revision] at hm
      rw [hadds.flows]
      split at hm
      · rename_i hmn
        exact hmn ▸ hknown
      · exact h.known m hm
    · intro hsmall
      exact hadds.ascend (h.ascend fun m hm => hsmall m (.tail _ hm))

private theorem Recorded.run {r : Logged} {saves : List Save} (h : Recorded documents r)
    (hd : ∀ save ∈ saves, ∀ document, save.document? = some document → document ∈ documents) :
    Recorded documents (saves.foldl Logged.step r) := by
  induction saves generalizing r with
  | nil => exact h
  | cons save rest ih =>
    obtain ⟨hsave, hrest⟩ := List.forall_mem_cons.mp hd
    refine ih ?_ hrest
    cases save with
    | flow d => exact h.flow d
    | revision time trigger n document status => exact h.revision (hsave _ rfl)

private theorem Opened.recorded (h : s.Opened) : Recorded documents ⟨s, []⟩ := by
  have hempty : s.flowIds = [] ∧ (∀ n, s.Issued n []) ∧ s.NumbersAscend := by
    cases s with
    | memory m =>
      cases h
      exact ⟨rfl, fun _ => rfl, trivial⟩
    | rows r =>
      have hflows : r.flows = [] := congrArg Rows.flows h
      have hrevisions : r.revisions = [] := congrArg Rows.revisions h
      refine ⟨congrArg (List.map FlowRow.id) hflows, fun n => ?_, trivial⟩
      change ByAge n [] (Rows.lastFirst n r.revisions)
      rw [hrevisions]
      rfl
    | keys k =>
      obtain ⟨-, hserver⟩ := h
      have hfind (key : String) : Table.find? key k.server = none := by
        rw [hserver]
        rfl
      have hnumbers : k.server.numbers (k.key ["flows"]) = .ok [] := by rw [Server.numbers, hfind]
      refine ⟨by rw [flowIds, hnumbers]; rfl, fun n => ⟨[], by rw [Server.snapshots, hfind], rfl⟩, ?_⟩
      intro set hset
      cases hnumbers.symm.trans hset
      exact ⟨List.Pairwise.nil, fun x hx => by cases hx⟩
  obtain ⟨hids, hissued, hascend⟩ := hempty
  exact ⟨h.listed documents, fun n => by simp [hids], hissued, fun n hn => absurd rfl hn, fun _ => hascend⟩

/-- The rows of a list of flows: all that have revisions, once each and by number, with the newest
documents. -/
structure ListsNewest (s : Store) (log : List Saved) (rows : List (Definition × Json)) : Prop where
  numbers : ∃ ids : List Int, rows.map (fun row => row.1.id) = ids.map some ∧ ids.Pairwise (· < ·) ∧
    ∀ n, n ∈ ids ↔ issues n log ≠ []
  newest : ∀ row ∈ rows, ∀ n, row.1.id = some n → (issues n log).head?.map Prod.fst = some row.2
  found : ∀ row ∈ rows, ∀ n : Int, row.1.id = some n →
    ∃ d, s.getFlow n = .ok (some d) ∧ { row.1 with revisions := d.revisions } = d

section Rows
variable {read : Int → Option (Definition × Json)} (hread : ∀ n row, read n = some row → row.1.id = some n)
include hread

private theorem ids_filterMap (ids : List Int) : (ids.filterMap read).map (fun row => row.1.id) =
    (ids.filter fun n => (read n).isSome).map some := by
  induction ids with
  | nil => rfl
  | cons n rest ih =>
    rw [List.filterMap_cons, List.filter_cons]
    cases hn : read n with
    | none => simpa using ih
    | some row => simpa [hread n row hn] using ih

private theorem filter_filterMap (ids : List Int) (n : Int) :
    (ids.filterMap read).filter (fun row => row.1.id = some n) =
      (ids.filter fun m => n = m).filterMap read := by
  induction ids with
  | nil => rfl
  | cons m rest ih =>
    rw [List.filterMap_cons, List.filter_cons]
    cases hm : read m with
    | none =>
      dsimp only
      rw [ih]
      by_cases hnm : n = m
      · simp [hnm, hm]
      · simp [hnm]
    | some row =>
      dsimp only
      rw [List.filter_cons, hread m row hm, ih]
      by_cases hnm : n = m
      · simp [hnm, hm]
      · simp [hnm, Ne.symm hnm]

end Rows

private theorem Recorded.lists {r : Logged} (h : Recorded documents r)
    (hsmall : ∀ n, .flow (some n) ∈ r.log → n.natAbs < 2 ^ 53) :
    ∃ rows, r.store.activeFlows none = .ok rows ∧ ListsNewest r.store r.log rows ∧
      ∀ n : Int, n.natAbs < 2 ^ 53 →
        r.store.activeFlows (some n) = .ok (rows.filter fun row => row.1.id = some n) := by
  obtain ⟨ids, hascend, hids, hactive⟩ := active_eq h.listed (h.ascend hsmall)
  have hread (n : Int) (row : Definition × Json) (hrow : r.store.listing n = some row) :
      row.1.id = some n := (listing_eq_some h.listed hrow).1
  have hlive (n : Int) (hn : n ∈ ids) := liveRevision_of_issued h.listed
    (hsmall n ((h.flows n).mp ((hids n).mp hn))) (h.issued n)
  have hall : ids.filter (fun n => (none : Option Int).all (· = n)) = ids :=
    List.filter_eq_self.mpr fun _ _ => rfl
  refine ⟨ids.filterMap r.store.listing, ?_, ⟨?_, ?_, ?_⟩, ?_⟩
  · rw [hactive none (fun n hn => by cases hn), hall]
  · refine ⟨_, ids_filterMap hread ids, hascend.filter _, ?_⟩
    intro n
    rw [List.mem_filter]
    have hsome (hn : n ∈ ids) : (r.store.listing n).isSome = true ↔ issues n r.log ≠ [] := by
      obtain ⟨d, hd⟩ := Option.isSome_iff_exists.mp (h.listed.mem_flowIds.mp ((hids n).mp hn))
      obtain ⟨live, hread, hfacts⟩ := hlive n hn
      rw [isSome_listing hd hread, ← Option.isSome_map (f := facts), hfacts]
      cases issues n r.log <;> simp
    constructor
    · rintro ⟨hn, hlisted⟩
      exact (hsome hn).mp hlisted
    · intro hissued
      have hn := (hids n).mpr (h.known n hissued)
      exact ⟨hn, (hsome hn).mpr hissued⟩
  · intro row hrow n hid
    obtain ⟨m, hm, hlisting⟩ := List.mem_filterMap.mp hrow
    obtain ⟨hid', -, live, hlive', hdocument⟩ := listing_eq_some h.listed hlisting
    cases hid.symm.trans hid'
    obtain ⟨_, hread, hfacts⟩ := hlive n hm
    cases hlive'.symm.trans hread
    obtain ⟨issue, hissue, heq⟩ := Option.map_eq_some_iff.mp hfacts.symm
    rw [hissue, ← hdocument]
    exact congrArg (fun x => some x.2.2.1) heq
  · intro row hrow n hid
    obtain ⟨m, hm, hlisting⟩ := List.mem_filterMap.mp hrow
    obtain ⟨hid', ⟨e, he, hsame⟩, -⟩ := listing_eq_some h.listed hlisting
    cases hid.symm.trans hid'
    refine ⟨{ e with revisions := r.store.revisionsAt n }, ?_, hsame⟩
    rw [h.listed.getFlow_small (hsmall n ((h.flows n).mp ((hids n).mp hm))), he]
    rfl
  · intro n hn
    have hone := hactive (some n) fun m hm => Option.some.inj hm ▸ hn
    rw [hone, filter_filterMap hread]
    rfl

/-- The numbers of revisions count their age. After every run of saves of flows and of documents over a
store of any kind that has just been opened, with flow numbers below 2 ^ 53 in size:
the revisions of a flow, read by any of its names, are the documents and statuses that have been
saved under its number, newest first, numbered from zero on;
the live revision is the newest of them, and there is none if nothing has been saved;
the list of flows has those with a revision, once each and by number, with the newest documents, and
a list of one flow is the part of it that is about this flow;
and a document is refused under a number that no flow has, which changes nothing, and is taken under
any other unless a trigger refuses it. -/
theorem revisions_count_age (hs : s.Opened) {saves : List Save}
    (hsmall : ∀ n, .flow (some n) ∈ (Logged.run s saves).log → n.natAbs < 2 ^ 53) :
    let t := (Logged.run s saves).store
    let log := (Logged.run s saves).log
    (∀ n : Int, n.natAbs < 2 ^ 53 → ∃ found, t.getFlow n = .ok found ∧
      (found.isSome ↔ .flow (some n) ∈ log) ∧ ∀ d, found = some d → ByAge n (issues n log) d.revisions) ∧
    (∀ name d, t.getFlow name = .ok (some d) → ∃ n : Int, d.id = some n ∧ t.getFlow n = .ok (some d)) ∧
    (∀ n : Int, n.natAbs < 2 ^ 53 → ∃ live, t.liveRevision n = .ok live ∧
      live.map facts = (issues n log).head?.map fun issue => (n, 0, issue)) ∧
    (∃ rows, t.activeFlows none = .ok rows ∧ ListsNewest t log rows ∧ ∀ n : Int, n.natAbs < 2 ^ 53 →
      t.activeFlows (some n) = .ok (rows.filter fun row => row.1.id = some n)) ∧
    (∀ n : Int, n.natAbs < 2 ^ 53 → .flow (some n) ∉ log → issues n log = [] ∧
      ∀ time trigger document status, (Save.revision time trigger n document status).perform t =
        (.error (.storage (.flowMissing n)), t)) ∧
    ∀ n : Int, .flow (some n) ∈ log → ∀ time document status,
      ((Save.revision time none n document status).perform t).1 =
        .ok (.revision n (.object document) status) := by
  intro t log
  have h : Recorded (saves.filterMap Save.document?) ⟨t, log⟩ := hs.recorded.run fun save hsave document hd =>
    List.mem_filterMap.mpr ⟨save, hsave, hd⟩
  refine ⟨?_, ?_, ?_, h.lists hsmall, ?_, ?_⟩
  · intro n hn
    refine ⟨_, h.listed.getFlow_small hn, ?_, ?_⟩
    · rw [Option.isSome_map, ← h.listed.mem_flowIds]
      exact h.flows n
    · intro d hd
      obtain ⟨e, -, rfl⟩ := Option.map_eq_some_iff.mp hd
      exact (h.issued n).revisionsAt
  · exact fun name d hd => h.listed.getFlow_number hd
  · exact fun n hn => liveRevision_of_issued h.listed hn (h.issued n)
  · intro n hn hunknown
    have hmissing : n ∉ t.flowIds := fun hmem => hunknown ((h.flows n).mp hmem)
    refine ⟨Classical.not_not.mp fun hissued => hmissing (h.known n hissued), ?_⟩
    intro time trigger document status
    rw [Save.perform, saveRevision_unknown h.listed hmissing, checkNumber_small t hn]
    rfl
  · intro n hknown time document status
    obtain ⟨saved, hsaved⟩ := saveRevision_known h.listed ((h.flows n).mpr hknown)
    rw [Save.perform, hsaved]

/-- Two documents of one flow in tables, saved before and after that of another one. -/
theorem revisions_count_age_mixed :
    let s : Store := .rows (Rows.empty none).connect
    let d (u : String) (n : Option Int) : Definition :=
      ⟨some u, some u, some "", some "", .message, some "", n, []⟩
    let save (n : Int) (key : String) : Save := .revision (.utc 0) none n [(key, .null)] .draft
    let saves := [.flow (d "a" (some 7)), save 7 "old", .flow (d "b" none), save 8 "other", save 7 "new", save 9 "lost"]
    (s.Opened ∧ ∀ n, .flow (some n) ∈ (Logged.run s saves).log → n.natAbs < 2 ^ 53) ∧
      ∃ found, (Logged.run s saves).store.getFlow (7 : Int) = .ok found ∧ found.isSome ∧
        ∀ d, found = some d → d.revisions.map facts =
          [(7, 0, .object [("new", .null)], .draft), (7, 1, .object [("old", .null)], .draft)] := by
  intro s d save saves
  have hlog : (Logged.run s saves).log = [.revision 7 (.object [("new", .null)]) .draft,
      .revision 8 (.object [("other", .null)]) .draft, .flow (some 8),
      .revision 7 (.object [("old", .null)]) .draft, .flow (some 7)] := by decide +kernel
  have hsmall : ∀ n, .flow (some n) ∈ (Logged.run s saves).log → n.natAbs < 2 ^ 53 := by
    intro n hn
    rw [hlog] at hn
    simp only [List.mem_cons, reduceCtorEq, false_or, Saved.flow.injEq, Option.some.injEq,
      List.not_mem_nil, or_false] at hn
    rcases hn with rfl | rfl <;> decide
  obtain ⟨hflows, -⟩ := revisions_count_age (s := s) rfl hsmall
  obtain ⟨found, hfound, hsome, hage⟩ := hflows 7 (by decide)
  refine ⟨⟨rfl, hsmall⟩, found, hfound, hsome.mpr (by rw [hlog]; decide), ?_⟩
  intro d hd
  have hrevisions := hage d hd
  rw [hlog] at hrevisions
  exact hrevisions

end DurableFlow.Store
