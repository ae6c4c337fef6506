import DurableFlow.Proofs.Store.EnrolledFlows

/-! Flows on a server: rows under the keys of their numbers, and beside them two tables that lead from
a name to the number of its owner. Every save keeps the tables in step with the rows. -/
namespace DurableFlow.Store
open DurableFlow.Action (Ensures)
open DurableFlow.Flow (Definition)

namespace Keys
variable {k : Keys} {d : Definition} {n : Int} {row : FlowRow} {previous : Option FlowRow}
  {server : Server}

private theorem key_inj (k : Keys) {a b : String} : k.key [a] = k.key [b] ↔ a = b := by
  simp [key, String.intercalate_cons_cons]

private theorem flowKey_ne (k : Keys) (n : Int) {name : String}
    (hn : name.toList[4]? ≠ some ':') : k.flowKey n ≠ k.key [name] := by
  intro h
  have hname : "flow:" ++ toString n = name := by
    simpa [flowKey, key, String.intercalate_cons_cons, String.append_assoc] using h
  apply hn
  rw [← hname, String.toList_append]
  rfl

theorem revisionsKey_ne (k : Keys) (n : Int) {name : String}
    (hn : name.toList.head? ≠ some 'r') : k.revisionsKey n ≠ k.key [name] := by
  intro h
  have hinitial := congrArg k.initial h
  rw [initial_revisionsKey, initial_key] at hinitial
  apply hn
  simpa using hinitial.symm

theorem revisionsKey_ne_flowKey (k : Keys) (m n : Int) :
    k.revisionsKey m ≠ k.flowKey n := by
  intro h
  have hinitial := congrArg k.initial h
  rw [initial_revisionsKey, initial_flowKey] at hinitial
  cases hinitial

private theorem argument_eq_ok {v : Option String} {s : String} :
    argument v = .ok s ↔ v = some s := by
  cases v <;> simp [argument]

private def givenUp (name : FlowRow → String) (previous : Option FlowRow)
    (table : List (String × Int)) : List (String × Int) :=
  match previous with
  | some old => Table.erase (name old) table
  | none => table

/-- A server after a flow has been filed: its row, its names and its number. -/
structure Files (k : Keys) (d : Definition) (n : Int) (previous : Option FlowRow)
    (row : FlowRow) (server : Server) : Prop where
  id : row.id = n
  definition : row.definition = numbered d n
  flows : ∀ m, Table.find? (k.flowKey m) server =
    if m = n then some (.flow row) else Table.find? (k.flowKey m) k.server
  revisions : ∀ m, Table.find? (k.revisionsKey m) server =
    Table.find? (k.revisionsKey m) k.server
  byUuid : ∀ table, k.server.owners (k.key ["flow_by_uuid"]) = .ok table →
    server.owners (k.key ["flow_by_uuid"]) = .ok (Table.put row.uuid n (givenUp FlowRow.uuid previous table))
  byShortcode : ∀ table, k.server.owners (k.key ["flow_by_shortcode"]) = .ok table →
    server.owners (k.key ["flow_by_shortcode"]) =
      .ok (Table.put row.shortcode n (givenUp FlowRow.shortcode previous table))
  numbers : ∀ set, k.server.numbers (k.key ["flows"]) = .ok set →
    server.numbers (k.key ["flows"]) = .ok (Scored.add toString n n set)

theorem fileFlow_files (h : k.fileFlow n d previous = .ok server) :
    ∃ row, Files k d n previous row server := by
  simp only [fileFlow, bind_eq_ok, argument_eq_ok] at h
  obtain ⟨uuid, hu, shortcode, hs, name, hn, language, hl, format, hf, byUuid, hbyUuid, byShortcode,
    hbyShortcode, numbers, hnumbers, hserver⟩ := h
  cases hserver
  refine ⟨⟨n, uuid, shortcode, name, language, d.kind, format⟩, rfl, ?_, ?_, ?_, ?_, ?_, ?_⟩
  · simp only [FlowRow.definition, numbered, hu, hs, hn, hl, hf]
  · intro m
    have hfree (name : String) (hname : name.toList[4]? ≠ some ':') :
        ¬ k.key [name] = k.flowKey m := fun he => k.flowKey_ne m hname he.symm
    rw [Table.find?_put, if_neg (hfree _ (by decide)), Table.find?_put,
      if_neg (hfree _ (by decide)), Table.find?_put, if_neg (hfree _ (by decide)), Table.find?_put]
    by_cases hm : m = n
    · rw [if_pos (by rw [hm]), if_pos hm]
    · rw [if_neg fun he => hm (k.flowKey_inj he).symm, if_neg hm]
  · intro m
    have hfree (name : String) (hname : name.toList.head? ≠ some 'r') :
        ¬ k.key [name] = k.revisionsKey m := fun he => k.revisionsKey_ne m hname he.symm
    rw [Table.find?_put, if_neg (hfree _ (by decide)), Table.find?_put,
      if_neg (hfree _ (by decide)), Table.find?_put, if_neg (hfree _ (by decide)), Table.find?_put,
      if_neg fun he => k.revisionsKey_ne_flowKey m n he.symm]
  · intro table ht
    cases hbyUuid.symm.trans ht
    cases previous <;> simp [Server.owners, Table.find?_put, key_inj, givenUp]
  · intro table ht
    cases hbyShortcode.symm.trans ht
    cases previous <;> simp [Server.owners, Table.find?_put, key_inj, givenUp]
  · intro set hset
    cases hnumbers.symm.trans hset
    simp [Server.numbers, Table.find?_put]

private theorem bind_eq_error {α β : Type} {x : Except Failure α} {f : α → Except Failure β}
    {e : Failure} (h : (x >>= f) = .error e) : x = .error e ∨ ∃ a, x = .ok a ∧ f a = .error e := by
  cases x with
  | error g =>
    cases h
    exact .inl rfl
  | ok a => exact .inr ⟨a, rfl, h⟩

private theorem fileFlow_error {f : Failure} (h : k.fileFlow n d previous = .error f) :
    f = .refusedArgument .null ∨ f = .wrongEntry := by
  have hargument {v : Option String} (hv : argument v = .error f) : f = .refusedArgument .null := by
    cases v with
    | none => exact (Except.error.inj hv).symm
    | some _ => cases hv
  have howners {key : String} (hk : k.server.owners key = .error f) : f = .wrongEntry := by
    unfold Server.owners at hk
    split at hk
    · cases hk
    · cases hk
    · exact (Except.error.inj hk).symm
  have hnumbers {key : String} (hk : k.server.numbers key = .error f) : f = .wrongEntry := by
    unfold Server.numbers at hk
    split at hk
    · cases hk
    · cases hk
    · exact (Except.error.inj hk).symm
  unfold fileFlow at h
  obtain hu | ⟨_, _, h⟩ := bind_eq_error h
  · exact .inl (hargument hu)
  obtain hs | ⟨_, _, h⟩ := bind_eq_error h
  · exact .inl (hargument hs)
  obtain hn | ⟨_, _, h⟩ := bind_eq_error h
  · exact .inl (hargument hn)
  obtain hl | ⟨_, _, h⟩ := bind_eq_error h
  · exact .inl (hargument hl)
  obtain hf | ⟨_, _, h⟩ := bind_eq_error h
  · exact .inl (hargument hf)
  obtain hb | ⟨_, _, h⟩ := bind_eq_error h
  · exact .inr (howners hb)
  obtain hc | ⟨_, _, h⟩ := bind_eq_error h
  · exact .inr (howners hc)
  obtain hm | ⟨_, _, h⟩ := bind_eq_error h
  · exact .inr (hnumbers hm)
  cases h

private theorem find?_givenUp {name : FlowRow → String} {table : List (String × Int)}
    (h : k.Owns name table)
    (hprevious : ∀ e, Table.find? (k.flowKey n) k.server = some (.flow e) ↔ previous = some e)
    (u : String) (m : Int) :
    Table.find? u (givenUp name previous table) = some m ↔ Table.find? u table = some m ∧ m ≠ n := by
  have hold : Table.find? u table = some n ↔ ∃ e, previous = some e ∧ name e = u := by
    simp only [h u n, hprevious]
  cases hp : previous with
  | none =>
    rw [hp] at hold
    simp only [givenUp]
    constructor
    · intro hm
      refine ⟨hm, ?_⟩
      rintro rfl
      obtain ⟨e, he, _⟩ := hold.mp hm
      cases he
    · exact And.left
  | some old =>
    rw [hp] at hold
    simp only [givenUp, Table.find?_erase]
    by_cases hu : name old = u
    · have hn : Table.find? u table = some n := hold.mpr ⟨old, rfl, hu⟩
      rw [if_pos hu, hn]
      constructor
      · intro hm
        cases hm
      · rintro ⟨hm, hne⟩
        exact absurd (Option.some.inj hm).symm hne
    · rw [if_neg hu]
      constructor
      · intro hm
        refine ⟨hm, ?_⟩
        rintro rfl
        obtain ⟨e, he, hname⟩ := hold.mp hm
        cases he
        exact hu hname
      · exact And.left

private theorem owns_filed {name : FlowRow → String} {table : List (String × Int)}
    (h : k.Owns name table) (hfree : ∀ m, Table.find? (name row) table = some m → m = n)
    (hprevious : ∀ e, Table.find? (k.flowKey n) k.server = some (.flow e) ↔ previous = some e)
    (hflows : ∀ m, Table.find? (k.flowKey m) server =
      if m = n then some (.flow row) else Table.find? (k.flowKey m) k.server) :
    ({ k with server } : Keys).Owns name (Table.put (name row) n (givenUp name previous table)) := by
  intro u m
  have hkey : ({ k with server } : Keys).flowKey m = k.flowKey m := rfl
  rw [hkey, hflows, Table.find?_put]
  by_cases hu : name row = u
  · rw [if_pos hu]
    by_cases hm : m = n
    · simp [hm, hu]
    · rw [if_neg hm, ← h u m]
      simp only [Option.some.injEq]
      exact ⟨fun he => absurd he.symm hm, fun hf => absurd (hfree m (hu ▸ hf)) hm⟩
  · rw [if_neg hu, find?_givenUp h hprevious]
    by_cases hm : m = n
    · simp [hm, hu]
    · rw [if_neg hm, h u m]
      simp [hm]

theorem flowAt_eq_some {m : Int} {e : Definition} :
    (Store.keys k).flowAt m = some e ↔
      ∃ row, Table.find? (k.flowKey m) k.server = some (.flow row) ∧ row.definition = e := by
  simp only [Store.flowAt]
  split
  · rename_i row hrow
    simp [hrow]
  · rename_i hother
    constructor
    · intro h
      cases h
    · rintro ⟨row, hrow, _⟩
      exact absurd hrow (hother row)

private theorem fileFlow_enrolled (h : (Store.keys k).Identified)
    (hf : k.fileFlow n d previous = .ok server) (hgiven : ∀ m, d.id = some m → n = m)
    (hprevious : ∀ e, Table.find? (k.flowKey n) k.server = some (.flow e) ↔ previous = some e)
    (hfree : ∀ m e, (Store.keys k).flowAt m = some e →
      e.uuid = d.uuid ∨ e.shortcode = d.shortcode → m = n) :
    Enrolled (.keys k) d n (.keys { k with server }) := by
  obtain ⟨row, hfiles⟩ := fileFlow_files hf
  obtain ⟨hc, hflows, hsnapshots, ⟨set, hset⟩, ⟨byUuid, hbyUuid, hownsUuid⟩, byShortcode,
    hbyShortcode, hownsShortcode⟩ := h.bookkept
  have hdu : d.uuid = some row.uuid := (congrArg Definition.uuid hfiles.definition).symm
  have hds : d.shortcode = some row.shortcode :=
    (congrArg Definition.shortcode hfiles.definition).symm
  have hids : (Store.keys k).flowIds = set.map Prod.fst := by simp only [flowIds, hset]
  have hids' : (Store.keys { k with server }).flowIds =
      (Scored.add toString n n set).map Prod.fst := by
    have hnumbers := hfiles.numbers set hset
    simp only [flowIds]
    rw [show server.numbers (({ k with server } : Keys).key ["flows"]) = _ from hnumbers]
  constructor
  · rfl
  · exact hgiven
  · intro m
    have hkey : ({ k with server } : Keys).flowKey m = k.flowKey m := rfl
    by_cases hm : m = n
    · rw [if_pos hm]
      refine flowAt_eq_some.mpr ⟨row, ?_, hfiles.definition⟩
      rw [hkey, hfiles.flows, if_pos hm]
    · simp only [Store.flowAt, hkey, hfiles.flows, if_neg hm]
  · intro m _
    have hkey : ({ k with server } : Keys).revisionsKey m = k.revisionsKey m := rfl
    simp only [Store.revisionsAt, Server.snapshots, hkey, hfiles.revisions]
  · intro hnodup
    rw [hids']
    exact Scored.nodup_names_add _ _ _ (hids ▸ hnodup)
  · intro m
    rw [hids, hids']
    exact Scored.mem_names_add
  · exact hfree
  · refine ⟨hc, ?_, ?_, ⟨_, hfiles.numbers set hset⟩, ⟨_, hfiles.byUuid byUuid hbyUuid, ?_⟩, _,
      hfiles.byShortcode byShortcode hbyShortcode, ?_⟩
    · intro m e he
      rw [show ({ k with server } : Keys).flowKey m = k.flowKey m from rfl, hfiles.flows] at he
      split at he
      · exact ⟨row, (Option.some.inj he).symm⟩
      · exact hflows m e he
    · intro m
      obtain ⟨items, hitems⟩ := hsnapshots m
      refine ⟨items, ?_⟩
      rw [← hitems]
      have hkey : ({ k with server } : Keys).revisionsKey m = k.revisionsKey m := rfl
      simp only [Server.snapshots, hkey, hfiles.revisions]
    · refine owns_filed hownsUuid ?_ hprevious hfiles.flows
      intro m hm
      obtain ⟨e, he, hname⟩ := (hownsUuid _ _).mp hm
      refine hfree m e.definition (flowAt_eq_some.mpr ⟨e, he, rfl⟩) (.inl ?_)
      rw [hdu, ← hname]
      rfl
    · refine owns_filed hownsShortcode ?_ hprevious hfiles.flows
      intro m hm
      obtain ⟨e, he, hname⟩ := (hownsShortcode _ _).mp hm
      refine hfree m e.definition (flowAt_eq_some.mpr ⟨e, he, rfl⟩) (.inr ?_)
      rw [hds, ← hname]
      rfl

private theorem id_of_checkOwner {index : String} {v : Option String}
    (h : k.checkOwner index v d = .ok ()) {table : List (String × Int)}
    (ht : k.server.owners (k.key [index]) = .ok table) {u : String} (hv : v = some u) {m : Int}
    (hm : Table.find? u table = some m) : d.id = some m := by
  subst hv
  obtain ⟨_, hown, h⟩ := bind_eq_ok.mp h
  cases ht.symm.trans hown
  obtain ⟨_, hname, h⟩ := bind_eq_ok.mp h
  cases hname
  rw [hm] at h
  dsimp only at h
  split at h
  · rename_i hid
    exact hid.symm
  · cases h

private theorem id_of_checked (h : (Store.keys k).Identified)
    (hu : k.checkOwner "flow_by_uuid" d.uuid d = .ok ())
    (hs : k.checkOwner "flow_by_shortcode" d.shortcode d = .ok ()) {m : Int} {e : Definition}
    (he : (Store.keys k).flowAt m = some e)
    (hnames : e.uuid = d.uuid ∨ e.shortcode = d.shortcode) : d.id = some m := by
  obtain ⟨_, _, _, _, ⟨byUuid, hbyUuid, hownsUuid⟩, byShortcode, hbyShortcode, hownsShortcode⟩ :=
    h.bookkept
  obtain ⟨row, hrow, rfl⟩ := flowAt_eq_some.mp he
  rcases hnames with hname | hname
  · exact id_of_checkOwner hu hbyUuid hname.symm ((hownsUuid _ _).mpr ⟨row, hrow, rfl⟩)
  · exact id_of_checkOwner hs hbyShortcode hname.symm ((hownsShortcode _ _).mpr ⟨row, hrow, rfl⟩)

/-- The flows of a server keep their identities as long as their rows and the tables beside them stay the
same, and their revisions can be read. -/
theorem identified_of_server {k : Keys} (h : (Store.keys k).Identified)
    (hflow : ∀ m, Table.find? (k.flowKey m) server = Table.find? (k.flowKey m) k.server)
    (hnumbers : server.numbers (k.key ["flows"]) = k.server.numbers (k.key ["flows"]))
    (huuid : server.owners (k.key ["flow_by_uuid"]) = k.server.owners (k.key ["flow_by_uuid"]))
    (hshortcode : server.owners (k.key ["flow_by_shortcode"]) =
      k.server.owners (k.key ["flow_by_shortcode"]))
    (hsnapshots : ∀ m, ∃ items, server.snapshots (k.revisionsKey m) = .ok items) :
    (Store.keys { k with server }).Identified := by
  obtain ⟨hc, hflows, -, ⟨set, hset⟩, ⟨byUuid, hbyUuid, hownsUuid⟩, byShortcode, hbyShortcode,
    hownsShortcode⟩ := h.bookkept
  have hat (m : Int) : (Store.keys { k with server }).flowAt m = (Store.keys k).flowAt m := by
    have hkey : Keys.flowKey { k with server } m = k.flowKey m := rfl
    simp only [Store.flowAt, hkey, hflow]
  have hids : (Store.keys { k with server }).flowIds = (Store.keys k).flowIds := by
    have hkey : Keys.key { k with server } ["flows"] = k.key ["flows"] := rfl
    simp only [flowIds, hkey, hnumbers]
  have howns {name : FlowRow → String} {table : List (String × Int)} (ho : k.Owns name table) :
      Keys.Owns { k with server } name table := by
    intro u m
    rw [ho u m, ← hflow m]
    rfl
  refine ⟨?_, ?_, ?_, ?_, hc, ?_, hsnapshots, ⟨set, hnumbers.trans hset⟩,
    ⟨byUuid, huuid.trans hbyUuid, howns hownsUuid⟩, byShortcode, hshortcode.trans hbyShortcode,
    howns hownsShortcode⟩
  · rw [hids]
    exact h.once
  · intro m
    rw [hids, hat]
    exact h.listed m
  · intro m e he
    rw [hat] at he
    exact h.own m e he
  · intro m m' e e' he he'
    rw [hat] at he he'
    exact h.unique m m' e e' he he'
  · intro m e he
    exact hflows m e ((hflow m).symm.trans he)

def counted (k : Keys) (count : Int) : Keys :=
  { k with server := Table.put (k.key ["flow_seq"]) (.counter count) k.server }

section Counted
variable (k : Keys) (count : Int)

private theorem find?_counted {key : String} (h : k.key ["flow_seq"] ≠ key) :
    Table.find? key (k.counted count).server = Table.find? key k.server := by
  rw [counted, Table.find?_put, if_neg h]

theorem flow_counted (m : Int) : Table.find? (k.flowKey m) (k.counted count).server =
    Table.find? (k.flowKey m) k.server :=
  k.find?_counted count (k.flowKey_ne m (by decide)).symm

private theorem owners_counted {name : String} (h : "flow_seq" ≠ name) :
    (k.counted count).server.owners (k.key [name]) = k.server.owners (k.key [name]) := by
  rw [Server.owners, k.find?_counted count fun he => h (k.key_inj.mp he), Server.owners]

theorem numbers_counted :
    (k.counted count).server.numbers (k.key ["flows"]) = k.server.numbers (k.key ["flows"]) := by
  have hne : k.key ["flow_seq"] ≠ k.key ["flows"] := fun he =>
    absurd (k.key_inj.mp he) (by decide)
  rw [Server.numbers, k.find?_counted count hne, Server.numbers]

theorem snapshots_counted (m : Int) :
    (k.counted count).server.snapshots (k.revisionsKey m) = k.server.snapshots (k.revisionsKey m) := by
  rw [Server.snapshots, k.find?_counted count (k.revisionsKey_ne m (by decide)).symm,
    Server.snapshots]

private theorem flowAt_counted (m : Int) :
    (Store.keys (k.counted count)).flowAt m = (Store.keys k).flowAt m := by
  have hkey : (k.counted count).flowKey m = k.flowKey m := rfl
  simp only [Store.flowAt, hkey, flow_counted]

private theorem revisionsAt_counted (m : Int) :
    (Store.keys (k.counted count)).revisionsAt m = (Store.keys k).revisionsAt m := by
  have hkey : (k.counted count).revisionsKey m = k.revisionsKey m := rfl
  simp only [Store.revisionsAt, hkey, snapshots_counted]

private theorem flowIds_counted :
    (Store.keys (k.counted count)).flowIds = (Store.keys k).flowIds := by
  have hkey : (k.counted count).key ["flows"] = k.key ["flows"] := rfl
  simp only [flowIds, hkey, numbers_counted]

private theorem identified_counted {k : Keys} (h : (Store.keys k).Identified) (count : Int) :
    (Store.keys (k.counted count)).Identified := by
  refine identified_of_server h (k.flow_counted count) (k.numbers_counted count)
    (k.owners_counted count (by decide)) (k.owners_counted count (by decide)) fun m => ?_
  obtain ⟨items, hitems⟩ := h.bookkept.2.2.1 m
  exact ⟨items, (k.snapshots_counted count m).trans hitems⟩

private theorem enrolled_of_counted {k : Keys} {count : Int} {t : Store}
    (h : Enrolled (.keys (k.counted count)) d n t) : Enrolled (.keys k) d n t where
  kind := h.kind
  given := h.given
  flowAt m := by rw [h.flowAt, flowAt_counted]
  revisionsAt m hm := by rw [h.revisionsAt m hm, revisionsAt_counted]
  once hnodup := h.once (by rwa [flowIds_counted])
  listed m := by rw [h.listed, flowIds_counted]
  free m e he := h.free m e (by rwa [flowAt_counted])
  bookkept := h.bookkept

end Counted

theorem find?_of_flow? {key : String} (h : server.flow? key = .ok previous) (e : FlowRow) :
    Table.find? key server = some (.flow e) ↔ previous = some e := by
  unfold Server.flow? at h
  split at h
  · rename_i hnone
    cases h
    simp [hnone]
  · rename_i row hrow
    cases h
    simp [hrow]
  · cases h

theorem saveFlow_ensures (h : (Store.keys k).Identified) (d : Definition) :
    Ensures Keys.saveFlow ⟨k, d⟩
      (fun _ g => (Store.keys k).drawsFree d = true → ∃ n, g.held = { d with id := some n } ∧
        Enrolled (.keys k) d n (.keys g.state) ∧ (d.id = none → n ∉ (Store.keys k).flowIds))
      (fun f g => (Store.keys g.state).Identified ∧ ∀ fault, f = .storage fault → g.state = k) := by
  have hstays {α : Type} {r : Except Failure α} :
      Ensures (Action.ofExcept r) (⟨k, d⟩ : Holding Keys Definition)
        (fun a g => g = ⟨k, d⟩ ∧ r = .ok a)
        (fun f g => (Store.keys g.state).Identified ∧ ∀ fault, f = .storage fault → g.state = k) :=
    Ensures.ofExcept (fun _ ha => ⟨rfl, ha⟩) (fun _ _ => ⟨h, fun _ _ => rfl⟩)
  unfold Keys.saveFlow
  apply Ensures.bind
  apply Ensures.get
  apply Ensures.bind
  apply Ensures.held
  apply Ensures.bind
  refine hstays.mono ?_ (fun _ _ hfail => hfail)
  rintro _ _ ⟨rfl, -⟩
  apply Ensures.bind
  refine hstays.mono ?_ (fun _ _ hfail => hfail)
  rintro _ _ ⟨rfl, huuid⟩
  apply Ensures.bind
  refine hstays.mono ?_ (fun _ _ hfail => hfail)
  rintro _ _ ⟨rfl, hshortcode⟩
  split
  · rename_i n hn
    apply Ensures.bind
    refine hstays.mono ?_ (fun _ _ hfail => hfail)
    rintro previous _ ⟨rfl, hprevious⟩
    apply Ensures.bind
    refine hstays.mono ?_ (fun _ _ hfail => hfail)
    rintro server _ ⟨rfl, hserver⟩
    apply Ensures.modify
    intro _
    refine ⟨n, by rw [← hn], ?_, fun hnone => by cases hn.symm.trans hnone⟩
    have hgiven (m : Int) (hm : d.id = some m) : n = m := Option.some.inj (hn.symm.trans hm)
    refine fileFlow_enrolled h hserver hgiven (find?_of_flow? hprevious) ?_
    intro m e he hnames
    exact (hgiven m (id_of_checked h huuid hshortcode he hnames)).symm
  · rename_i hn
    apply Ensures.bind
    refine hstays.mono ?_ (fun _ _ hfail => hfail)
    rintro count _ ⟨rfl, hcount⟩
    apply Ensures.bind
    apply Ensures.set
    apply Ensures.bind
    apply Ensures.ofExcept
    · intro server hserver
      apply Ensures.modify
      intro hf
      have hdrawn : count + 1 ∉ (Store.keys k).flowIds := by
        simpa only [drawsFree, hn, hcount, decide_eq_true_eq] using hf
      refine ⟨count + 1, rfl, ?_, fun _ => hdrawn⟩
      have henrolled := fileFlow_enrolled (identified_counted h (count + 1)) hserver
        (fun m hm => by cases hn.symm.trans hm) ?_ ?_
      · exact enrolled_of_counted henrolled
      · intro e
        constructor
        · intro he
          have hsome : (Store.keys (k.counted (count + 1))).flowAt (count + 1) =
            some e.definition := flowAt_eq_some.mpr ⟨e, he, rfl⟩
          rw [flowAt_counted] at hsome
          exact absurd ((h.listed _).mpr (by rw [hsome]; rfl)) hdrawn
        · intro he
          cases he
      · intro m e he hnames
        rw [flowAt_counted] at he
        cases hn.symm.trans (id_of_checked h huuid hshortcode he hnames)
    · intro f hfail
      refine ⟨identified_counted h (count + 1), ?_⟩
      rintro fault rfl
      rcases fileFlow_error hfail with he | he
      · cases he
      · cases he

end Keys

end DurableFlow.Store
