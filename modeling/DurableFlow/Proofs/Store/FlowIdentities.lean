import DurableFlow.Proofs.Store.OwnedNames

/-! Identities of stored flows: the number, the UUID and the shortcode of a flow are its own. A server
draws numbers from a counter that does not know the numbers callers chose, so a drawn number must not
be that of a stored flow. -/
namespace DurableFlow.Store
open DurableFlow.Flow (Definition)

def saving (s : Store) (d : Definition) : Except Failure Definition × Store :=
  match Store.saveFlow ⟨s, d⟩ with
  | .ok _ g => (.ok g.held, g.state)
  | .error f g => (.error f, g.state)

def savingAll (s : Store) (ds : List Definition) : Store := ds.foldl (fun s d => (s.saving d).2) s

def allDrawFree : Store → List Definition → Bool
  | _, [] => true
  | s, d :: rest => s.drawsFree d && allDrawFree (s.saving d).2 rest

variable {s t : Store} {d : Definition}

def checkNumber (n : Int) : Store → Except Failure Unit
  | .rows _ => Rows.checkSize n
  | .memory _ | .keys _ => .ok ()

def Readable : Store → Prop
  | .memory m => ∀ x ∈ m.flows, x.2.id = some x.1
  | .rows r => r.connected = true
  | .keys k => k.connected = true ∧
      (∀ n e, Table.find? (k.flowKey n) k.server = some e → ∃ row, e = .flow row) ∧
      ∀ n, ∃ items, k.server.snapshots (k.revisionsKey n) = .ok items

theorem Identified.readable (h : s.Identified) : s.Readable := by
  cases s with
  | memory m => exact fun x hx => h.own x.1 x.2 (Table.find?_eq_some_of_mem h.once hx)
  | rows r => exact h.bookkept.1
  | keys k => exact ⟨h.bookkept.1, h.bookkept.2.1, h.bookkept.2.2.1⟩

theorem getFlow_eq (h : s.Readable) (n : Int) :
    s.getFlow n = (s.checkNumber n).map fun _ =>
      (s.flowAt n).map fun d => { d with revisions := s.revisionsAt n } := by
  cases s with
  | memory m => exact congrArg Except.ok (Memory.getFlow_id h n)
  | rows r =>
    have hc : r.checkConnected = .ok () := Rows.checkConnected_eq_ok.mpr h
    have hrow : r.flows.find? (Rows.answersTo (.id n)) = r.flows.find? (·.id = n) := rfl
    have hid (f : FlowRow) (hf : r.flows.find? (·.id = n) = some f) : f.id = n := by
      simpa using List.find?_some hf
    have hkey : Identifier.key (n : Identifier) = .ok (.id n) := rfl
    change r.getFlow n = _
    rw [Rows.getFlow, hc, checkNumber, Store.flowAt]
    change (Rows.checkSize n >>= fun _ => _) = _
    cases Rows.checkSize n with
    | error f => rfl
    | ok _ =>
      refine congrArg Except.ok ?_
      rw [hrow, Option.map_map]
      refine Option.map_congr fun f hf => ?_
      rw [hid f hf]
      rfl
  | keys k =>
    obtain ⟨hc, hflows, hsnapshots⟩ := h
    have hconnected : k.checkConnected = .ok () := Keys.checkConnected_eq_ok.mpr hc
    have hresolve : k.resolve? n = .ok (some n) := rfl
    obtain ⟨items, hitems⟩ := hsnapshots n
    change k.getFlow n = _
    rw [Keys.getFlow, hconnected, hresolve, checkNumber, Store.flowAt, Store.revisionsAt, hitems]
    change (k.server.flow? (k.flowKey n) >>= fun _ => _) = _
    cases hentry : Table.find? (k.flowKey n) k.server with
    | none =>
      rw [Server.flow?, hentry]
      rfl
    | some e =>
      obtain ⟨row, rfl⟩ := hflows n e hentry
      rw [Server.flow?, hentry]
      change (k.server.snapshots (k.revisionsKey n) >>= fun _ => _) = _
      rw [hitems]
      rfl

private theorem checkNumber_of_mem (h : s.Identified) {n : Int} (hn : n ∈ s.flowIds) :
    s.checkNumber n = .ok () := by
  cases s with
  | memory m => rfl
  | rows r => exact (h.bookkept.2.2 n hn).2
  | keys k => rfl

theorem getFlow_eq_ok (h : s.Identified) {n : Int} :
    s.getFlow n = .ok (some d) ↔
      ∃ e, s.flowAt n = some e ∧ d = { e with revisions := s.revisionsAt n } := by
  rw [getFlow_eq h.readable]
  constructor
  · intro hget
    cases hc : s.checkNumber n with
    | error f =>
      rw [hc] at hget
      cases hget
    | ok _ =>
      rw [hc] at hget
      obtain ⟨e, he, hd⟩ := Option.map_eq_some_iff.mp (Except.ok.inj hget)
      exact ⟨e, he, hd.symm⟩
  · rintro ⟨e, he, rfl⟩
    have hn : n ∈ s.flowIds := (h.listed n).mpr (by rw [he]; rfl)
    rw [checkNumber_of_mem h hn, he]
    rfl

private theorem mem_flowIds_iff (h : s.Identified) {n : Int} :
    n ∈ s.flowIds ↔ ∃ d, s.getFlow n = .ok (some d) := by
  rw [h.listed, Option.isSome_iff_exists]
  constructor
  · rintro ⟨e, he⟩
    exact ⟨_, (getFlow_eq_ok h).mpr ⟨e, he, rfl⟩⟩
  · rintro ⟨d, hd⟩
    obtain ⟨e, he, _⟩ := (getFlow_eq_ok h).mp hd
    exact ⟨e, he⟩

private theorem Enrolled.reads {n : Int} (h : s.Identified) (he : Enrolled s d n t) :
    (∃ revisions, t.getFlow n = .ok (some { d with id := some n, revisions })) ∧
      ∀ m : Int, m ≠ n → t.getFlow m = s.getFlow m := by
  have ht := h.enroll he
  have hcheck (m : Int) : t.checkNumber m = s.checkNumber m := by
    have hkind := he.kind
    cases s <;> cases t <;> first | rfl | cases hkind
  constructor
  · refine ⟨t.revisionsAt n, (getFlow_eq_ok ht).mpr ⟨numbered d n, ?_, rfl⟩⟩
    rw [he.flowAt, if_pos rfl]
  · intro m hm
    rw [getFlow_eq ht.readable, getFlow_eq h.readable, hcheck, he.flowAt, if_neg hm, he.revisionsAt m hm]

private theorem saving_of_ok {d' : Definition} (h : Store.saveFlow ⟨s, d⟩ = .ok () ⟨t, d'⟩) :
    s.saving d = (.ok d', t) := by
  rw [saving, h]

private theorem saving_of_error {f : Failure} {d' : Definition}
    (h : Store.saveFlow ⟨s, d⟩ = .error f ⟨t, d'⟩) : s.saving d = (.error f, t) := by
  rw [saving, h]

private theorem saving_outcome (h : s.Identified) (d : Definition) :
    (∃ t d', s.saving d = (.ok d', t) ∧ (s.drawsFree d = true → ∃ n, d' = { d with id := some n } ∧
      Enrolled s d n t ∧ (d.id = none → n ∉ s.flowIds))) ∨
    ∃ t f, s.saving d = (.error f, t) ∧ t.Identified ∧ ∀ fault, f = .storage fault → t = s := by
  cases s with
  | memory m =>
    have hsave : Store.saveFlow ⟨.memory m, d⟩ =
      keepHeld (wrapped .memory (m.saveFlow d)) ⟨.memory m, d⟩ := rfl
    cases ho : m.saveFlow d with
    | ok saved =>
      rw [ho] at hsave
      exact .inl ⟨_, _, saving_of_ok hsave, fun _ => Memory.saveFlow_enrolled h ho⟩
    | error f =>
      rw [ho] at hsave
      exact .inr ⟨_, _, saving_of_error hsave, h, fun _ _ => rfl⟩
  | rows r =>
    have hsave : Store.saveFlow ⟨.rows r, d⟩ =
      keepHeld (wrapped .rows (r.saveFlow d)) ⟨.rows r, d⟩ := rfl
    cases ho : r.saveFlow d with
    | ok saved =>
      rw [ho] at hsave
      exact .inl ⟨_, _, saving_of_ok hsave, fun _ => Rows.saveFlow_enrolled h ho⟩
    | error f =>
      rw [ho] at hsave
      exact .inr ⟨_, _, saving_of_error hsave, h, fun _ _ => rfl⟩
  | keys k =>
    have hensures := Keys.saveFlow_ensures h d
    have hsave : Store.saveFlow ⟨.keys k, d⟩ = within .keys k Keys.saveFlow ⟨.keys k, d⟩ := rfl
    cases ho : Keys.saveFlow ⟨k, d⟩ with
    | ok _ g =>
      rw [within, ho] at hsave
      exact .inl ⟨_, _, saving_of_ok hsave, hensures.of_eq_ok ho⟩
    | error f g =>
      rw [within, ho] at hsave
      obtain ⟨ht, hsame⟩ := hensures.of_eq_error ho
      exact .inr ⟨_, _, saving_of_error hsave, ht, fun fault he => congrArg _ (hsame fault he)⟩

theorem Identified.saving (h : s.Identified) (hf : s.drawsFree d = true) :
    (s.saving d).2.Identified := by
  obtain ⟨t, d', hs, hok⟩ | ⟨t, f, hs, ht, _⟩ := saving_outcome h d
  · obtain ⟨n, _, he, _⟩ := hok hf
    rw [hs]
    exact h.enroll he
  · rw [hs]
    exact ht

private theorem Identified.savingAll {ds : List Definition} (h : s.Identified)
    (hf : s.allDrawFree ds = true) : (s.savingAll ds).Identified := by
  induction ds generalizing s with
  | nil => exact h
  | cons d rest ih =>
    obtain ⟨hd, hrest⟩ := Bool.and_eq_true_iff.mp hf
    exact ih (h.saving hd) hrest

def Opened : Store → Prop
  | .memory m => m = .empty
  | .rows r => r = (Rows.empty r.place).connect
  | .keys k => k.connected = true ∧ k.server = []

private theorem identified_of_no_flows (hids : s.flowIds = []) (hnone : ∀ n, s.flowAt n = none)
    (hb : s.Bookkept) : s.Identified := by
  refine ⟨hids ▸ List.nodup_nil, fun n => by simp [hids, hnone], ?_, ?_, hb⟩
  · intro n d hd
    cases (hnone n).symm.trans hd
  · intro m n d e hd
    cases (hnone m).symm.trans hd

theorem Opened.identified (h : s.Opened) : s.Identified := by
  cases s with
  | memory m =>
    cases h
    refine identified_of_no_flows rfl (fun _ => rfl) ?_
    intro n hn
    cases hn
  | rows r =>
    have hflows : r.flows = [] := congrArg Rows.flows h
    refine identified_of_no_flows (by simp [flowIds, hflows])
      (fun n => by simp [Store.flowAt, hflows]) ?_
    refine ⟨congrArg Rows.connected h, Int.le_of_eq (congrArg Rows.sequence h).symm, ?_⟩
    intro n hn
    rw [hflows] at hn
    cases hn
  | keys k =>
    obtain ⟨hc, hserver⟩ := h
    have hfind (key : String) : Table.find? key k.server = none := by
      rw [hserver]
      rfl
    have howns (name : FlowRow → String) : k.Owns name [] := by
      intro u n
      simp [Table.find?, hfind]
    refine identified_of_no_flows (by simp [flowIds, Server.numbers, hfind])
      (fun n => by simp [Store.flowAt, hfind]) ?_
    refine ⟨hc, ?_, fun n => ⟨[], by rw [Server.snapshots, hfind]⟩,
      ⟨[], by rw [Server.numbers, hfind]⟩, ⟨[], by rw [Server.owners, hfind], howns _⟩,
      ⟨[], by rw [Server.owners, hfind], howns _⟩⟩
    intro n e he
    cases (hfind _).symm.trans he

private theorem owners_read {k : Keys} (h : (Store.keys k).Identified)
    {name : FlowRow → String} {field : Definition → Option String}
    (hname : ∀ row : FlowRow, field row.definition = some (name row))
    (hfield : ∀ (d : Definition) revisions, field { d with revisions } = field d)
    {table : List (String × Int)} (ho : k.Owns name table) (u : String) (n : Int) :
    Table.find? u table = some n ↔
      ∃ d, (Store.keys k).getFlow n = .ok (some d) ∧ field d = some u := by
  rw [ho u n]
  constructor
  · rintro ⟨row, hrow, rfl⟩
    have hat : (Store.keys k).flowAt n = some row.definition :=
      Keys.flowAt_eq_some.mpr ⟨row, hrow, rfl⟩
    refine ⟨_, (getFlow_eq_ok h).mpr ⟨_, hat, rfl⟩, ?_⟩
    rw [hfield, hname]
  · rintro ⟨d, hd, hu⟩
    obtain ⟨e, he, rfl⟩ := (getFlow_eq_ok h).mp hd
    obtain ⟨row, hrow, rfl⟩ := Keys.flowAt_eq_some.mp he
    rw [hfield, hname] at hu
    exact ⟨row, hrow, Option.some.inj hu⟩

/-- After every run of saves over a store that has just been opened, of flows without numbers and of
flows with numbers of the caller's choice, as long as no number that a server draws is that of a
stored flow:
every number stands for one flow, and no two flows share a UUID or a shortcode;
a save that succeeds gives a flow without a number one that no flow had, leaves every other flow as
it was, and forgets none;
a save that fails in the store changes nothing;
and the tables of a server lead from every UUID and shortcode to the flow that carries it, and to no
other. -/
theorem identities_kept (hs : s.Opened) {ds : List Definition} (hf : s.allDrawFree ds = true) :
    let t := s.savingAll ds
    (t.flowIds.Nodup ∧ (∀ n : Int, n ∈ t.flowIds ↔ ∃ d, t.getFlow n = .ok (some d)) ∧
      (∀ (m : Int) d, t.getFlow m = .ok (some d) → d.id = some m) ∧
      ∀ (m n : Int) d e, t.getFlow m = .ok (some d) → t.getFlow n = .ok (some e) →
        d.uuid = e.uuid ∨ d.shortcode = e.shortcode → m = n) ∧
    (∀ d d' u, t.drawsFree d = true → t.saving d = (.ok d', u) → ∃ n : Int, d' = { d with id := some n } ∧
      (d.id = none → n ∉ t.flowIds) ∧
      (∃ revisions, u.getFlow n = .ok (some { d with id := some n, revisions })) ∧
      (∀ m : Int, m ≠ n → u.getFlow m = t.getFlow m) ∧ ∀ m ∈ t.flowIds, m ∈ u.flowIds) ∧
    (∀ d fault u, t.saving d = (.error (.storage fault), u) → u = t) ∧
    ∀ k, t = .keys k →
      (∃ table, k.server.owners (k.key ["flow_by_uuid"]) = .ok table ∧ ∀ name (n : Int),
        Table.find? name table = some n ↔ ∃ d, t.getFlow n = .ok (some d) ∧ d.uuid = some name) ∧
      ∃ table, k.server.owners (k.key ["flow_by_shortcode"]) = .ok table ∧ ∀ name (n : Int),
        Table.find? name table = some n ↔
          ∃ d, t.getFlow n = .ok (some d) ∧ d.shortcode = some name := by
  intro t
  have h : t.Identified := hs.identified.savingAll hf
  refine ⟨⟨h.once, fun n => mem_flowIds_iff h, ?_, ?_⟩, ?_, ?_, ?_⟩
  · intro m d hd
    obtain ⟨e, he, rfl⟩ := (getFlow_eq_ok h).mp hd
    exact h.own m e he
  · intro m n d e hd he hnames
    obtain ⟨d', hd', rfl⟩ := (getFlow_eq_ok h).mp hd
    obtain ⟨e', he', rfl⟩ := (getFlow_eq_ok h).mp he
    exact h.unique m n d' e' hd' he' hnames
  · intro d d' u hdraws hsave
    obtain ⟨t', d'', hsaved, hok⟩ | ⟨t', f, hfailed, _⟩ := saving_outcome h d
    · cases hsave.symm.trans hsaved
      obtain ⟨n, rfl, he, hdrawn⟩ := hok hdraws
      obtain ⟨hrow, hothers⟩ := he.reads h
      exact ⟨n, rfl, hdrawn, hrow, hothers, fun m hm => (he.listed m).mpr (.inr hm)⟩
    · cases hsave.symm.trans hfailed
  · intro d fault u hsave
    obtain ⟨t', d', hsaved, _⟩ | ⟨t', f, hfailed, _, hsame⟩ := saving_outcome h d
    · cases hsave.symm.trans hsaved
    · cases hsave.symm.trans hfailed
      exact hsame fault rfl
  · intro k hk
    rw [hk] at h ⊢
    obtain ⟨_, _, _, _, ⟨byUuid, hbyUuid, hownsUuid⟩, byShortcode, hbyShortcode, hownsShortcode⟩ :=
      h.bookkept
    exact ⟨⟨byUuid, hbyUuid, owners_read h (fun _ => rfl) (fun _ _ => rfl) hownsUuid⟩,
      byShortcode, hbyShortcode, owners_read h (fun _ => rfl) (fun _ _ => rfl) hownsShortcode⟩

/-- A flow with a number that the caller chose is saved again under other names, and then a flow without
a number: it gets a new one. -/
theorem identities_kept_renamed :
    let s : Store := .keys ⟨"", "n", true, []⟩
    let d (u : String) (n : Option Int) : Definition :=
      ⟨some u, some u, some "", some "", .message, some "", n, []⟩
    let ds := [d "a" (some 7), d "b" (some 7)]
    (s.Opened ∧ s.allDrawFree ds = true ∧ (s.savingAll ds).drawsFree (d "a" none) = true) ∧
      ((s.savingAll ds).saving (d "a" none)).1 = .ok (d "a" (some 1)) ∧
      ∀ d' u, (s.savingAll ds).saving (d "a" none) = (.ok d', u) →
        ∃ n : Int, d' = d "a" (some n) ∧ n ∉ (s.savingAll ds).flowIds ∧
          (n ≠ 7 → u.getFlow (7 : Int) = (s.savingAll ds).getFlow (7 : Int)) := by
  intro s d ds
  have hf : s.allDrawFree ds = true := by decide
  have hd : (s.savingAll ds).drawsFree (d "a" none) = true := by decide
  refine ⟨⟨⟨rfl, rfl⟩, hf, hd⟩, by decide, ?_⟩
  intro d' u hsave
  obtain ⟨_, hsaves, _⟩ := identities_kept (s := s) ⟨rfl, rfl⟩ hf
  obtain ⟨n, hn, hdrawn, _, hothers, _⟩ := hsaves _ _ _ hd hsave
  exact ⟨n, hn, hdrawn rfl, fun hne => hothers 7 hne.symm⟩

/-- A server does not see that a caller has chosen the number that its counter comes to next: the
second flow takes the place of the first one, whose names still lead to it. -/
theorem chosen_number_drawn :
    let s : Store := .keys ⟨"", "n", true, []⟩
    let d (u : String) (n : Option Int) : Definition :=
      ⟨some u, some u, some "", some "", .message, some "", n, []⟩
    let t := s.savingAll [d "a" (some 1)]
    t.getFlow (1 : Int) = .ok (some (d "a" (some 1))) ∧
      (t.saving (d "b" none)).1 = .ok (d "b" (some 1)) ∧
      (t.saving (d "b" none)).2.getFlow (1 : Int) = .ok (some (d "b" (some 1))) ∧
      (t.saving (d "b" none)).2.getFlow (.value (.string "a")) = .ok (some (d "b" (some 1))) := by
  decide

end DurableFlow.Store
