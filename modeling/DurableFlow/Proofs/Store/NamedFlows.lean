import DurableFlow.Proofs.Store.ListedFlows

/-! Named flows. Whatever a flow is named by, its number, its UUID or its shortcode, a read gives the flow
that carries the name, in the very spelling that it was saved with. -/
namespace DurableFlow.Store
open DurableFlow.Flow (Definition Publishing Revision)
variable {s s' : Store} {d e : Definition} {key : FlowKey} {i : Identifier} {m n : Int}

/-! ## Reads -/

/-- No two flows of a store carry one name. -/
theorem Identified.eq_of_answers (h : s.Identified) (hd : s.flowAt m = some d) (he : s.flowAt n = some e)
    (hm : Memory.answersTo key d = true) (hn : Memory.answersTo key e = true) : m = n := by
  cases key with
  | id k =>
    have hmk : d.id = some k := of_decide_eq_true hm
    have hnk : e.id = some k := of_decide_eq_true hn
    have hmn : some m = some n :=
      (h.own m d hd).symm.trans ((hmk.trans hnk.symm).trans (h.own n e he))
    exact Option.some.inj hmn
  | uuid u =>
    have hdu : d.uuid = some u := of_decide_eq_true hm
    have heu : e.uuid = some u := of_decide_eq_true hn
    exact h.unique m n d e hd he (.inl (hdu.trans heu.symm))
  | shortcode c =>
    have hdc : d.shortcode = some c := of_decide_eq_true hm
    have hec : e.shortcode = some c := of_decide_eq_true hn
    exact h.unique m n d e hd he (.inr (hdc.trans hec.symm))

private theorem reads_number (h : s.Identified) (hi : i.split? = some (.id n)) :
    s.getFlow i = .ok (some d) ↔ ∃ m e, s.flowAt m = some e ∧ Memory.answersTo (.id n) e = true ∧
      d = { e with revisions := s.revisionsAt m } := by
  have hint : i = (n : Identifier) := by
    cases i with
    | uuid u => cases hi
    | value v =>
      cases v with
      | int m =>
        cases hi
        rfl
      | string t =>
        simp only [Identifier.split?] at hi
        split at hi
        · cases hi
        · cases hi
      | null | bool | double | array | object => cases hi
  rw [hint, getFlow_eq_ok h]
  constructor
  · rintro ⟨e, he, hd⟩
    exact ⟨n, e, he, decide_eq_true (h.own n e he), hd⟩
  · rintro ⟨m, e, he, hm, hd⟩
    have hmn : some m = some n := (h.own m e he).symm.trans (of_decide_eq_true hm)
    cases hmn
    exact ⟨e, he, hd⟩

private theorem find?_eq_some_of_only {α : Type} {p : α → Bool} {xs : List α} {x : α}
    (honly : ∀ y ∈ xs, p y = true → p x = true → y = x) : xs.find? p = some x ↔ x ∈ xs ∧ p x = true := by
  constructor
  · intro h
    exact ⟨List.mem_of_find?_eq_some h, List.find?_some h⟩
  · rintro ⟨hmem, hx⟩
    obtain ⟨y, hy⟩ := Option.isSome_iff_exists.mp (List.find?_isSome.mpr ⟨x, hmem, hx⟩)
    rw [hy, honly y (List.mem_of_find?_eq_some hy) (List.find?_some hy) hx]

private theorem memory_reads {m : Memory} (h : (Store.memory m).Identified) (key : FlowKey) :
    m.getFlow key = some d ↔ ∃ n e, (Store.memory m).flowAt n = some e ∧ Memory.answersTo key e = true ∧
      d = { e with revisions := m.revisionsOf n } := by
  have hat {x : Int × Definition} (hx : x ∈ m.flows) : (Store.memory m).flowAt x.1 = some x.2 :=
    Table.find?_eq_some_of_mem h.once hx
  have hfind (x : Int × Definition) : m.flows.find? (fun y => Memory.answersTo key y.2) = some x ↔
      x ∈ m.flows ∧ Memory.answersTo key x.2 = true := by
    by_cases hx : x ∈ m.flows
    · refine find?_eq_some_of_only fun y hy hyk hxk => ?_
      have hnumber : y.1 = x.1 := h.eq_of_answers (hat hy) (hat hx) hyk hxk
      have hflow : y.2 = x.2 := Option.some.inj ((hat hy).symm.trans (hnumber ▸ hat hx))
      exact Prod.ext hnumber hflow
    · exact ⟨fun hfound => absurd (List.mem_of_find?_eq_some hfound) hx, fun hmem => absurd hmem.1 hx⟩
  have hrevisions {n : Int} {e : Definition} (he : (Store.memory m).flowAt n = some e) :
      m.withRevisions e = { e with revisions := m.revisionsOf n } := by
    rw [Memory.withRevisions, h.own n e he]
    rfl
  rw [Memory.getFlow, Option.map_eq_some_iff]
  constructor
  · rintro ⟨x, hx, rfl⟩
    obtain ⟨hmem, hkey⟩ := (hfind x).mp hx
    exact ⟨x.1, x.2, hat hmem, hkey, hrevisions (hat hmem)⟩
  · rintro ⟨n, e, he, hkey, rfl⟩
    exact ⟨(n, e), (hfind (n, e)).mpr ⟨Table.mem_of_find?_eq_some he, hkey⟩, hrevisions he⟩

private theorem rows_find {r : Rows} (h : (Store.rows r).Identified) {f : FlowRow} (hf : f ∈ r.flows) :
    Table.find? f.id (Rows.byId r.flows) = some f := by
  have honce : ((Rows.byId r.flows).map Prod.fst).Nodup := Rows.map_id_byId r.flows ▸ h.once
  exact Table.find?_eq_some_of_mem honce (List.mem_map_of_mem hf)

private theorem rows_flowAt {r : Rows} (h : (Store.rows r).Identified) {f : FlowRow} (hf : f ∈ r.flows) :
    (Store.rows r).flowAt f.id = some f.definition := by
  rw [Store.flowAt, Rows.find?_byId, rows_find h hf]
  rfl

private theorem rows_reads {r : Rows} (h : (Store.rows r).Identified) (key : FlowKey) :
    (r.flows.find? (Rows.answersTo key)).map (fun f => { f.definition with revisions := r.revisionsOf f.id }) =
        some d ↔
      ∃ n e, (Store.rows r).flowAt n = some e ∧ Memory.answersTo key e = true ∧
        d = { e with revisions := r.revisionsOf n } := by
  have hanswers (f : FlowRow) : Rows.answersTo key f = Memory.answersTo key f.definition := by
    cases key <;> simp [Rows.answersTo, Memory.answersTo, FlowRow.definition]
  rw [Option.map_eq_some_iff]
  constructor
  · rintro ⟨f, hf, rfl⟩
    have hmem := List.mem_of_find?_eq_some hf
    exact ⟨f.id, f.definition, rows_flowAt h hmem, hanswers f ▸ List.find?_some hf, rfl⟩
  · rintro ⟨n, e, he, hkey, rfl⟩
    obtain ⟨f, hf, rfl⟩ := Option.map_eq_some_iff.mp he
    have hmem := List.mem_of_find?_eq_some hf
    have hn : f.id = n := by simpa using List.find?_some hf
    subst hn
    refine ⟨f, (find?_eq_some_of_only fun g hg hgk hfk => ?_).mpr ⟨hmem, (hanswers f).trans hkey⟩, rfl⟩
    have hnumber : g.id = f.id :=
      h.eq_of_answers (rows_flowAt h hg) he ((hanswers g).symm.trans hgk) ((hanswers f).symm.trans hfk)
    exact Option.some.inj ((rows_find h hg).symm.trans (hnumber ▸ rows_find h hmem))

private theorem keys_reads {k : Keys} (h : (Store.keys k).Identified) (hi : i.split? = some key) :
    k.getFlow i = .ok (some d) ↔ ∃ n e, (Store.keys k).flowAt n = some e ∧
      Memory.answersTo key e = true ∧ d = { e with revisions := (Store.keys k).revisionsAt n } := by
  obtain ⟨hc, -, -, -, ⟨byUuid, hbyUuid, hownsUuid⟩, byShortcode, hbyShortcode, hownsShortcode⟩ := h.bookkept
  have hconnected : k.checkConnected = .ok () := Keys.checkConnected_eq_ok.mpr hc
  -- a name is resolved to the number of the flow that carries it
  obtain ⟨owner, hresolve, howner⟩ : ∃ owner, k.resolve? i = .ok owner ∧ ∀ n e,
      (Store.keys k).flowAt n = some e → (owner = some n ↔ Memory.answersTo key e = true) := by
    have hkey : i.key = .ok key := by rw [Identifier.key, hi]
    cases key with
    | id m =>
      refine ⟨some m, bind_eq_ok.mpr ⟨_, hkey, rfl⟩, fun n e he => ?_⟩
      simp [Memory.answersTo, h.own n e he, eq_comm]
    | uuid u =>
      refine ⟨Table.find? u byUuid, bind_eq_ok.mpr ⟨_, hkey, bind_eq_ok.mpr ⟨_, hbyUuid, rfl⟩⟩, fun n e he => ?_⟩
      obtain ⟨row, hrow, rfl⟩ := Keys.flowAt_eq_some.mp he
      simp [hownsUuid u n, hrow, Memory.answersTo, FlowRow.definition]
    | shortcode c =>
      refine ⟨Table.find? c byShortcode, bind_eq_ok.mpr ⟨_, hkey, bind_eq_ok.mpr ⟨_, hbyShortcode, rfl⟩⟩,
        fun n e he => ?_⟩
      obtain ⟨row, hrow, rfl⟩ := Keys.flowAt_eq_some.mp he
      simp [hownsShortcode c n, hrow, Memory.answersTo, FlowRow.definition]
  cases owner with
  | none =>
    have hread : k.getFlow i = .ok none := by
      rw [Keys.getFlow, hconnected, hresolve]
      rfl
    rw [hread]
    constructor
    · intro hnone
      cases hnone
    · rintro ⟨n, e, he, hcarries, -⟩
      cases (howner n e he).mpr hcarries
  | some m =>
    have hread : k.getFlow i = k.getFlow m := by
      rw [Keys.getFlow, hconnected, hresolve, Keys.getFlow, hconnected]
      rfl
    have hget : k.getFlow m = .ok (some d) ↔ _ := getFlow_eq_ok h
    rw [hread, hget]
    constructor
    · rintro ⟨e, he, hd⟩
      exact ⟨m, e, he, (howner m e he).mp rfl, hd⟩
    · rintro ⟨n, e, he, hcarries, hd⟩
      cases (howner n e he).mpr hcarries
      exact ⟨e, he, hd⟩

/-- A read gives the flow that carries the name, and none if no flow does. -/
theorem Identified.getFlow_iff (h : s.Identified) (hi : i.split? = some key) :
    s.getFlow i = .ok (some d) ↔ ∃ n e, s.flowAt n = some e ∧ Memory.answersTo key e = true ∧
      d = { e with revisions := s.revisionsAt n } := by
  have hkey : i.key = .ok key := by rw [Identifier.key, hi]
  cases s with
  | memory m =>
    have hread : (Store.memory m).getFlow i = .ok (m.getFlow key) := by
      rw [Store.getFlow, hkey]
      rfl
    rw [hread, Except.ok.injEq]
    exact memory_reads h key
  | rows r =>
    have hconnected : r.checkConnected = .ok () := Rows.checkConnected_eq_ok.mpr h.bookkept.1
    cases key with
    | id n => exact reads_number h hi
    | uuid u =>
      have hread : (Store.rows r).getFlow i = .ok _ :=
        bind_eq_ok.mpr ⟨_, hconnected, bind_eq_ok.mpr ⟨_, hkey, rfl⟩⟩
      rw [hread, Except.ok.injEq]
      exact rows_reads h (.uuid u)
    | shortcode c =>
      have hread : (Store.rows r).getFlow i = .ok _ :=
        bind_eq_ok.mpr ⟨_, hconnected, bind_eq_ok.mpr ⟨_, hkey, rfl⟩⟩
      rw [hread, Except.ok.injEq]
      exact rows_reads h (.shortcode c)
  | keys k => exact keys_reads h hi

/-- What is no name is not read by. -/
theorem getFlow_of_unnamed (hi : i.split? = none) : s.getFlow i ≠ .ok (some d) := by
  have hkey : i.key = .error (.badIdentifier i) := by rw [Identifier.key, hi]
  intro h
  cases s with
  | memory m =>
    rw [Store.getFlow, hkey] at h
    cases h
  | rows r =>
    obtain ⟨_, -, h⟩ := bind_eq_ok.mp h
    obtain ⟨_, hok, -⟩ := bind_eq_ok.mp h
    cases hkey.symm.trans hok
  | keys k =>
    obtain ⟨_, -, h⟩ := bind_eq_ok.mp h
    obtain ⟨_, hresolved, -⟩ := bind_eq_ok.mp h
    obtain ⟨_, hok, -⟩ := bind_eq_ok.mp hresolved
    cases hkey.symm.trans hok

/-! ## Rows of a load -/

/-- Every row of a load has the data of a stored flow, whose revisions may be left out. -/
theorem Identified.activeFlows (h : s.Identified) {rows : List (Definition × Json)}
    (hrows : s.activeFlows none = .ok rows) : ∀ row ∈ rows, ∃ n e, s.flowAt n = some e ∧
      e.id = some n ∧ row.1 = { e with revisions := row.1.revisions } := by
  have hfound : ∀ row ∈ rows, ∃ n e, s.flowAt n = some e ∧
      row.1 = { e with revisions := row.1.revisions } := by
    intro row hrow
    cases s with
    | memory m =>
      cases hrows
      obtain ⟨⟨n, e⟩, hx, hr⟩ := List.mem_filterMap.mp hrow
      obtain ⟨r, -, rfl⟩ := Option.map_eq_some_iff.mp hr
      have hmem : (n, e) ∈ m.flows := List.mem_mergeSort.mp (List.mem_filter.mp hx).1
      exact ⟨n, e, Table.find?_eq_some_of_mem h.once hmem, rfl⟩
    | rows r =>
      obtain ⟨_, -, hrows⟩ := bind_eq_ok.mp hrows
      cases hrows
      obtain ⟨f, hf, hr⟩ := List.mem_filterMap.mp hrow
      obtain ⟨x, -, rfl⟩ := Option.map_eq_some_iff.mp hr
      have hmem : f ∈ r.flows := (List.mem_filter.mp (List.mem_mergeSort.mp hf)).1
      exact ⟨f.id, f.definition, rows_flowAt h hmem, rfl⟩
    | keys k =>
      obtain ⟨_, -, hrows⟩ := bind_eq_ok.mp hrows
      obtain ⟨numbers, -, hrows⟩ := bind_eq_ok.mp hrows
      obtain ⟨n, -, hr⟩ := of_mem_filterMapM hrows hrow
      obtain ⟨found, hfound, hr⟩ := bind_eq_ok.mp hr
      cases found with
      | none => cases hr
      | some found =>
        obtain ⟨items, -, hr⟩ := bind_eq_ok.mp hr
        obtain ⟨x, -, rfl⟩ := Option.map_eq_some_iff.mp (Except.ok.inj hr)
        have hat := (Keys.find?_of_flow? hfound found).mpr rfl
        exact ⟨n, found.definition, Keys.flowAt_eq_some.mpr ⟨found, hat, rfl⟩, rfl⟩
  intro row hrow
  obtain ⟨n, e, he, hdata⟩ := hfound row hrow
  exact ⟨n, e, he, h.own n e he, hdata⟩

/-! ## Revisions -/

/-- A revision that is saved leaves the flows their identities. -/
theorem Identified.saveRevision (h : s.Identified) {time : Moment} {trigger : Option String}
    {document : Json} {status : Publishing} {revision : Revision}
    (hs : s.saveRevision time trigger n document status = .ok (revision, s')) : s'.Identified := by
  cases s with
  | memory m =>
    obtain ⟨m', ho, rfl⟩ := wrapped_eq_ok.mp hs
    unfold Memory.saveRevision at ho
    split at ho
    · cases ho
    cases ho
    exact ⟨h.once, h.listed, h.own, h.unique, h.bookkept⟩
  | rows t =>
    obtain ⟨t', ho, rfl⟩ := wrapped_eq_ok.mp hs
    simp only [Rows.saveRevision, bind_eq_ok] at ho
    obtain ⟨_, -, _, -, ho⟩ := ho
    split at ho
    · cases ho
    split at ho
    · cases ho
    cases ho
    exact ⟨h.once, h.listed, h.own, h.unique, h.bookkept⟩
  | keys k =>
    obtain ⟨k', ho, rfl⟩ := wrapped_eq_ok.mp hs
    simp only [Keys.saveRevision, bind_eq_ok] at ho
    obtain ⟨_, -, ho⟩ := ho
    split at ho
    · cases ho
    obtain ⟨older, -, ho⟩ := bind_eq_ok.mp ho
    cases ho
    have hother (name : String) (hn : name.toList.head? ≠ some 'r') {entry : Entry} :
        Table.find? (k.key [name]) (Table.put (k.revisionsKey n) entry k.server) =
          Table.find? (k.key [name]) k.server := by
      rw [Table.find?_put, if_neg (k.revisionsKey_ne n hn)]
    refine Keys.identified_of_server h ?_ ?_ ?_ ?_ ?_
    · intro m
      rw [Table.find?_put, if_neg (k.revisionsKey_ne_flowKey n m)]
    · rw [Server.numbers, hother "flows" (by decide), Server.numbers]
    · rw [Server.owners, hother "flow_by_uuid" (by decide), Server.owners]
    · rw [Server.owners, hother "flow_by_shortcode" (by decide), Server.owners]
    · intro m
      rw [Server.snapshots, Table.find?_put]
      by_cases hm : k.revisionsKey n = k.revisionsKey m
      · rw [if_pos hm]
        exact ⟨_, rfl⟩
      · rw [if_neg hm]
        exact h.bookkept.2.2.1 m

/-- So does the loss of a live revision. -/
theorem Identified.dropLive (h : s.Identified) (n : Int) : (s.dropLive n).Identified := by
  cases s with
  | memory m => exact ⟨h.once, h.listed, h.own, h.unique, h.bookkept⟩
  | rows t => exact ⟨h.once, h.listed, h.own, h.unique, h.bookkept⟩
  | keys k => exact h

end DurableFlow.Store
