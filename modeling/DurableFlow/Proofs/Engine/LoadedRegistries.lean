import DurableFlow.Engine.Loading
import DurableFlow.Proofs.ActionOutcomes
import DurableFlow.Proofs.Engine.RegistryEntries
import DurableFlow.Proofs.Flow.WellFormedDocuments

/-! Loaded registries: what a load makes of its rows. A row is filed or refused, and the next row is
looked at; only a document that is stumbled over ends the load. -/
namespace DurableFlow.Engine
open DurableFlow.Action (Ensures)
open DurableFlow.Flow (Definition)

/-! ## Rows -/

/-- A compilation stands for a row: one from before that is still current, or a new one. -/
def StandsFor (previous : Registry) (d : Definition) (body : List (String × Json)) (c : Compilation) :
    Prop :=
  (previous.ofNumber? d.id = some c ∧ Registry.isCurrent c.graph d body = true) ∨
    Flow.compile d (.object body) = .ok c.graph

def Stumbles (row : Definition × Json) (f : Failure) : Prop :=
  (∀ flow fault, f ≠ .malformed flow fault) ∧ (Flow.clean row.2 = .error f ∨
    ∃ body, Flow.clean row.2 = .ok body ∧ Flow.compile row.1 (.object body) = .error f)

inductive Loads (previous : Registry) : List (Definition × Json) → Registry → Registry → Prop
  | done (r : Registry) : Loads previous [] r r
  | filed {d : Definition} {raw : Json} {rest : List (Definition × Json)} {r r' : Registry}
      {body : List (String × Json)} {c : Compilation} (cleaned : Flow.clean raw = .ok body)
      (stands : StandsFor previous d body c)
      (next : Loads previous rest ((r.insert c).mend (d.id.getD 0)) r') :
      Loads previous ((d, raw) :: rest) r r'
  | refused {d : Definition} {raw : Json} {rest : List (Definition × Json)} {r r' : Registry}
      {body : List (String × Json)} {fault : DocumentFault} (cleaned : Flow.clean raw = .ok body)
      (failed : Flow.compile d (.object body) = .error (.malformed d.id fault))
      (next : Loads previous rest (r.fail (d.id.getD 0) (.malformed d.id fault)) r') :
      Loads previous ((d, raw) :: rest) r r'

/-! ## Loading -/

/-- All that a load reads but the registry is the same before and after, and nobody has waited. -/
structure Calm (e e' : Engine) : Prop where
  store : e'.store = e.store
  others : e'.others = e.others
  faults : e'.faults = e.faults
  clock : e'.clock = e.clock
  policy : e'.policy = e.policy
  pauses : e'.pauses = e.pauses

theorem Calm.refl (e : Engine) : Calm e e := ⟨rfl, rfl, rfl, rfl, rfl, rfl⟩

theorem Calm.trans {e e' e'' : Engine} (h : Calm e e') (h' : Calm e' e'') : Calm e e'' :=
  ⟨h'.store.trans h.store, h'.others.trans h.others, h'.faults.trans h.faults,
    h'.clock.trans h.clock, h'.policy.trans h.policy, h'.pauses.trans h.pauses⟩

variable {e : Engine}

theorem note_calm (level : Level) (text : String) :
    Ensures (note level text) e (fun _ e' => Calm e e' ∧ e'.registry = e.registry)
      (fun _ _ => False) :=
  Ensures.modify ⟨⟨rfl, rfl, rfl, rfl, rfl, rfl⟩, rfl⟩

theorem compile_calm (d : Definition) (body : List (String × Json)) :
    Ensures (compile d body) e
      (fun c e' => Calm e e' ∧ e'.registry = e.registry ∧
        Flow.compile d (.object body) = .ok c.graph)
      (fun f e' => Calm e e' ∧ e'.registry = e.registry ∧
        Flow.compile d (.object body) = .error f) := by
  unfold compile
  apply Ensures.bind
  apply Ensures.ofExcept
  · intro graph hgraph
    apply Ensures.bind
    apply Ensures.get
    apply Ensures.bind
    apply Ensures.set
    apply Ensures.bind
    refine (note_calm _ _).mono ?_ (fun _ _ h => h.elim)
    rintro _ e' ⟨hcalm, hr⟩
    have hset : Calm e { e with compiled := e.compiled + 1 } := ⟨rfl, rfl, rfl, rfl, rfl, rfl⟩
    exact Ensures.pure ⟨hset.trans hcalm, hr, hgraph⟩
  · intro f hf
    exact ⟨.refl e, rfl, hf⟩

theorem compileRow_calm (previous : Registry) (d : Definition)
    (body : List (String × Json)) : Ensures (compileRow previous d body) e
      (fun found e' => Calm e e' ∧
        ((∃ c, found = some c ∧ e'.registry = e.registry ∧ StandsFor previous d body c) ∨
        ∃ fault, found = none ∧ Flow.compile d (.object body) = .error (.malformed d.id fault) ∧
          e'.registry = e.registry.fail (d.id.getD 0) (.malformed d.id fault)))
      (fun f e' => Calm e e' ∧ e'.registry = e.registry ∧
        (∀ flow fault, f ≠ .malformed flow fault) ∧ Flow.compile d (.object body) = .error f) := by
  unfold compileRow
  dsimp only
  split
  · rename_i c hc
    obtain ⟨hfound, hcurrent⟩ := Option.filter_eq_some_iff.mp hc
    exact Ensures.pure ⟨.refl e, .inl ⟨c, rfl, rfl, .inl ⟨hfound, hcurrent⟩⟩⟩
  · apply Ensures.bind
    apply Ensures.attempt
    refine (compile_calm d body).mono ?_ ?_
    · rintro c e₁ ⟨hcalm, hr, hcompile⟩
      exact Ensures.pure ⟨hcalm, .inl ⟨c, rfl, hr, .inr hcompile⟩⟩
    · rintro f e₁ ⟨hcalm, hr, hfailed⟩
      cases f with
      | malformed flow fault =>
        have hflow := Flow.flow_of_malformed hfailed
        subst hflow
        apply Ensures.bind
        refine (note_calm _ _).mono ?_ (fun _ _ h => h.elim)
        rintro _ e₂ ⟨hcalm₂, hr₂⟩
        apply Ensures.bind
        apply Ensures.modify
        have hfile : Calm e₂ { e₂ with
          registry := e₂.registry.fail (d.id.getD 0) (.malformed d.id fault) } := ⟨rfl, rfl, rfl, rfl, rfl, rfl⟩
        refine Ensures.pure ⟨(hcalm.trans hcalm₂).trans hfile, .inr ⟨fault, rfl, hfailed, ?_⟩⟩
        rw [← hr, ← hr₂]
      | _ =>
        refine Ensures.throw ⟨hcalm, hr, ?_, hfailed⟩
        intro _ _ h
        cases h

/-- A load fills the registry with its rows, or stumbles over one of them after those before it. -/
theorem loadRows_loads (previous : Registry) (rows : List (Definition × Json)) (loaded : Nat) :
    Ensures (loadRows previous rows loaded) e
      (fun _ e' => Calm e e' ∧ Loads previous rows e.registry e'.registry)
      (fun f e' => Calm e e' ∧ ∃ before row after, rows = before ++ row :: after ∧ Stumbles row f ∧
        Loads previous before e.registry e'.registry) := by
  induction rows generalizing e loaded with
  | nil =>
    apply Ensures.bind
    apply Ensures.get
    refine (note_calm _ _).mono ?_ (fun _ _ h => h.elim)
    rintro _ e' ⟨hcalm, hr⟩
    exact ⟨hcalm, hr ▸ .done _⟩
  | cons row rest ih =>
    obtain ⟨d, raw⟩ := row
    have hrest {e₁ : Engine} (loaded : Nat) (hcalm : Calm e e₁)
        (hloads : ∀ rows r', Loads previous rows e₁.registry r' →
          Loads previous ((d, raw) :: rows) e.registry r') :
        Ensures (loadRows previous rest loaded) e₁
          (fun _ e' => Calm e e' ∧ Loads previous ((d, raw) :: rest) e.registry e'.registry)
          (fun f e' => Calm e e' ∧ ∃ before row after, (d, raw) :: rest = before ++ row :: after ∧
            Stumbles row f ∧ Loads previous before e.registry e'.registry) := by
      refine (ih loaded).mono ?_ ?_
      · rintro _ e' ⟨hcalm', hnext⟩
        exact ⟨hcalm.trans hcalm', hloads _ _ hnext⟩
      · rintro f e' ⟨hcalm', before, row, after, rfl, hstumbles, hnext⟩
        exact ⟨hcalm.trans hcalm', (d, raw) :: before, row, after, rfl, hstumbles, hloads _ _ hnext⟩
    unfold loadRows
    apply Ensures.bind
    apply Ensures.ofExcept
    · intro body hbody
      apply Ensures.bind
      refine (compileRow_calm previous d body).mono ?_ ?_
      · rintro found e₁ ⟨hcalm, ⟨c, rfl, hr, hstands⟩ | ⟨fault, rfl, hfailed, hr⟩⟩
        · apply Ensures.bind
          apply Ensures.modify
          have hfile : Calm e₁ { e₁ with registry := (e₁.registry.insert c).mend (d.id.getD 0) } :=
            ⟨rfl, rfl, rfl, rfl, rfl, rfl⟩
          refine hrest _ (hcalm.trans hfile) fun rows r' hnext => .filed hbody hstands ?_
          rw [← hr]
          exact hnext
        · refine hrest _ hcalm fun rows r' hnext => .refused hbody hfailed ?_
          rw [← hr]
          exact hnext
      · rintro f e₁ ⟨hcalm, hr, hother, hfailed⟩
        exact ⟨hcalm, [], _, rest, rfl, ⟨hother, .inr ⟨body, hbody, hfailed⟩⟩, hr ▸ .done _⟩
    · intro f hf
      refine ⟨.refl e, [], _, rest, rfl, ⟨?_, .inl hf⟩, .done _⟩
      rintro flow fault rfl
      unfold Flow.clean at hf
      split at hf <;> cases hf

/-! ## What becomes of a row -/

theorem StandsFor.id {previous : Registry} {d : Definition} {body : List (String × Json)}
    {c : Compilation} (h : StandsFor previous d body c) : c.graph.id = d.id := by
  obtain ⟨hfound, -⟩ | hcompile := h
  · obtain ⟨x, hx, rfl⟩ := Option.map_eq_some_iff.mp hfound
    simpa using List.find?_some hx
  · exact Flow.compile_id hcompile

def Found (previous : Registry) (row : Definition × Json) (n : Int) (r : Registry) : Prop :=
  ∃ body c, Flow.clean row.2 = .ok body ∧ StandsFor previous row.1 body c ∧ r.get? n = some c ∧
    Table.find? n r.failures = none

def Missed (row : Definition × Json) (n : Int) (r : Registry) : Prop :=
  ∃ body fault, Flow.clean row.2 = .ok body ∧
    Flow.compile row.1 (.object body) = .error (.malformed (some n) fault) ∧ r.get? n = none ∧
    Table.find? n r.failures = some (.malformed (some n) fault)

structure FreshRows (rows : List (Definition × Json)) (r : Registry) : Prop where
  numbered : ∀ row ∈ rows, ∃ n, row.1.id = some n
  once : (rows.map fun row => row.1.id).Nodup
  free : ∀ row ∈ rows, ∀ n : Int, row.1.id = some n →
    r.get? n = none ∧ Table.find? n r.failures = none

section Fresh
variable {r r' : Registry} {d : Definition} {raw : Json} {rest : List (Definition × Json)}
  {m : Int}

private theorem FreshRows.others (h : FreshRows ((d, raw) :: rest) r) (hm : d.id = some m) :
    ∀ row ∈ rest, row.1.id ≠ some m := by
  have honce := h.once
  rw [List.map_cons, List.nodup_cons] at honce
  intro row hrow hid
  exact honce.1 (hm ▸ hid ▸ List.mem_map_of_mem (f := fun row => row.1.id) hrow)

private theorem FreshRows.next (h : FreshRows ((d, raw) :: rest) r) (hm : d.id = some m)
    (hothers : ∀ n : Int, n ≠ m →
      r'.get? n = r.get? n ∧ Table.find? n r'.failures = Table.find? n r.failures) :
    FreshRows rest r' := by
  refine ⟨fun row hrow => h.numbered row (List.mem_cons_of_mem _ hrow), (List.nodup_cons.mp h.once).2, ?_⟩
  intro row hrow n hn
  obtain ⟨hget, hfailures⟩ := hothers n fun heq => h.others hm row hrow (heq ▸ hn)
  rw [hget, hfailures]
  exact h.free row (List.mem_cons_of_mem _ hrow) n hn

private theorem FreshRows.filed (h : FreshRows ((d, raw) :: rest) r) (hm : d.id = some m) {c : Compilation}
    (hid : c.graph.id = d.id) (n : Int) :
    ((r.insert c).mend (d.id.getD 0)).get? n = (if n = m then some c else r.get? n) ∧
      Table.find? n ((r.insert c).mend (d.id.getD 0)).failures =
        if m = n then none else Table.find? n r.failures := by
  obtain ⟨hnone, -⟩ := h.free _ List.mem_cons_self m hm
  refine ⟨Registry.get?_insert (hid.trans hm) hnone n, ?_⟩
  rw [Registry.insert_eq (hid.trans hm) hnone, hm]
  exact Table.find?_erase _ _ _

/-- The other rows are awaited when one has been filed. -/
theorem FreshRows.next_filed (h : FreshRows ((d, raw) :: rest) r) {c : Compilation} (hid : c.graph.id = d.id) :
    FreshRows rest ((r.insert c).mend (d.id.getD 0)) := by
  obtain ⟨m, hm⟩ := h.numbered _ List.mem_cons_self
  refine h.next hm fun n hn => ?_
  obtain ⟨hget, hfailures⟩ := h.filed hm hid n
  exact ⟨hget.trans (if_neg hn), hfailures.trans (if_neg (Ne.symm hn))⟩

/-- The other rows are awaited when one has been refused. -/
theorem FreshRows.next_refused (h : FreshRows ((d, raw) :: rest) r) (f : Failure) :
    FreshRows rest (r.fail (d.id.getD 0) f) := by
  obtain ⟨m, hm⟩ := h.numbered _ List.mem_cons_self
  have hmd : d.id = some m := hm
  refine h.next hm fun n hn => ⟨rfl, ?_⟩
  rw [hmd]
  exact (Table.find?_put _ _ _ _).trans (if_neg (Ne.symm hn))

end Fresh

/-- A load settles each of its rows, and nothing else, if they are awaited. -/
theorem Loads.settles {previous r r' : Registry} {rows : List (Definition × Json)}
    (h : Loads previous rows r r') (hawaited : FreshRows rows r) :
    (∀ n : Int, (∀ row ∈ rows, row.1.id ≠ some n) →
      r'.get? n = r.get? n ∧ Table.find? n r'.failures = Table.find? n r.failures) ∧
    ∀ row ∈ rows, ∀ n, row.1.id = some n → Found previous row n r' ∨ Missed row n r' := by
  induction h with
  | done r =>
    refine ⟨fun n _ => ⟨rfl, rfl⟩, ?_⟩
    intro row hrow
    cases hrow
  | @filed d raw rest r r' body c cleaned stands next ih =>
    obtain ⟨m, hm⟩ := hawaited.numbered _ List.mem_cons_self
    have hfiled := hawaited.filed hm stands.id
    obtain ⟨hothers, hrows⟩ := ih (hawaited.next_filed stands.id)
    constructor
    · intro n hn
      have hnm : n ≠ m := fun heq => hn _ List.mem_cons_self (heq ▸ hm)
      obtain ⟨hg, hf⟩ := hothers n fun row hrow => hn row (List.mem_cons_of_mem _ hrow)
      exact ⟨hg.trans ((hfiled n).1.trans (if_neg hnm)),
        hf.trans ((hfiled n).2.trans (if_neg (Ne.symm hnm)))⟩
    · intro row hrow n hn
      rcases List.mem_cons.mp hrow with rfl | hrow
      · cases hm.symm.trans hn
        obtain ⟨hg, hf⟩ := hothers m (hawaited.others hm)
        exact .inl ⟨body, c, cleaned, stands, hg.trans ((hfiled m).1.trans (if_pos rfl)),
          hf.trans ((hfiled m).2.trans (if_pos rfl))⟩
      · exact hrows row hrow n hn
  | @refused d raw rest r r' body fault cleaned failed next ih =>
    obtain ⟨m, hm⟩ := hawaited.numbered _ List.mem_cons_self
    have hmd : d.id = some m := hm
    obtain ⟨hnone, -⟩ := hawaited.free _ List.mem_cons_self m hm
    have hfailures (n : Int) : Table.find? n (r.fail (d.id.getD 0) (.malformed d.id fault)).failures =
        if m = n then some (.malformed (some m) fault) else Table.find? n r.failures := by
      rw [hmd]
      exact Table.find?_put _ _ _ _
    obtain ⟨hothers, hrows⟩ := ih (hawaited.next_refused _)
    constructor
    · intro n hn
      have hnm : n ≠ m := fun heq => hn _ List.mem_cons_self (heq ▸ hm)
      obtain ⟨hg, hf⟩ := hothers n fun row hrow => hn row (List.mem_cons_of_mem _ hrow)
      exact ⟨hg, hf.trans ((hfailures n).trans (if_neg (Ne.symm hnm)))⟩
    · intro row hrow n hn
      rcases List.mem_cons.mp hrow with rfl | hrow
      · cases hm.symm.trans hn
        obtain ⟨hg, hf⟩ := hothers m (hawaited.others hm)
        rw [hmd] at failed
        exact .inr ⟨body, fault, cleaned, failed, hg.trans hnone,
          hf.trans ((hfailures m).trans (if_pos rfl))⟩
      · exact hrows row hrow n hn

end DurableFlow.Engine
