import DurableFlow.Proofs.Engine.CatalogueRuns

/-! Shaped registries. A flow is in a registry under its own entries only, and never without its number;
so there is one compilation of each flow. Filing takes the earlier compilation of a flow out first, and
what was under an entry that two flows have in common goes to the later one. -/
namespace DurableFlow

private theorem length_eraseDups_map {α β γ : Type} [BEq β] [LawfulBEq β] [BEq γ] [LawfulBEq γ]
    (f : α → β) (g : α → γ) : (xs : List α) → (∀ x ∈ xs, ∀ y ∈ xs, f x = f y ↔ g x = g y) →
      (xs.map f).eraseDups.length = (xs.map g).eraseDups.length
  | [], _ => rfl
  | x :: rest, h => by
    obtain ⟨-, hrest⟩ := List.forall_mem_cons.mp h
    -- what is left to count are the elements that are told apart from the first one
    have hsame : rest.filter ((fun b => !(b == f x)) ∘ f) = rest.filter ((fun b => !(b == g x)) ∘ g) := by
      refine List.filter_congr fun y hy => ?_
      have hiff := hrest y hy x List.mem_cons_self
      by_cases heq : f y = f x
      · simp [heq, hiff.mp heq]
      · simp [heq, mt hiff.mpr heq]
    rw [List.map_cons, List.map_cons, List.eraseDups_cons, List.eraseDups_cons, List.length_cons,
      List.length_cons, List.filter_map, List.filter_map, hsame]
    refine congrArg (· + 1) (length_eraseDups_map f g _ fun y hy z hz => ?_)
    exact h y (List.mem_cons_of_mem _ (List.mem_filter.mp hy).1) z
      (List.mem_cons_of_mem _ (List.mem_filter.mp hz).1)
termination_by xs => xs.length
decreasing_by
  have hlength := List.length_filter_le ((fun b => !(b == g x)) ∘ g) rest
  simp only [List.length_cons]
  omega

namespace Registry

variable {r : Registry} {c c' : Compilation} {entry other : Option Json} {n : Int} {next next' : Nat}
  {cs cs' : List Compilation}

/-! ## The shape -/

def Maps (r : Registry) (entry : Option Json) (c : Compilation) : Prop :=
  Table.find? entry r.entries = some c

def held (r : Registry) : List Compilation := r.entries.map Prod.snd

def flows (r : Registry) : List (Option Int) := (r.entries.map fun (_, c) => c.graph.id).eraseDups

/-- Every entry is one of its flow, and the compilation under it is also there under the number. -/
structure Shaped (r : Registry) : Prop where
  keyed : (r.entries.map Prod.fst).Nodup
  own : ∀ entry c, r.Maps entry c → entry ∈ entriesOf c.graph
  numbered : ∀ entry c, r.Maps entry c → ∃ n : Int, c.graph.id = some n ∧ r.get? n = some c

structure Stamped (next : Nat) (cs : List Compilation) : Prop where
  below : ∀ c ∈ cs, c.serial < next
  own : ∀ c ∈ cs, ∀ c' ∈ cs, c.serial = c'.serial → c = c'

theorem Shaped.empty : empty.Shaped := by
  refine ⟨List.nodup_nil, ?_, ?_⟩
  · intro entry c h
    cases h
  · intro entry c h
    cases h

theorem Stamped.mono (h : Stamped next cs) (hcs : ∀ c ∈ cs', c ∈ cs) : Stamped next cs' :=
  ⟨fun c hc => h.below c (hcs c hc), fun c hc c' hc' => h.own c (hcs c hc) c' (hcs c' hc')⟩

/-- The next serial is none of those that have been given out. -/
theorem Stamped.mint (h : Stamped next cs) (hc : c.serial = next) : Stamped (next + 1) (c :: cs) := by
  constructor
  · intro x hx
    rcases List.mem_cons.mp hx with rfl | hx
    · omega
    · exact Nat.lt_succ_of_lt (h.below x hx)
  · intro x hx y hy heq
    rcases List.mem_cons.mp hx with rfl | hx'
    · rcases List.mem_cons.mp hy with rfl | hy'
      · rfl
      · have hbelow := h.below y hy'
        omega
    · have hbelow := h.below x hx'
      rcases List.mem_cons.mp hy with rfl | hy'
      · omega
      · exact h.own x hx' y hy' heq

theorem Shaped.maps_iff (h : r.Shaped) : r.Maps entry c ↔ (entry, c) ∈ r.entries :=
  ⟨Table.mem_of_find?_eq_some, Table.find?_eq_some_of_mem h.keyed⟩

theorem Maps.mem_held (h : r.Maps entry c) : c ∈ r.held :=
  List.mem_map_of_mem (f := Prod.snd) (Table.mem_of_find?_eq_some h)

/-- There is one compilation of each flow. -/
theorem Shaped.unique (h : r.Shaped) (hc : r.Maps entry c) (hc' : r.Maps other c')
    (hid : c.graph.id = c'.graph.id) : c = c' := by
  obtain ⟨n, hn, hget⟩ := h.numbered _ _ hc
  obtain ⟨m, hm, hget'⟩ := h.numbered _ _ hc'
  cases hn.symm.trans (hid.trans hm)
  exact Option.some.inj (hget.symm.trans hget')

/-- A shaped registry holds as many compilations as flows. -/
theorem Shaped.size_eq (h : r.Shaped) (hs : Stamped next r.held) : r.size = r.flows.length := by
  refine length_eraseDups_map (fun x : Option Json × Compilation => x.2.serial)
    (fun x => x.2.graph.id) _ fun x hx y hy => ⟨fun heq => ?_, fun heq => ?_⟩
  · have hxy := hs.own x.2 (List.mem_map_of_mem hx) y.2 (List.mem_map_of_mem hy) heq
    change x.2.graph.id = y.2.graph.id
    rw [hxy]
  · have hxy := h.unique (h.maps_iff.mpr hx) (h.maps_iff.mpr hy) heq
    change x.2.serial = y.2.serial
    rw [hxy]

/-! ## Evictions -/

private theorem find?_release (c : Compilation) (entry other : Option Json) (r : Registry) :
    Table.find? other (r.release c entry).entries =
      if entry = other ∧ (Table.find? other r.entries).any (·.serial = c.serial) then none
      else Table.find? other r.entries := by
  unfold release
  by_cases heq : entry = other
  · subst heq
    by_cases hany : (Table.find? entry r.entries).any (·.serial = c.serial) = true
    · rw [if_pos hany, if_pos ⟨rfl, hany⟩, Table.find?_erase, if_pos rfl]
    · rw [if_neg hany, if_neg fun h => hany h.2]
  · have hsame : ¬(entry = other ∧ (Table.find? other r.entries).any (·.serial = c.serial) = true) :=
      fun h => heq h.1
    rw [if_neg hsame]
    split
    · rw [Table.find?_erase, if_neg heq]
    · rfl

/-- The released entries are those that hold the compilation; what is under the others stays. -/
theorem find?_releases (c : Compilation) (entries : List (Option Json)) (r : Registry)
    (other : Option Json) :
    Table.find? other (entries.foldl (fun r entry => r.release c entry) r).entries =
      if other ∈ entries ∧ (Table.find? other r.entries).any (·.serial = c.serial) then none
      else Table.find? other r.entries := by
  induction entries generalizing r with
  | nil => simp
  | cons entry rest ih =>
    rw [List.foldl_cons, ih, find?_release]
    by_cases heq : entry = other
    · subst heq
      by_cases hany : (Table.find? entry r.entries).any (·.serial = c.serial) = true
      · simp [hany]
      · simp [hany]
    · simp [heq, Ne.symm heq]

/-- When a compilation has been evicted no entry has it, and every other entry has what it had. -/
theorem Shaped.find?_evict (h : r.Shaped) (hs : Stamped next r.held) {flow : Identifier}
    (hc : r.get? flow = some c) (entry : Option Json) :
    Table.find? entry (r.evict flow).entries =
      if Table.find? entry r.entries = some c then none else Table.find? entry r.entries := by
  have hevict : r.evict flow = (entriesOf c.graph).foldl (fun r entry => r.release c entry) r := by
    rw [evict, hc]
  rw [hevict, find?_releases]
  cases hentry : Table.find? entry r.entries with
  | none => simp
  | some c' =>
    have hmaps : r.Maps entry c' := hentry
    have hfound : r.Maps (entryOf flow) c := hc
    by_cases heq : c' = c
    · subst heq
      rw [if_pos ⟨h.own _ _ hmaps, by simp⟩, if_pos rfl]
    · have hserial : c'.serial ≠ c.serial :=
        fun hserial => heq (hs.own _ hmaps.mem_held _ hfound.mem_held hserial)
      simp [heq, hserial]

/-- So an evicted compilation is nowhere, and every other one is where it was. -/
theorem Shaped.maps_evict (h : r.Shaped) (hs : Stamped next r.held) {flow : Identifier}
    (hc : r.get? flow = some c) : (r.evict flow).Maps entry c' ↔ r.Maps entry c' ∧ c' ≠ c := by
  unfold Maps
  rw [h.find?_evict hs hc]
  by_cases heq : Table.find? entry r.entries = some c
  · rw [if_pos heq, heq]
    constructor
    · intro hnone
      cases hnone
    · rintro ⟨hsome, hne⟩
      exact (hne (Option.some.inj hsome).symm).elim
  · rw [if_neg heq]
    exact ⟨fun hmaps => ⟨hmaps, fun hcc => heq (hcc ▸ hmaps)⟩, And.left⟩

theorem Shaped.evict (h : r.Shaped) (hs : Stamped next r.held) (flow : Identifier) :
    (r.evict flow).Shaped := by
  cases hc : r.get? flow with
  | none =>
    rw [Registry.evict, hc]
    exact h
  | some c =>
    refine ⟨?_, fun entry c' hmaps => ?_, fun entry c' hmaps => ?_⟩
    · exact h.keyed.sublist (entries_evict_sublist.map _)
    · exact h.own entry c' ((h.maps_evict hs hc).mp hmaps).1
    · obtain ⟨hheld, hne⟩ := (h.maps_evict hs hc).mp hmaps
      obtain ⟨n, hid, hget⟩ := h.numbered entry c' hheld
      exact ⟨n, hid, (h.maps_evict hs hc).mpr ⟨hget, hne⟩⟩

theorem held_evict {flow : Identifier} (h : c ∈ (r.evict flow).held) : c ∈ r.held := by
  obtain ⟨x, hx, rfl⟩ := List.mem_map.mp h
  exact List.mem_map_of_mem (mem_evict hx)

/-! ## Insertions -/

private theorem Shaped.put (h : r.Shaped) (hid : c.graph.id = some n)
    (halone : ∀ entry c', r.Maps entry c' → c'.graph.id = some n → c' = c) :
    Shaped { r with entries := filed c (entriesOf c.graph) r.entries } := by
  have hmaps (entry : Option Json) (c' : Compilation) :
      Maps { r with entries := filed c (entriesOf c.graph) r.entries } entry c' ↔
        (entry ∈ entriesOf c.graph ∧ c' = c) ∨ (entry ∉ entriesOf c.graph ∧ r.Maps entry c') := by
    unfold Maps
    rw [find?_filed]
    by_cases hmem : entry ∈ entriesOf c.graph
    · simp [hmem, eq_comm]
    · simp [hmem]
  refine ⟨nodup_filed h.keyed, fun entry c' hc' => ?_, fun entry c' hc' => ?_⟩
  · rcases (hmaps entry c').mp hc' with ⟨hmem, rfl⟩ | ⟨-, hold⟩
    · exact hmem
    · exact h.own entry c' hold
  · rcases (hmaps entry c').mp hc' with ⟨-, rfl⟩ | ⟨hnot, hold⟩
    · exact ⟨n, hid, (hmaps _ _).mpr (.inl ⟨mem_entriesOf hid, rfl⟩)⟩
    · obtain ⟨m, hm, hget⟩ := h.numbered entry c' hold
      have hother : m ≠ n := by
        rintro rfl
        exact hnot (halone entry c' hold hm ▸ h.own entry c' hold)
      refine ⟨m, hm, (hmaps _ _).mpr (.inr ⟨fun hmem => hother ?_, hget⟩)⟩
      exact Option.some.inj ((id_of_entry hmem).symm.trans hid)

/-- Filing a compilation keeps a registry shaped, whatever its names were to other flows. -/
theorem Shaped.insert (h : r.Shaped) (hs : Stamped next (c :: r.held)) (hid : c.graph.id = some n) :
    (r.insert c).Shaped := by
  have hheld : Stamped next r.held := hs.mono fun _ => List.mem_cons_of_mem _
  have hnumber : Identifier.value (Flow.intOrNull c.graph.id) = n := by
    rw [hid]
    rfl
  unfold Registry.insert
  dsimp only
  rw [hnumber]
  cases hold : r.get? n with
  | none =>
    refine h.put hid fun entry c' hmaps hc' => ?_
    obtain ⟨m, hm, hget⟩ := h.numbered entry c' hmaps
    cases hc'.symm.trans hm
    cases hold.symm.trans hget
  | some old =>
    have hmaps : r.Maps (entryOf n) old := hold
    dsimp only
    split
    · rename_i hserial
      have heq := hs.own old (List.mem_cons_of_mem _ hmaps.mem_held) c List.mem_cons_self hserial
      subst heq
      refine h.put hid fun entry c' hc' hn => h.unique hc' hmaps (hn.trans hid.symm)
    · refine (h.evict hheld n).put hid fun entry c' hc' hn => ?_
      obtain ⟨hc', hne⟩ := (h.maps_evict hheld hold).mp hc'
      obtain ⟨m, hm, hget⟩ := h.numbered entry c' hc'
      cases hn.symm.trans hm
      exact (hne (Option.some.inj (hget.symm.trans hold))).elim

theorem held_insert {x : Compilation} (h : x ∈ (r.insert c).held) : x = c ∨ x ∈ r.held := by
  obtain ⟨y, hy, rfl⟩ := List.mem_map.mp h
  exact (mem_insert hy).imp And.right fun hold => List.mem_map_of_mem hold

end Registry

namespace Engine
open DurableFlow.Action (Ensures)
open DurableFlow.Flow (Definition)
open Registry (Maps Shaped Stamped)

variable {documents : List Json} {e : Engine} {previous : Registry}

/-! ## Loads -/

/-- An engine whose registry is shaped, beside one from before. All that the two hold is told apart by
its serials. -/
structure Filing (previous : Registry) (e : Engine) : Prop where
  shaped : e.registry.Shaped
  stamped : Stamped e.compiled (previous.held ++ e.registry.held)

private abbrev StaysFiling {α : Type} (previous : Registry) (act : Run α) (e : Engine) : Prop :=
  Ensures act e (fun _ e' => Filing previous e') (fun _ e' => Filing previous e')

namespace Filing

theorem held (h : Filing previous e) : Stamped e.compiled e.registry.held :=
  h.stamped.mono fun _ => List.mem_append_right _

/-- The registry on its own. -/
theorem alone (h : Filing previous e) : Filing .empty e := ⟨h.shaped, h.held⟩

/-- The registry, beside itself before a load. -/
theorem doubled (h : Filing previous e) : Filing e.registry e :=
  ⟨h.shaped, h.held.mono fun _ hc => (List.mem_append.mp hc).elim id id⟩

private theorem of_same {e' : Engine} (h : Filing previous e) (hr : e'.registry = e.registry)
    (hc : e'.compiled = e.compiled) : Filing previous e' := by
  refine ⟨?_, ?_⟩
  · rw [hr]
    exact h.shaped
  · rw [hr, hc]
    exact h.stamped

private theorem insert (h : Filing previous e) {c : Compilation} {n : Int} (hid : c.graph.id = some n)
    (hs : Stamped e.compiled (c :: (previous.held ++ e.registry.held))) :
    Filing previous { e with registry := e.registry.insert c } := by
  refine ⟨h.shaped.insert (hs.mono ?_) hid, hs.mono ?_⟩
  · intro x hx
    rcases List.mem_cons.mp hx with rfl | hx
    · exact List.mem_cons_self
    · exact List.mem_cons_of_mem _ (List.mem_append_right _ hx)
  · intro x hx
    rcases List.mem_append.mp hx with hx | hx
    · exact List.mem_cons_of_mem _ (List.mem_append_left _ hx)
    · rcases Registry.held_insert hx with rfl | hx
      · exact List.mem_cons_self
      · exact List.mem_cons_of_mem _ (List.mem_append_right _ hx)

private theorem evict (h : Filing previous e) (flow : Identifier) :
    Filing previous { e with registry := e.registry.evict flow } := by
  refine ⟨h.shaped.evict h.held flow, h.stamped.mono fun x hx => ?_⟩
  exact List.mem_append.mpr ((List.mem_append.mp hx).imp_right Registry.held_evict)

private theorem note (h : Filing previous e) (level : Level) (text : String) :
    Ensures (note level text) e (fun _ e' => Filing previous e') (fun _ _ => False) :=
  Ensures.modify (h.of_same rfl rfl)

private theorem compile (h : Filing previous e) (d : Definition) (body : List (String × Json)) :
    Ensures (compile d body) e
      (fun c e' => Filing previous e' ∧ c.graph.id = d.id ∧
        Stamped e'.compiled (c :: (previous.held ++ e'.registry.held)))
      (fun _ e' => Filing previous e') := by
  unfold Engine.compile
  apply Ensures.bind
  refine Ensures.ofExcept (fun graph hgraph => ?_) fun _ _ => h
  apply Ensures.bind
  apply Ensures.get
  apply Ensures.bind
  apply Ensures.set
  apply Ensures.bind
  have hminted : Stamped (e.compiled + 1)
      (⟨e.compiled, graph⟩ :: (previous.held ++ e.registry.held)) := h.stamped.mint rfl
  have hnext : Filing previous { e with compiled := e.compiled + 1 } :=
    ⟨h.shaped, hminted.mono fun _ => List.mem_cons_of_mem _⟩
  exact Ensures.modify (Ensures.pure ⟨hnext.of_same rfl rfl, Flow.compile_id hgraph, hminted⟩)

private theorem compileRow (h : Filing previous e) (d : Definition) (body : List (String × Json)) :
    Ensures (compileRow previous d body) e
      (fun found e' => Filing previous e' ∧ ∀ c, found = some c → c.graph.id = d.id ∧
        Stamped e'.compiled (c :: (previous.held ++ e'.registry.held)))
      (fun _ e' => Filing previous e') := by
  unfold Engine.compileRow
  dsimp only
  split
  · rename_i c hc
    obtain ⟨hfound, hcurrent⟩ := Option.filter_eq_some_iff.mp hc
    have hstands : StandsFor previous d body c := .inl ⟨hfound, hcurrent⟩
    obtain ⟨x, hx, hxc⟩ := Option.map_eq_some_iff.mp hfound
    have hheld : c ∈ previous.held :=
      hxc ▸ List.mem_map_of_mem (List.mem_reverse.mp (List.mem_of_find?_eq_some hx))
    refine Ensures.pure ⟨h, fun c' hc' => ?_⟩
    cases hc'
    refine ⟨hstands.id, h.stamped.mono fun y hy => ?_⟩
    rcases List.mem_cons.mp hy with rfl | hy
    · exact List.mem_append_left _ hheld
    · exact hy
  · apply Ensures.bind
    apply Ensures.attempt
    refine (h.compile d body).mono ?_ ?_
    · rintro c e₁ ⟨hfiling, hc⟩
      refine Ensures.pure ⟨hfiling, fun c' hc' => ?_⟩
      cases hc'
      exact hc
    · rintro f e₁ hfiling
      cases f with
      | malformed flow fault =>
        apply Ensures.bind
        refine (hfiling.note _ _).mono ?_ fun _ _ hf => hf.elim
        rintro _ e₂ hfiling
        apply Ensures.bind
        apply Ensures.modify
        refine Ensures.pure ⟨⟨⟨hfiling.shaped.keyed, hfiling.shaped.own, hfiling.shaped.numbered⟩,
          hfiling.stamped⟩, fun c hc => ?_⟩
        cases hc
      | _ => exact Ensures.throw hfiling

private theorem loadRows (h : Filing previous e) {rows : List (Definition × Json)}
    (hrows : ∀ row ∈ rows, ∃ n, row.1.id = some n) (loaded : Nat) :
    StaysFiling previous (loadRows previous rows loaded) e := by
  induction rows generalizing e loaded with
  | nil =>
    apply Ensures.bind
    apply Ensures.get
    exact (h.note _ _).mono (fun _ _ hf => hf) fun _ _ hf => hf.elim
  | cons row rest ih =>
    obtain ⟨d, raw⟩ := row
    obtain ⟨⟨n, hn⟩, hrest⟩ := List.forall_mem_cons.mp hrows
    unfold Engine.loadRows
    apply Ensures.bind
    refine Ensures.ofExcept (fun body _ => ?_) fun _ _ => h
    apply Ensures.bind
    refine (h.compileRow d body).mono ?_ fun _ _ hf => hf
    rintro found e₁ ⟨hfiling, hfound⟩
    cases found with
    | none => exact ih hfiling hrest loaded
    | some c =>
      obtain ⟨hid, hstamped⟩ := hfound c rfl
      have hfiled := hfiling.insert (hid.trans hn) hstamped
      apply Ensures.bind
      apply Ensures.modify
      refine ih (e := { e₁ with registry := (e₁.registry.insert c).mend (d.id.getD 0) }) ?_ hrest
        (loaded + 1)
      exact ⟨⟨hfiled.shaped.keyed, hfiled.shaped.own, hfiled.shaped.numbered⟩, hfiled.stamped⟩

/-! ## Acts -/

private theorem loadAll (h : Filing .empty e) (hs : Stocked documents e) (only : Option Int) :
    StaysFiling .empty (loadAll only) e := by
  apply Ensures.bind
  refine hs.ask_ensures.mono ?_ fun _ _ he => he ▸ h
  rintro rows _ ⟨rfl, hrows⟩
  apply Ensures.bind
  apply Ensures.get
  exact (h.doubled.loadRows (hs.listed.active_numbered hrows) 0).mono (fun _ _ hf => hf.alone)
    fun _ _ hf => hf.alone

private theorem refresh (h : Filing .empty e) (hs : Stocked documents e) :
    StaysFiling .empty refresh e := by
  have hempty : Stocked documents { e with registry := .empty } :=
    ⟨hs.alone, hs.unfailing, hs.listed, .empty⟩
  have hstart : Filing e.registry { e with registry := .empty } :=
    ⟨.empty, h.held.mono fun _ hc => (List.mem_append.mp hc).elim id fun hnone => nomatch hnone⟩
  apply Ensures.bind
  apply Ensures.get
  apply Ensures.bind
  apply Ensures.modify
  apply Ensures.bind
  refine hempty.ask_ensures.mono ?_ fun _ _ he => he ▸ hstart.alone
  rintro rows _ ⟨rfl, hrows⟩
  exact (hstart.loadRows (hs.listed.active_numbered hrows) 0).mono (fun _ _ hf => hf.alone)
    fun _ _ hf => hf.alone

private theorem loadOne (h : Filing .empty e) (hs : Stocked documents e) (flow : Identifier) :
    Ensures (loadOne flow) e
      (fun c e' => Filing .empty e' ∧ (∃ n, c.graph.id = some n) ∧
        Stamped e'.compiled (c :: e'.registry.held))
      (fun _ e' => Filing .empty e') := by
  apply Ensures.bind
  refine hs.ask_ensures.mono ?_ fun _ _ he => he ▸ h
  rintro found _ ⟨rfl, hfound⟩
  cases found with
  | none => exact Ensures.throw h
  | some d =>
    obtain ⟨n, hn⟩ := hs.listed.getFlow_numbered hfound
    apply Ensures.bind
    apply Ensures.bind
    refine hs.ask_ensures.mono ?_ fun _ _ he => he ▸ h
    rintro live _ ⟨rfl, -⟩
    cases live with
    | none => exact Ensures.throw h
    | some r =>
      apply Ensures.bind
      refine (h.note _ _).mono ?_ fun _ _ hf => hf.elim
      rintro _ e₁ hfiling
      refine Ensures.ofExcept (fun body _ => ?_) fun _ _ => hfiling
      refine (hfiling.compile d body).mono ?_ fun _ _ hf => hf
      rintro c e₂ ⟨hfiling, hid, hstamped⟩
      exact ⟨hfiling, ⟨n, hid.trans hn⟩, hstamped⟩

private theorem fetch (h : Filing .empty e) (hs : Stocked documents e) (flow : Identifier) :
    StaysFiling .empty (fetch flow) e := by
  apply Ensures.bind
  apply Ensures.get
  split
  · exact Ensures.pure h
  · apply Ensures.bind
    refine (h.loadOne hs flow).mono ?_ fun _ _ hf => hf
    rintro c e' ⟨hfiling, ⟨n, hid⟩, hstamped⟩
    apply Ensures.bind
    apply Ensures.modify
    exact Ensures.pure (hfiling.insert hid hstamped)

private theorem step (h : Filing .empty e) (hs : Stocked documents e) (act : Act) :
    StaysFiling .empty act.step e := by
  cases act with
  | loadAll only => exact h.loadAll hs only
  | refresh => exact h.refresh hs
  | fetch flow => exact (h.fetch hs flow).discard
  | evict flow =>
    apply Ensures.discard
    apply Ensures.bind
    apply Ensures.get
    apply Ensures.bind
    apply Ensures.modify
    exact Ensures.pure (h.evict flow)
  | saveFlow d =>
    apply Ensures.discard
    apply Ensures.holding
    unfold Ensures Engine.saveFlow
    dsimp only
    cases Store.saveFlow ⟨e.store, d⟩ <;> exact h.of_same rfl rfl
  | saveRevision flow document status =>
    apply Ensures.discard
    unfold Engine.saveRevision instant
    apply Ensures.bind
    apply Ensures.bind
    apply Ensures.get
    refine Ensures.ofExcept (fun time _ => ?_) fun _ _ => h
    apply Ensures.bind
    apply Ensures.get
    apply Ensures.bind
    refine Ensures.ofExcept (fun saved _ => ?_) fun _ _ => h
    obtain ⟨revision, store⟩ := saved
    apply Ensures.bind
    apply Ensures.set
    exact Ensures.pure (h.of_same rfl rfl)
  | dropLive flow =>
    apply Ensures.bind
    apply Ensures.get
    apply Ensures.bind
    refine Ensures.ofExcept (fun store _ => ?_) fun _ _ => h
    exact Ensures.set (h.of_same rfl rfl)
  | elapse seconds =>
    apply Ensures.bind
    refine Ensures.ofExcept (fun micros _ => ?_) fun _ _ => h
    exact Ensures.modify (h.of_same rfl rfl)

private theorem perform (h : Filing .empty e) (hs : Stocked documents e) (act : Act) :
    Filing .empty (e.perform act) := by
  have hstep := h.step hs act
  unfold Engine.perform
  split
  · rename_i he
    exact hstep.of_eq_ok he
  · rename_i he
    exact hstep.of_eq_error he

private theorem performAll (h : Filing .empty e) {acts : List Act}
    (hs : Stocked documents e) (hd : ∀ document ∈ documentsOf acts, document ∈ documents) :
    Filing .empty (e.performAll acts) := by
  induction acts generalizing e with
  | nil => exact h
  | cons act rest ih =>
    have hact : ∀ document, act.document? = some document → document ∈ documents := fun document hdoc =>
      hd document (List.mem_filterMap.mpr ⟨act, List.mem_cons_self, hdoc⟩)
    refine ih (h.perform hs act) (hs.perform act hact) fun document hdoc => ?_
    obtain ⟨x, hx, hsome⟩ := List.mem_filterMap.mp hdoc
    exact hd document (List.mem_filterMap.mpr ⟨x, List.mem_cons_of_mem _ hx, hsome⟩)

end Filing

/-- A registry over a store that has just been opened is shaped, whatever has happened to it. -/
theorem filing_ofStore {store : Store} (h : store.Opened) (policy : RetryPolicy) (batchSize : Json)
    (clock : Int) (acts : List Act) :
    Filing .empty ((ofStore store policy batchSize clock).performAll acts) := by
  have hstart : Filing .empty (ofStore store policy batchSize clock) :=
    ⟨.empty, ⟨fun _ hc => (nomatch hc), fun _ hc => (nomatch hc)⟩⟩
  have hstocked : Stocked (documentsOf acts) (ofStore store policy batchSize clock) :=
    ⟨rfl, rfl, h.listed _, .empty⟩
  exact hstart.performAll hstocked fun _ hd => hd

/-- Whatever has been saved, loaded, refreshed, fetched and evicted over a store that was new: every entry
of the registry is one of its flow, there is one compilation of each flow and it is there under the number,
and the registry is as large as its flows are many. An eviction leaves nothing of the flow that it
gives, and everything of the others. -/
theorem registry_keeps_shape {store : Store} (h : store.Opened) (policy : RetryPolicy)
    (batchSize : Json) (clock : Int) (acts : List Act) :
    let e := (ofStore store policy batchSize clock).performAll acts
    (∀ entry c, e.registry.Maps entry c → entry ∈ Registry.entriesOf c.graph ∧
      ∃ n : Int, c.graph.id = some n ∧ e.registry.get? n = some c) ∧
    (∀ entry c entry' c', e.registry.Maps entry c → e.registry.Maps entry' c' →
      (c.graph.id = c'.graph.id ↔ c.serial = c'.serial) ∧ (c.serial = c'.serial → c = c')) ∧
    e.registry.size = e.registry.flows.length ∧
    ∀ flow, ∃ e', evict flow e = .ok (e.registry.get? flow) e' ∧
      ∀ c, e.registry.get? flow = some c → ∀ entry,
        Table.find? entry e'.registry.entries =
          if Table.find? entry e.registry.entries = some c then none
          else Table.find? entry e.registry.entries := by
  intro e
  have hfiling : Filing .empty e := filing_ofStore h policy batchSize clock acts
  have hshaped := hfiling.shaped
  refine ⟨fun entry c hc => ⟨hshaped.own entry c hc, hshaped.numbered entry c hc⟩, ?_,
    hshaped.size_eq hfiling.held, fun flow => ⟨_, rfl, ?_⟩⟩
  · intro entry c entry' c' hc hc'
    have hsame : c.serial = c'.serial → c = c' := hfiling.held.own c hc.mem_held c' hc'.mem_held
    refine ⟨⟨fun hid => ?_, fun hserial => ?_⟩, hsame⟩
    · rw [hshaped.unique hc hc' hid]
    · rw [hsame hserial]
  · intro c hc entry
    exact hshaped.find?_evict hfiling.held hc entry

/-- A flow is published and loaded. Then it is renamed, another one is published under its old shortcode,
and both are fetched: the other one by its number, the first one by its new shortcode. -/
def handOver : List Act :=
  let flow (id : Option Int) (uuid shortcode : String) : Definition :=
    ⟨some uuid, some shortcode, some "", some "", .message, some "", id, []⟩
  let document : Json := .object [("nodes", .array [])]
  [.saveFlow (flow none "u" "a"), .saveRevision 1 document .published, .loadAll none,
    .saveFlow (flow (some 1) "u" "b"), .saveFlow (flow none "v" "a"),
    .saveRevision 2 document .published, .fetch (2 : Int), .fetch (.value (.string "b"))]

/-- A shortcode that has been handed over: it evicts its new flow, and the old one is still there. -/
theorem registry_keeps_shape_handed_over :
    let e := (ofStore (.memory .empty) .standard .null 0).performAll handOver
    (Store.memory .empty).Opened ∧ e.registry.size = e.registry.flows.length ∧ e.registry.size = 2 ∧
      ∃ c e', evict (.value (.string "a")) e = .ok (some c) e' ∧ c.graph.id = some 2 ∧
        (∀ entry, ¬ e'.registry.Maps entry c) ∧
        ∃ c', e'.registry.get? (1 : Int) = some c' ∧ c'.graph.id = some 1 := by
  intro e
  have hopened : (Store.memory .empty).Opened := rfl
  obtain ⟨-, -, hsize, hevict⟩ := registry_keeps_shape hopened .standard .null 0 handOver
  have hheld : e.registry.size = 2 ∧
      (e.registry.get? (.value (.string "a"))).map (·.graph.id) = some (some 2) ∧
      (e.registry.get? (1 : Int)).map (·.graph.id) = some (some 1) := by
    decide +kernel
  obtain ⟨htwo, hsecond, hfirst⟩ := hheld
  obtain ⟨c, hc, hid⟩ := Option.map_eq_some_iff.mp hsecond
  obtain ⟨c', hc', hid'⟩ := Option.map_eq_some_iff.mp hfirst
  obtain ⟨e', he', hall⟩ := hevict (.value (.string "a"))
  have hafter := hall c hc
  refine ⟨hopened, hsize, htwo, c, e', he'.trans (by rw [hc]), hid, fun entry hmaps => ?_, c', ?_, hid'⟩
  · unfold Registry.Maps at hmaps
    rw [hafter entry] at hmaps
    split at hmaps
    · cases hmaps
    · exact absurd hmaps ‹_›
  · have hne : c' ≠ c := by
      rintro rfl
      cases hid.symm.trans hid'
    have hfound : Table.find? (Registry.entryOf (1 : Int)) e.registry.entries = some c' := hc'
    change Table.find? (Registry.entryOf (1 : Int)) e'.registry.entries = some c'
    rw [hafter, hfound, if_neg fun heq => hne (Option.some.inj heq)]

end Engine
end DurableFlow
