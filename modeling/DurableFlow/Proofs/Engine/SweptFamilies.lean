import DurableFlow.Proofs.Engine.RootedFamilies
import DurableFlow.Proofs.Engine.SparingSteps
import DurableFlow.Proofs.Engine.SuccessfulTransitions

/-! Cancellations sweep families from below. However far one gets before the store fails it, what it
has completed has nothing open below; and when it comes back, nothing below is open at all. -/
namespace DurableFlow.Engine
open DurableFlow.Action (Ensures)
open Store (Changed Current Family)
variable {e e' : Engine} {s s' s'' : Store} {c : Context} {region : String → Prop}

/-! ## Closed families -/

def Closed (s : Store) (p : String) : Prop :=
  ∀ k i r, Below s k p i → s.row? i = some r → r.completed ≠ none

def ClosedBelow (s : Store) (p : String) : Prop :=
  ∀ k i r, 0 < k → Below s k p i → s.row? i = some r → r.completed ≠ none

def Closing (s : Store) (i : String) (s' : Store) : Prop :=
  ∃ r time now, s.row? i = some r ∧ r.completed = none ∧
    s'.row? i = some (s.kind.changed [.completed (some time), .wakeup none] now r)

theorem Closing.completed {i : String} {r : Context} (h : Closing s i s') (hr : s'.row? i = some r) :
    r.completed ≠ none := by
  obtain ⟨_, _, _, _, _, hrow⟩ := h
  rw [hrow] at hr
  cases hr
  exact Option.some_ne_none _

/-- Some open rows of a region have been completed, each after everything below it. -/
structure Sweep (region : String → Prop) (s s' : Store) : Prop where
  kind : s'.kind = s.kind
  parents : SameParents s s'
  rows : ∀ i, s'.row? i = s.row? i ∨ region i ∧ Closing s i s' ∧ Closed s' i

namespace Sweep

theorem refl : Sweep region s s := ⟨rfl, fun _ => rfl, fun _ => .inl rfl⟩

theorem of_eq (h : s' = s) : Sweep region s s' := h ▸ refl

theorem mono {region' : String → Prop} (h : Sweep region s s') (hr : ∀ i, region i → region' i) :
    Sweep region' s s' :=
  ⟨h.kind, h.parents, fun i => (h.rows i).imp_right fun ⟨hi, hc⟩ => ⟨hr i hi, hc⟩⟩

/-- What is completed stays as it is. -/
theorem completed (h : Sweep region s s') {i : String} {r r' : Context} (hr : s.row? i = some r)
    (hc : r.completed ≠ none) (hr' : s'.row? i = some r') : r'.completed ≠ none := by
  rcases h.rows i with hsame | ⟨_, hclosing, _⟩
  · rw [hsame, hr] at hr'
    cases hr'
    exact hc
  · exact hclosing.completed hr'

/-- Rows are neither filed nor lost. -/
theorem row_isSome (h : Sweep region s s') {i : String} {r' : Context}
    (hr' : s'.row? i = some r') : ∃ r, s.row? i = some r := by
  rcases h.rows i with hsame | ⟨_, ⟨r, _, _, hr, _⟩, _⟩
  · exact ⟨r', hsame ▸ hr'⟩
  · exact ⟨r, hr⟩

theorem closed (h : Sweep region s s') {p : String} (hc : Closed s p) : Closed s' p := by
  intro k i r' hb hr'
  obtain ⟨r, hr⟩ := h.row_isSome hr'
  exact h.completed hr (hc k i r ((Below.congr h.parents).mp hb) hr) hr'

theorem trans (h : Sweep region s s') (h' : Sweep region s' s'') : Sweep region s s'' := by
  refine ⟨h'.kind.trans h.kind, fun i => (h'.parents i).trans (h.parents i), ?_⟩
  intro i
  rcases h'.rows i with hsame' | ⟨hi, ⟨r, time, now, hr, ho, hr'⟩, hclosed'⟩
  · rcases h.rows i with hsame | ⟨hi, ⟨r, time, now, hr, ho, hr'⟩, hclosed⟩
    · exact .inl (hsame'.trans hsame)
    · exact .inr ⟨hi, ⟨r, time, now, hr, ho, hsame'.trans hr'⟩, h'.closed hclosed⟩
  · rcases h.rows i with hsame | ⟨_, hclosing, _⟩
    · exact .inr ⟨hi, ⟨r, time, now, hsame ▸ hr, ho, h.kind ▸ hr'⟩, hclosed'⟩
    · exact absurd ho (hclosing.completed hr)

end Sweep

theorem sameParents_of_changed {i : String} {chs : List Context.Change} {now : Moment} {r : Context}
    (h : Changed s i chs now r s') : SameParents s s' := by
  intro j
  by_cases hj : j = i
  · subst hj
    rw [parentOf, parentOf, h.row, h.found]
    exact (Context.SameFrame.changed _ _ _ _).parent
  · rw [parentOf, parentOf, h.others j hj]

private theorem sweep_of_changed {i : String} {time now : Moment} {r : Context}
    (h : Changed s i [.completed (some time), .wakeup none] now r s') (ho : r.completed = none)
    (hi : region i) (hb : ClosedBelow s i) : Sweep region s s' ∧ Closed s' i := by
  have hparents := sameParents_of_changed h
  have hclosing : Closing s i s' := ⟨r, time, now, h.found, ho, h.row⟩
  have hclosed : Closed s' i := by
    intro k j rj hbelow hrj
    by_cases hj : j = i
    · exact hclosing.completed (hj ▸ hrj)
    · have hk : 0 < k := Nat.pos_of_ne_zero fun hzero => by
        subst hzero
        exact hj hbelow.symm
      exact hb k j rj hk ((Below.congr hparents).mp hbelow) (h.others j hj ▸ hrj)
  refine ⟨⟨h.kind, hparents, ?_⟩, hclosed⟩
  intro j
  by_cases hj : j = i
  · subst hj
    exact .inr ⟨hi, hclosing, hclosed⟩
  · exact .inl (h.others j hj)

/-! ## Completing one context -/

private theorem complete_changes (he : e.Ready) {i : String} (hid : c.id = some i) :
    Ensures (Action.holding c complete) e
      (fun _ e' => ∃ r time now,
        Changed e.store i [.completed (some time), .wakeup none] now r e'.store)
      (fun f e' => e'.store = e.store ∧ f.isPlain = true) := by
  apply Ensures.holding
  refine ((complete_heldSpares e c).and
    (Ensures.and (complete_handles he) (complete_outcome he))).mono ?_ ?_
  · rintro _ g ⟨_, ⟨_, ⟨_, hheld⟩ | ⟨d, ⟨t, rfl⟩, i', r, time, updated, hid', _, hch, _, _⟩⟩, ho, hclosed⟩
    · have hcompleted : g.held.unbound.completed = c.unbound.completed :=
        congrArg Context.completed hheld
      exact absurd (hcompleted.trans ho) hclosed
    · have hi : i' = i := Option.some.inj (hid'.symm.trans hid)
      subst hi
      exact ⟨r, t, time, hch⟩
  · rintro f g ⟨⟨_, hplain⟩, _, hu⟩
    exact ⟨hu.store, hplain⟩

/-! ## Sweeping families -/

structure Broken (region : String → Prop) (e : Engine) (f : Failure) (e' : Engine) : Prop where
  sweep : Sweep region e.store e'.store
  plain : f.isPlain = true

private theorem Broken.after {e₁ : Engine} {f : Failure} (h : Broken region e₁ f e')
    (hs : Sweep region e.store e₁.store) : Broken region e f e' :=
  ⟨hs.trans h.sweep, h.plain⟩

private theorem complete_sweeps (he : e.Ready) (hcur : Current e.store c) {i : String}
    (hid : c.id = some i) (ho : c.completed = none) (hi : region i) (hb : ClosedBelow e.store i) :
    Ensures (Action.holding c complete) e
      (fun _ e' => Completes i e e' ∧ Sweep region e.store e'.store ∧ Closed e'.store i)
      (fun f e' => e'.store = e.store ∧ f.isPlain = true) := by
  refine ((complete_ensures he hcur hid).and (complete_changes he hid)).mono ?_ (fun _ _ hf => hf.2)
  rintro _ e₁ ⟨⟨hcompletes, _⟩, r, time, now, hch⟩
  obtain ⟨_, hm⟩ := hcur.row hid hch.found
  exact ⟨hcompletes, sweep_of_changed hch (hm.completed_eq_none.mpr ho) hi hb⟩

private theorem closed_of_current (hcur : Current s c) {i : String} (hid : c.id = some i)
    (hc : c.completed ≠ none) (hb : ClosedBelow s i) : Closed s i := by
  intro k j r hbelow hr
  rcases Nat.eq_zero_or_pos k with rfl | hk
  · cases hbelow
    obtain ⟨_, hm⟩ := hcur.row hid hr
    exact fun hnone => hc (hm.completed_eq_none.mp hnone)
  · exact hb k j r hk hbelow hr

private theorem cancelEach_sweeps {depth : Nat}
    (hrec : ∀ (e : Engine) (p : String), e.Ready → p ≠ "" → Shallow e.store depth p →
      (∀ k j, 0 < k → Below e.store k p j → region j) →
      Ensures (cancelChildren (some p) depth) e
        (fun _ e' => Sweep region e.store e'.store ∧ ClosedBelow e'.store p)
        (fun f e' => Broken region e f e'))
    {cs : List Context} {p : String} (he : e.Ready) (hs : Siblings e.store p cs)
    (hdepth : ∀ c ∈ cs, ∀ i, c.id = some i → Shallow e.store depth i)
    (hregion : ∀ c ∈ cs, ∀ i k j, c.id = some i → Below e.store k i j → region j) :
    Ensures (cancelEach depth cs) e
      (fun _ e' => Sweep region e.store e'.store ∧ ∀ c ∈ cs, ∀ i, c.id = some i → Closed e'.store i)
      (fun f e' => Broken region e f e') := by
  induction cs generalizing e with
  | nil =>
    rw [cancelEach]
    refine Ensures.pure ⟨.refl, ?_⟩
    intro c hc
    cases hc
  | cons c rest ih =>
    rw [cancelEach]
    obtain ⟨i, hid, hparent⟩ := hs.parent c List.mem_cons_self
    obtain ⟨r, hr⟩ := (hs.current c List.mem_cons_self).exists_row hid
    have hne := he.id_ne_empty hr
    have hown (k : Nat) (j : String) (hb : Below e.store k i j) : region j :=
      hregion c List.mem_cons_self i k j hid hb
    apply Ensures.bind
    rw [hid]
    refine ((cancelChildren_ensures depth he hne).and (hrec e i he hne
      (hdepth c List.mem_cons_self i hid) fun k j _ hb => hown k j hb)).mono ?_ (fun _ _ hf => hf.2)
    rintro _ e₁ ⟨h₁, hsweep₁, hbelow⟩
    obtain ⟨hcur, hsiblings⟩ := hs.of_cancelled hid h₁
    have hnext (e₂ : Engine) (h₂ : Completes i e₁ e₂) (hsweep₂ : Sweep region e₁.store e₂.store)
        (hclosed : Closed e₂.store i) :
        Ensures (cancelEach depth rest) e₂
          (fun _ e' => Sweep region e.store e'.store ∧
            ∀ x ∈ c :: rest, ∀ j, x.id = some j → Closed e'.store j)
          (fun f e' => Broken region e f e') := by
      have hsweep := hsweep₁.trans hsweep₂
      have hnot : some i ∉ rest.map Context.id := hid ▸ (List.nodup_cons.mp hs.once).1
      refine (ih h₂.moves.ready (hsiblings.of_completes h₂ hnot) ?_ ?_).mono ?_ ?_
      · intro x hx j hj
        exact (Shallow.congr hsweep.parents).mpr (hdepth x (List.mem_cons_of_mem _ hx) j hj)
      · intro x hx j k l hj hb
        exact hregion x (List.mem_cons_of_mem _ hx) j k l hj ((Below.congr hsweep.parents).mp hb)
      · rintro _ e₃ ⟨hsweep₃, hall⟩
        refine ⟨hsweep.trans hsweep₃, ?_⟩
        intro x hx j hj
        rcases List.mem_cons.mp hx with rfl | hx
        · rw [hid] at hj
          cases hj
          exact hsweep₃.closed hclosed
        · exact hall x hx j hj
      · intro f e₃ hbroken
        exact hbroken.after hsweep
    dsimp only
    split
    · rename_i ho
      have hopen : c.completed = none := by simpa [Context.isCompleted] using ho
      apply Ensures.bind
      apply Ensures.discard
      refine (complete_sweeps h₁.moves.ready hcur hid hopen (hown 0 i rfl) hbelow).mono ?_ ?_
      · rintro _ e₂ ⟨h₂, hsweep₂, hclosed⟩
        exact hnext e₂ h₂ hsweep₂ hclosed
      · rintro f e₂ ⟨hstore, hplain⟩
        exact ⟨hsweep₁.trans (.of_eq hstore), hplain⟩
    · rename_i ho
      have hdone : c.completed ≠ none := fun hnone => ho (by simp [Context.isCompleted, hnone])
      exact hnext e₁ ⟨.refl h₁.moves.ready, fun _ => rfl, fun _ _ => rfl⟩ .refl
        (closed_of_current hcur hid hdone hbelow)

/-- A cancellation of a family that is deep enough comes back, unless the store fails it. -/
theorem cancelChildren_sweeps (depth : Nat) (he : e.Ready) {p : String} (hp : p ≠ "")
    (hdepth : Shallow e.store depth p)
    (hregion : ∀ k j, 0 < k → Below e.store k p j → region j) :
    Ensures (cancelChildren (some p) depth) e
      (fun _ e' => Sweep region e.store e'.store ∧ ClosedBelow e'.store p)
      (fun f e' => Broken region e f e') := by
  induction depth generalizing e p with
  | zero => exact absurd rfl (hdepth p)
  | succ depth ih =>
    rw [cancelChildren]
    apply Ensures.bind
    refine ((ask_ensures .children _ he.alone).and
      (ask_spares .children (Store.children_plainly (some p)) e)).mono ?_ ?_
    · rintro cs e₁ ⟨⟨hq, hcs⟩, _⟩
      have hfamily : Family e.store p cs := he.sound.children_family hp hcs
      have hsiblings := siblings_of_family hfamily
      have he₁ := he.quiet hq
      rw [← hq.store] at hfamily hsiblings hdepth hregion ⊢
      refine (cancelEach_sweeps (fun e p he hp => ih he hp) he₁ hsiblings ?_ ?_).mono ?_ ?_
      · intro c hc i hid j hb
        obtain ⟨i', hid', hparent⟩ := hsiblings.parent c hc
        rw [hid] at hid'
        cases hid'
        exact hdepth j ⟨i, hparent, hb⟩
      · intro c hc i k j hid hb
        obtain ⟨i', hid', hparent⟩ := hsiblings.parent c hc
        rw [hid] at hid'
        cases hid'
        exact hregion (k + 1) j (Nat.succ_pos k) ⟨i, hparent, hb⟩
      · rintro _ e₂ ⟨hsweep, hall⟩
        refine ⟨hsweep, ?_⟩
        intro k j rj hk hb hrj
        obtain ⟨k, rfl⟩ : ∃ n, k = n + 1 := ⟨k - 1, by omega⟩
        obtain ⟨i, hparent, hb⟩ := hb
        rw [hsweep.parents] at hparent
        obtain ⟨r, hr, hp⟩ := Option.bind_eq_some_iff.mp hparent
        obtain ⟨c, hc, hid⟩ := hfamily.all i r hr hp
        exact hall c hc i hid k j rj hb hrj
      · intro f e₂ hbroken
        exact ⟨hq.store ▸ hbroken.sweep, hbroken.plain⟩
    · rintro f e₁ ⟨hq, _, hplain⟩
      exact ⟨.of_eq hq.store, hplain⟩

/-! ## Cancellations -/

private theorem stored_plain (id : Option String) (e : Engine) :
    Ensures (stored id) e (fun _ _ => True) (fun f _ => f.isPlain = true) := by
  unfold stored
  apply Ensures.bind
  refine (ask_spares .getContext (Store.getContext_plainly id) e).mono ?_ (fun _ _ hf => hf.2)
  intro found e' _
  split
  · exact Ensures.throw rfl
  · exact Ensures.pure trivial

/-- In a rooted store a cancellation closes the family of an open context. Whenever it fails it has
not yet completed the context itself, and it never fails for want of depth. -/
theorem cancel_sweeps (he : e.Ready) (hroot : Rooted e.store) (i : String) :
    Ensures (cancel (some i) true) e
      (fun _ e' => Sweep (fun j => ∃ k, Below e.store k i j) e.store e'.store ∧ Closed e'.store i)
      (fun f e' => Broken (fun j => ∃ k, 0 < k ∧ Below e.store k i j) e f e') := by
  unfold cancel
  apply Ensures.bind
  refine ((stored_ensures he i).and (stored_plain (some i) e)).mono ?_ ?_
  · rintro c e₁ ⟨⟨hq, hcopied, hid⟩, _⟩
    have he₁ := he.quiet hq
    have hcur : Current e₁.store c := hq.store ▸ hcopied.current
    have hstart : Sweep (fun j => ∃ k, 0 < k ∧ Below e.store k i j) e.store e₁.store :=
      .of_eq hq.store
    dsimp only
    split
    · exact Ensures.throw ⟨hstart, rfl⟩
    · rename_i ho
      have hopen : c.completed = none := by simpa [Context.isCompleted] using ho
      obtain ⟨r, hr⟩ := hcur.exists_row hid
      apply Ensures.bind
      apply Ensures.get
      apply Ensures.bind
      have hdepth : Shallow e₁.store (e₁.store.contextCount + 1) i :=
        hq.store ▸ hroot.shallow i
      have hchildren : Ensures (cancelChildren (some i) (e₁.store.contextCount + 1)) e₁
          (fun _ e' => Sweep (fun j => ∃ k, 0 < k ∧ Below e.store k i j) e₁.store e'.store ∧
            ClosedBelow e'.store i)
          (fun f e' => Broken (fun j => ∃ k, 0 < k ∧ Below e.store k i j) e₁ f e') :=
        cancelChildren_sweeps _ he₁ (he₁.id_ne_empty hr) hdepth
          fun k j hk hb => ⟨k, hk, hq.store ▸ hb⟩
      refine ((cancelChildren_ensures _ he₁ (he₁.id_ne_empty hr)).and hchildren).mono ?_ ?_
      · rintro _ e₂ ⟨hcancelled, hsweep, hbelow⟩
        have hsweep := hstart.trans hsweep
        have hrow : e₂.store.row? i = e₁.store.row? i := by
          rcases hsweep.rows i with hsame | ⟨⟨k, hk, hcycle⟩, _⟩
          · rw [hsame, hq.store]
          · exact absurd hcycle (hroot.acyclic k i hk)
        have hcur₂ := current_of_row hcur hid hrow hcancelled.moves.evolves.kind
        apply Ensures.bind
        have hlast : Ensures (Action.holding c complete) e₂
            (fun _ e₃ => Completes i e₂ e₃ ∧
              Sweep (fun j => ∃ k, Below e.store k i j) e₂.store e₃.store ∧ Closed e₃.store i)
            (fun f e₃ => e₃.store = e₂.store ∧ f.isPlain = true) :=
          complete_sweeps hcancelled.moves.ready hcur₂ hid hopen ⟨0, rfl⟩ hbelow
        refine hlast.mono ?_ ?_
        · rintro _ e₃ ⟨_, hsweep₃, hclosed⟩
          have hwhole : Sweep (fun j => ∃ k, Below e.store k i j) e.store e₂.store := by
            apply hsweep.mono
            rintro j ⟨k, _, hb⟩
            exact ⟨k, hb⟩
          exact Ensures.pure ⟨hwhole.trans hsweep₃, hclosed⟩
        · rintro f e₃ ⟨hstore, hplain⟩
          exact ⟨hsweep.trans (.of_eq hstore), hplain⟩
      · rintro f e₂ ⟨_, hbroken⟩
        exact ⟨hstart.trans hbroken.sweep, hbroken.plain⟩
  · rintro f e₁ ⟨hq, hplain⟩
    exact ⟨.of_eq hq.store, hplain⟩

end DurableFlow.Engine
