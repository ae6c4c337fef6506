import DurableFlow.Engine.Cancel
import DurableFlow.Proofs.Engine.EngineOperations

/-! Cancelling a family. The copies are read before the families below them are cancelled, yet each
is current when it is completed: a cancellation that comes back has found no cycle of parents, so
what it completes below a copy is neither the copy itself nor one of its siblings. -/
namespace DurableFlow.Engine
open DurableFlow.Action (Ensures)
open Store (Copied Current Deed Evolves Family Fits)
variable {e e' : Engine} {s s' : Store} {c : Context}

/-! ## Chains of parents -/

def parentOf (s : Store) (i : String) : Option String := (s.row? i).bind Context.parent

def Below (s : Store) : Nat → String → String → Prop
  | 0, p, i => p = i
  | n + 1, p, i => ∃ j, parentOf s j = some p ∧ Below s n j i

def Shallow (s : Store) (depth : Nat) (p : String) : Prop := ∀ i, ¬ Below s depth p i

def SameParents (s s' : Store) : Prop := ∀ i, parentOf s' i = parentOf s i

theorem Below.congr (h : SameParents s s') {n : Nat} {p i : String} :
    Below s' n p i ↔ Below s n p i := by
  induction n generalizing p with
  | zero => exact Iff.rfl
  | succ n ih => simp only [Below, h _, ih]

theorem Shallow.congr (h : SameParents s s') {n : Nat} {p : String} :
    Shallow s' n p ↔ Shallow s n p := by
  simp only [Shallow, Below.congr h]

theorem Below.trans {m n : Nat} {p q i : String} (h : Below s m p q) (h' : Below s n q i) :
    Below s (m + n) p i := by
  induction m generalizing p with
  | zero =>
    cases h
    rwa [Nat.zero_add]
  | succ m ih =>
    obtain ⟨j, hj, hb⟩ := h
    rw [Nat.add_right_comm]
    exact ⟨j, hj, ih hb⟩

theorem Below.split {m n : Nat} {p i : String} (h : Below s (m + n) p i) :
    ∃ q, Below s m p q ∧ Below s n q i := by
  induction m generalizing p with
  | zero => exact ⟨p, rfl, by rwa [Nat.zero_add] at h⟩
  | succ m ih =>
    rw [Nat.add_right_comm] at h
    obtain ⟨j, hj, hb⟩ := h
    obtain ⟨q, hq, hi⟩ := ih hb
    exact ⟨q, ⟨j, hj, hq⟩, hi⟩

private theorem below_one {p i : String} : Below s 1 p i ↔ parentOf s i = some p := by
  simp [Below]

private theorem below_cycle {k : Nat} {p : String} (h : Below s k p p) (n : Nat) :
    Below s (k * n) p p := by
  induction n with
  | zero => exact rfl
  | succ n ih => exact ih.trans h

/-- A cycle has chains of every length. -/
theorem Shallow.no_cycle {depth k : Nat} {p : String} (h : Shallow s depth p) (hk : 0 < k) :
    ¬ Below s k p p := by
  intro hb
  have hlong := below_cycle hb depth
  have hle : depth ≤ k * depth := Nat.le_mul_of_pos_left depth hk
  rw [← Nat.add_sub_cancel' hle] at hlong
  obtain ⟨q, hq, _⟩ := hlong.split
  exact h q hq

/-- What lies below a context is none of its siblings either. -/
theorem Shallow.no_sibling {depth k : Nat} {p i j : String} (h : Shallow s depth i) (hk : 0 < k)
    (hi : parentOf s i = some p) (hj : parentOf s j = some p) : ¬ Below s k i j := by
  intro hb
  obtain ⟨m, rfl⟩ : ∃ m, k = m + 1 := ⟨k - 1, by omega⟩
  obtain ⟨q, hq, hlast⟩ := hb.split
  rw [below_one, hj] at hlast
  cases hlast
  exact h.no_cycle (Nat.succ_pos m) (hq.trans (below_one.mpr hi))

/-! ## Completing one context -/

/-- A copy stays current while its row stays. -/
theorem current_of_row {i : String} (h : Current s c) (hid : c.id = some i)
    (hr : s'.row? i = s.row? i) (hk : s'.kind = s.kind) : Current s' c := by
  obtain ⟨r, hi⟩ := h.exists_row hid
  obtain ⟨hv, hm⟩ := h.row hid hi
  exact ⟨i, r, hid, hr.trans hi, hv, hk ▸ hm⟩

/-- What the completion of one context does, and that it does it to no other. -/
structure Completes (i : String) (e e' : Engine) : Prop where
  moves : Moves Unrecorded e e'
  parents : SameParents e.store e'.store
  others : ∀ j, j ≠ i → e'.store.row? j = e.store.row? j

theorem complete_ensures (he : e.Ready) (hc : Current e.store c) {i : String}
    (hid : c.id = some i) : Ensures (Action.holding c complete) e
      (fun p e' => Completes i e e' ∧ Current e'.store p.2) (fun _ e' => Moves Unrecorded e e') := by
  have hgoal (g : Holding Engine Context)
      (hh : Handled (fun d => ∃ t, d = .finish t) e c g) :
      Completes i e g.state ∧ Current g.state.store g.held := by
    obtain ⟨hr, hv, hcur⟩ := hh.follows hc
    have hothers := hh.acted.others hid
    refine ⟨⟨⟨hr, hv.mono unrecorded_of_finish⟩, ?_, hothers⟩, hcur⟩
    intro j
    by_cases hj : j = i
    · obtain ⟨r, hrow⟩ := hc.exists_row hid
      obtain ⟨r', hrow', hl⟩ := hv.kept i r hrow
      rw [hj, parentOf, parentOf, hrow, hrow']
      exact hl.parent
    · rw [parentOf, parentOf, hothers j hj]
  apply Ensures.holding
  refine Ensures.mono (complete_handles he) (fun _ g hh => hgoal g hh) ?_
  intro _ g hh
  exact (hgoal g hh).1.moves

/-! ## Cancelling families -/

/-- The family below a context has been cancelled: all chains from there are shorter than the depth,
and only rows below have changed. -/
structure Cancelled (depth : Nat) (p : String) (e e' : Engine) : Prop where
  moves : Moves Unrecorded e e'
  parents : SameParents e.store e'.store
  shallow : Shallow e.store depth p
  below : ∀ i, e'.store.row? i ≠ e.store.row? i → ∃ k, 0 < k ∧ Below e.store k p i

structure Siblings (s : Store) (p : String) (cs : List Context) : Prop where
  current : ∀ c ∈ cs, Current s c
  once : (cs.map Context.id).Nodup
  parent : ∀ c ∈ cs, ∃ i, c.id = some i ∧ parentOf s i = some p

theorem siblings_of_family {p : String} {cs : List Context} (h : Family s p cs) :
    Siblings s p cs := by
  refine ⟨fun c hc => (h.copied c hc).1.current, h.once, ?_⟩
  intro c hc
  obtain ⟨⟨i, r, hid, hr, he⟩, hp⟩ := h.copied c hc
  refine ⟨i, hid, ?_⟩
  rw [parentOf, hr]
  exact (congrArg Context.parent he).symm.trans hp

private theorem Siblings.tail {p : String} {cs : List Context} (h : Siblings s p (c :: cs)) :
    Siblings s p cs :=
  ⟨fun x hx => h.current x (List.mem_cons_of_mem _ hx), (List.nodup_cons.mp h.once).2,
    fun x hx => h.parent x (List.mem_cons_of_mem _ hx)⟩

private theorem Siblings.congr {p : String} {cs : List Context} (h : Siblings s p cs)
    (hp : SameParents s s') (hk : s'.kind = s.kind)
    (hrow : ∀ x ∈ cs, ∀ j, x.id = some j → s'.row? j = s.row? j) : Siblings s' p cs := by
  constructor
  · intro x hx
    obtain ⟨j, hj, _⟩ := h.parent x hx
    exact current_of_row (h.current x hx) hj (hrow x hx j hj) hk
  · exact h.once
  · intro x hx
    obtain ⟨j, hj, hpar⟩ := h.parent x hx
    exact ⟨j, hj, (hp j).trans hpar⟩

/-- The family below a sibling contains neither the sibling nor those that come after it. -/
theorem Siblings.of_cancelled {depth : Nat} {p i : String} {e₁ : Engine}
    {rest : List Context} (hs : Siblings e.store p (c :: rest)) (hid : c.id = some i)
    (hc : Cancelled depth i e e₁) : Current e₁.store c ∧ Siblings e₁.store p rest := by
  obtain ⟨i', hi', hparent⟩ := hs.parent c List.mem_cons_self
  rw [hid] at hi'
  cases hi'
  have hself : e₁.store.row? i = e.store.row? i := by
    refine Classical.byContradiction fun hne => ?_
    obtain ⟨k, hk, hb⟩ := hc.below i hne
    exact hc.shallow.no_cycle hk hb
  have hrest (x : Context) (hx : x ∈ rest) (j : String) (hj : x.id = some j) :
      e₁.store.row? j = e.store.row? j := by
    refine Classical.byContradiction fun hne => ?_
    obtain ⟨k, hk, hb⟩ := hc.below j hne
    obtain ⟨j', hj', hparent'⟩ := hs.parent x (List.mem_cons_of_mem _ hx)
    rw [hj] at hj'
    cases hj'
    exact hc.shallow.no_sibling hk hparent hparent' hb
  have hkind := hc.moves.evolves.kind
  exact ⟨current_of_row (hs.current c List.mem_cons_self) hid hself hkind,
    hs.tail.congr hc.parents hkind hrest⟩

theorem Siblings.of_completes {p i : String} {cs : List Context}
    (hs : Siblings e.store p cs) (hc : Completes i e e') (hi : some i ∉ cs.map Context.id) :
    Siblings e'.store p cs := by
  refine hs.congr hc.parents hc.moves.evolves.kind ?_
  intro x hx j hj
  apply hc.others
  rintro rfl
  exact hi (List.mem_map.mpr ⟨x, hx, hj⟩)

private theorem SameParents.trans {s'' : Store} (h : SameParents s s') (h' : SameParents s' s'') :
    SameParents s s'' := fun i => (h' i).trans (h i)

/-- All of some siblings have been cancelled, each with the family below it. -/
structure AllCancelled (depth : Nat) (cs : List Context) (e e' : Engine) : Prop where
  moves : Moves Unrecorded e e'
  parents : SameParents e.store e'.store
  shallow : ∀ c ∈ cs, ∀ i, c.id = some i → Shallow e.store depth i
  below : ∀ i, e'.store.row? i ≠ e.store.row? i →
    ∃ c ∈ cs, ∃ j k, c.id = some j ∧ Below e.store k j i

private theorem AllCancelled.cons {depth : Nat} {i : String} {rest : List Context}
    {e₁ e₂ e₃ : Engine} (hid : c.id = some i) (h₁ : Cancelled depth i e e₁)
    (h₂ : Completes i e₁ e₂) (h₃ : AllCancelled depth rest e₂ e₃) :
    AllCancelled depth (c :: rest) e e₃ := by
  have hparents : SameParents e.store e₂.store := h₁.parents.trans h₂.parents
  refine ⟨(h₁.moves.trans h₂.moves).trans h₃.moves, hparents.trans h₃.parents, ?_, ?_⟩
  · intro x hx j hj
    rcases List.mem_cons.mp hx with rfl | hrest
    · rw [hid] at hj
      cases hj
      exact h₁.shallow
    · exact (Shallow.congr hparents).mp (h₃.shallow x hrest j hj)
  · intro j hne
    by_cases hji : j = i
    · exact ⟨c, List.mem_cons_self, i, 0, hid, hji.symm⟩
    · by_cases h₃j : e₃.store.row? j = e₂.store.row? j
      · rw [h₃j, h₂.others j hji] at hne
        obtain ⟨k, _, hb⟩ := h₁.below j hne
        exact ⟨c, List.mem_cons_self, i, k, hid, hb⟩
      · obtain ⟨x, hx, j', k, hj', hb⟩ := h₃.below j h₃j
        exact ⟨x, List.mem_cons_of_mem _ hx, j', k, hj', (Below.congr hparents).mp hb⟩

private theorem cancelEach_ensures {depth : Nat}
    (hrec : ∀ (e : Engine) (p : String), e.Ready → p ≠ "" →
      Ensures (cancelChildren (some p) depth) e (fun _ e' => Cancelled depth p e e')
        (fun _ e' => Moves Unrecorded e e'))
    {cs : List Context} {p : String} (he : e.Ready) (hs : Siblings e.store p cs) :
    Ensures (cancelEach depth cs) e (fun _ e' => AllCancelled depth cs e e')
      (fun _ e' => Moves Unrecorded e e') := by
  induction cs generalizing e with
  | nil =>
    rw [cancelEach]
    refine Ensures.pure ⟨.refl he, fun _ => rfl, ?_, fun i hne => absurd rfl hne⟩
    intro c hc
    cases hc
  | cons c rest ih =>
    rw [cancelEach]
    obtain ⟨i, hid, hparent⟩ := hs.parent c List.mem_cons_self
    obtain ⟨r, hr⟩ := (hs.current c List.mem_cons_self).exists_row hid
    have hne := he.id_ne_empty hr
    apply Ensures.bind
    rw [hid]
    refine (hrec e i he hne).mono ?_ (fun _ _ hm => hm)
    intro _ e₁ h₁
    obtain ⟨hcur, hsiblings⟩ := hs.of_cancelled hid h₁
    have hnext (e₂ : Engine) (h₂ : Completes i e₁ e₂) :
        Ensures (cancelEach depth rest) e₂ (fun _ e' => AllCancelled depth (c :: rest) e e')
          (fun _ e' => Moves Unrecorded e e') := by
      have hnot : some i ∉ rest.map Context.id := hid ▸ (List.nodup_cons.mp hs.once).1
      refine (ih h₂.moves.ready (hsiblings.of_completes h₂ hnot)).mono ?_ ?_
      · intro _ e₃ h₃
        exact .cons hid h₁ h₂ h₃
      · intro _ e₃ hm
        exact (h₁.moves.trans h₂.moves).trans hm
    dsimp only
    split
    · apply Ensures.bind
      apply Ensures.discard
      refine (complete_ensures h₁.moves.ready hcur hid).mono ?_ (fun _ _ hm => h₁.moves.trans hm)
      rintro _ e₂ ⟨h₂, _⟩
      exact hnext e₂ h₂
    · exact hnext e₁ ⟨.refl h₁.moves.ready, fun _ => rfl, fun _ _ => rfl⟩

/-- A cancellation of a family that comes back has reached the end of every chain below. -/
theorem cancelChildren_ensures (depth : Nat) (he : e.Ready) {p : String} (hp : p ≠ "") :
    Ensures (cancelChildren (some p) depth) e (fun _ e' => Cancelled depth p e e')
      (fun _ e' => Moves Unrecorded e e') := by
  induction depth generalizing e p with
  | zero =>
    rw [cancelChildren]
    exact Ensures.throw (.refl he)
  | succ depth ih =>
    rw [cancelChildren]
    apply Ensures.bind
    refine (ask_ensures .children _ he.alone).mono ?_ (fun _ _ hq => .of_quiet he hq)
    rintro cs e₁ ⟨hq, hcs⟩
    have hfamily : Family e₁.store p cs := hq.store ▸ he.sound.children_family hp hcs
    have hm : Moves Unrecorded e e₁ := .of_quiet he hq
    refine (cancelEach_ensures (fun e p he hp => ih he hp) hm.ready
      (siblings_of_family hfamily)).mono ?_ (fun _ _ hm' => hm.trans hm')
    intro _ e₂ h
    have hstore : e₁.store = e.store := hq.store
    refine ⟨hm.trans h.moves, hstore ▸ h.parents, ?_, ?_⟩
    · rintro i ⟨j, hj, hb⟩
      rw [← hstore] at hj hb
      obtain ⟨r, hr, hparent⟩ := Option.bind_eq_some_iff.mp hj
      obtain ⟨c, hc, hid⟩ := hfamily.all j r hr hparent
      exact h.shallow c hc j hid i hb
    · intro i hne
      rw [← hstore] at hne
      obtain ⟨c, hc, j, k, hid, hb⟩ := h.below i hne
      obtain ⟨j', hj', hparent⟩ := (siblings_of_family hfamily).parent c hc
      rw [hid] at hj'
      cases hj'
      rw [hstore] at hb hparent
      exact ⟨k + 1, Nat.succ_pos k, j, hparent, hb⟩

/-- A cancellation completes open rows and nothing else, also when it fails half-way. -/
theorem cancel_ensures (he : e.Ready) (i : String) (cascade : Bool) :
    Ensures (cancel (some i) cascade) e
      (fun c e' => Moves Unrecorded e e' ∧ Fits e'.store c)
      (fun _ e' => Moves Unrecorded e e') := by
  unfold cancel
  apply Ensures.bind
  refine (stored_ensures he i).mono ?_ (fun _ _ hq => .of_quiet he hq)
  rintro c e₁ ⟨hq, hcopied, hid⟩
  have hm : Moves Unrecorded e e₁ := .of_quiet he hq
  have hlast (e₂ : Engine) (hm₂ : Moves Unrecorded e e₂) (hc : Current e₂.store c) :
      Ensures (do return (← Action.holding c complete).2 : Run Context) e₂
        (fun c e' => Moves Unrecorded e e' ∧ Fits e'.store c)
        (fun _ e' => Moves Unrecorded e e') := by
    apply Ensures.bind
    refine (complete_ensures hm₂.ready hc hid).mono ?_ (fun _ _ hm' => hm₂.trans hm')
    rintro ⟨_, c'⟩ e₃ ⟨h, hcur⟩
    exact Ensures.pure ⟨hm₂.trans h.moves, hcur.fits⟩
  have hcur : Current e₁.store c := hq.store ▸ hcopied.current
  split
  · dsimp only
    split
    · exact Ensures.throw hm
    · obtain ⟨r, hr⟩ := hcur.exists_row hid
      have hne := hm.ready.id_ne_empty hr
      apply Ensures.bind
      apply Ensures.get
      apply Ensures.bind
      refine (cancelChildren_ensures _ hm.ready hne).mono ?_ (fun _ _ hm' => hm.trans hm')
      intro _ e₂ h
      have hrow : e₂.store.row? i = e₁.store.row? i := by
        refine Classical.byContradiction fun hne => ?_
        obtain ⟨k, hk, hb⟩ := h.below i hne
        exact h.shallow.no_cycle hk hb
      exact hlast e₂ (hm.trans h.moves) (current_of_row hcur hid hrow h.moves.evolves.kind)
  · dsimp only
    split
    · exact Ensures.throw hm
    · exact hlast e₁ hm hcur

end DurableFlow.Engine
