import DurableFlow.Proofs.Engine.Disciplines

/-! Labels of copies. The contact, the flow and the parent of a row never change, so every copy has
them however stale it is; and a copy at the version of its row also has the two times of the row. -/
namespace DurableFlow
open DurableFlow.Action (Ensures)
open Engine (Discipline Started Wrote)

namespace Store
variable {k : Kind} {s s' s'' : Store} {i : String} {r r' r'' c c' : Context}

/-! ## Labels -/

/-- What a copy says of the fields that no deed changes. Outside memory a contact is kept as it is if
it is a number; on a server a missing UUID is kept as an empty one, and an empty parent as none. -/
structure Labelled (k : Kind) (r c : Context) : Prop where
  contact : (k ≠ .memory → ∃ n, c.contact = .int n) → k.told r.contact = c.contact
  flow : r.flow = c.flow
  flowUuid : (k = .keys → c.flowUuid ≠ none) → r.flowUuid = c.flowUuid
  parent : (k = .keys → c.parent ≠ some "") → r.parent = c.parent

/-- The two times of a row are those of a copy, each as the store keeps it. -/
structure TimesMirror (k : Kind) (r c : Context) : Prop where
  wakeup : r.wakeup = c.wakeup.map k.time
  completed : r.completed = c.completed.map k.time

private theorem told_contact {v : Json} (h : k ≠ .memory → ∃ n, v = .int n) :
    k.told (k.contact v) = v := by
  cases k with
  | memory => rfl
  | rows =>
    obtain ⟨n, rfl⟩ := h (by decide)
    simp only [Kind.contact, Rows.cell]
    cases Rows.checkSize n <;> rfl
  | keys =>
    obtain ⟨n, rfl⟩ := h (by decide)
    rfl

private theorem flowUuid_filed (h : k = .keys → c.flowUuid ≠ none) :
    (k.filed c).flowUuid = c.flowUuid := by
  simp only [Kind.filed]
  split
  · rename_i hk
    obtain ⟨u, hu⟩ := Option.ne_none_iff_exists'.mp (h hk)
    rw [hu]
    rfl
  · rfl

private theorem parent_filed (h : k = .keys → c.parent ≠ some "") :
    (k.filed c).parent = c.parent := by
  simp only [Kind.filed]
  split
  · rename_i hk
    have hne := h hk
    cases hp : c.parent with
    | none => rfl
    | some p =>
      have hp' : p ≠ "" := fun he => hne (by rw [hp, he])
      simp [hp']
  · rfl

theorem labelled_filed (k : Kind) (c : Context) : Labelled k (k.filed c) c :=
  ⟨told_contact, rfl, flowUuid_filed, parent_filed⟩

/-- Neither a change of the row nor one of the copy touches the labels. -/
theorem Labelled.framed (h : Labelled k r c) (hr : r.SameFrame r') (hc : c.SameFrame c') :
    Labelled k r' c' where
  contact := by
    rw [hr.contact, hc.contact]
    exact h.contact
  flow := by
    rw [hr.flow, hc.flow]
    exact h.flow
  flowUuid := by
    rw [hr.flowUuid, hc.flowUuid]
    exact h.flowUuid
  parent := by
    rw [hr.parent, hc.parent]
    exact h.parent

/-! ## Ageing rows -/

/-- A row and the same row at a later time. It says the same as long as its version does. -/
structure Ages (r r' : Context) : Prop where
  frame : r.SameFrame r'
  version : r' = r ∨ r.version < r'.version

theorem Ages.refl : Ages r r := ⟨.refl, .inl rfl⟩

theorem Ages.trans (h : Ages r r') (h' : Ages r' r'') : Ages r r'' := by
  refine ⟨h.frame.trans h'.frame, ?_⟩
  rcases h.version with rfl | hlt
  · exact h'.version
  · rcases h'.version with rfl | hlt'
    · exact .inr hlt
    · exact .inr (hlt.trans hlt')

theorem Ages.changed (k : Kind) (chs : List Context.Change) (now : Moment) (r : Context) :
    Ages r (k.changed chs now r) := ⟨.changed k chs now r, .inr (Int.lt_succ r.version)⟩

structure Aged (s s' : Store) : Prop where
  kind : s'.kind = s.kind
  kept : ∀ i r, s.row? i = some r → ∃ r', s'.row? i = some r' ∧ Ages r r'

theorem Aged.refl : Aged s s := ⟨rfl, fun _ r hr => ⟨r, hr, .refl⟩⟩

theorem Aged.trans (h : Aged s s') (h' : Aged s' s'') : Aged s s'' := by
  refine ⟨h'.kind.trans h.kind, ?_⟩
  intro i r hr
  obtain ⟨r', hr', ha⟩ := h.kept i r hr
  obtain ⟨r'', hr'', ha'⟩ := h'.kept i r' hr'
  exact ⟨r'', hr'', ha.trans ha'⟩

theorem Changed.aged {chs : List Context.Change} {now : Moment} (h : Changed s i chs now r s') :
    Aged s s' := by
  refine ⟨h.kind, ?_⟩
  intro j r' hr'
  by_cases hj : j = i
  · subst hj
    rw [h.found] at hr'
    cases hr'
    exact ⟨_, h.row, .changed _ _ _ _⟩
  · exact ⟨r', (h.others j hj).trans hr', .refl⟩

theorem Filed.aged (h : Filed s i c s') (hn : s.row? i = none) : Aged s s' := by
  refine ⟨h.kind, ?_⟩
  intro j r hr
  have hj : j ≠ i := by
    rintro rfl
    rw [hn] at hr
    cases hr
  exact ⟨r, (h.others j hj).trans hr, .refl⟩

/-! ## Titled copies -/

/-- A copy with the labels of its row, and with its times while the versions are the same. -/
def Titled (s : Store) (c : Context) : Prop :=
  ∃ i r, c.id = some i ∧ s.row? i = some r ∧ Labelled s.kind r c ∧ c.version ≤ r.version ∧
    (c.version = r.version → TimesMirror s.kind r c)

/-- A copy says which row its title is from. -/
theorem Titled.row (h : Titled s c) (hid : c.id = some i) (hr : s.row? i = some r) :
    Labelled s.kind r c ∧ c.version ≤ r.version ∧ (c.version = r.version → TimesMirror s.kind r c) := by
  obtain ⟨j, r', hid', hr', htitled⟩ := h
  rw [hid] at hid'
  cases hid'
  rw [hr] at hr'
  cases hr'
  exact htitled

/-- The node index of a copy plays no part in its title. -/
theorem Titled.of_unbound (h : Titled s c) (hd : c'.unbound = c.unbound) : Titled s c' := by
  obtain ⟨i, r, hid, hr, hl, hv, ht⟩ := h
  simp only [Context.unbound, Context.mk.injEq] at hd
  obtain ⟨h1, h2, h3, h4, _, h5, h6, h7, _, h8, _⟩ := hd
  refine ⟨i, r, h1.trans hid, hr, ?_, h8 ▸ hv, fun he => ?_⟩
  · exact ⟨h2 ▸ hl.contact, h3 ▸ hl.flow, h4 ▸ hl.flowUuid, h5 ▸ hl.parent⟩
  · have ht := ht (h8 ▸ he)
    exact ⟨h6 ▸ ht.wakeup, h7 ▸ ht.completed⟩

theorem Titled.aged (h : Titled s c) (ha : Aged s s') : Titled s' c := by
  obtain ⟨i, r, hid, hr, hl, hv, ht⟩ := h
  obtain ⟨r', hr', hage⟩ := ha.kept i r hr
  refine ⟨i, r', hid, hr', ha.kind ▸ hl.framed hage.frame .refl, ?_, ?_⟩
  · rcases hage.version with rfl | hlt
    · exact hv
    · omega
  · intro he
    rw [ha.kind]
    rcases hage.version with rfl | hlt
    · exact ht he
    · omega

theorem Copied.titled (h : Copied s c) : Titled s c := by
  have hcurrent := h.current
  obtain ⟨i, r, hid, hr, hc⟩ := h
  obtain ⟨hv, hm⟩ := hcurrent.row hid hr
  refine ⟨i, r, hid, hr, ?_, Int.le_of_eq hv, fun _ => ⟨hm.wakeup, hm.completed⟩⟩
  rw [hc]
  exact ⟨fun _ => rfl, rfl, fun _ => rfl, fun _ => rfl⟩

theorem Filed.titled (h : Filed s i c s') (hid : c.id = some i) : Titled s' c := by
  obtain ⟨hv, hm⟩ := (h.current hid).row hid h.row
  exact ⟨i, _, hid, h.row, h.kind ▸ labelled_filed s.kind c, Int.le_of_eq hv,
    fun _ => ⟨hm.wakeup, hm.completed⟩⟩

private theorem timed_changed {d : Deed} (hd : TimesMirror k r c ∨ ∃ t, d = .finish t)
    (now updated : Moment) (version : Int) : TimesMirror k (k.changed (d.changes c.results) now r)
      { c.applyAll (d.changes c.results) with version, updated } := by
  rcases hd with ⟨hw, hc⟩ | ⟨t, rfl⟩
  · cases d with
    | move v => exact ⟨rfl, hc⟩
    | finish t => exact ⟨rfl, rfl⟩
    | park w => exact ⟨rfl, hc⟩
    | record values => cases c.results <;> exact ⟨hw, hc⟩
  · exact ⟨rfl, rfl⟩

/-- A copy keeps its title when a deed is done through it, also by a blind completion. -/
theorem Done.titled {d : Deed} (h : Done d s c s' c') (hc : Titled s c) :
    Aged s s' ∧ Titled s' c' := by
  have hframe := h.sameFrame
  obtain ⟨i, r, time, updated, hid, _, hch, hor, rfl⟩ := h
  obtain ⟨hl, _, ht⟩ := hc.row hid hch.found
  refine ⟨hch.aged, i, _, hframe.id.trans hid, hch.row, ?_, Int.le_refl _, fun _ => ?_⟩
  · rw [hch.kind]
    exact hl.framed (.changed _ _ _ _) hframe
  · rw [hch.kind]
    exact timed_changed (hor.imp_left ht) _ _ _

end Store

/-! ## The discipline of titles -/

namespace Engine
open Store (Aged Deed Titled)

private theorem wrote_titled {d : Deed} {e e' : Engine} {c c' : Context} (h : Wrote d e c e' c')
    (hc : Titled e.store c) : Aged e.store e'.store ∧ Titled e'.store c' := by
  obtain ⟨ha, ht⟩ := h.done.titled (hc.of_unbound rfl)
  exact ⟨ha, ht.of_unbound rfl⟩

def titling : Discipline where
  Holds := Ready
  Keeps := Titled
  Grows _ := Aged
  Finds _ _ := True
  Knows _ := True
  Parents _ _ := True
  Fails _ _ := True
  ready h := h
  same _ hr _ _ := hr
  refl _ := .refl
  trans h h' := h.trans h'
  keeps h hc := hc.aged h
  named h := by
    obtain ⟨i, r, hid, _⟩ := h
    exact ⟨i, hid⟩
  orphan _ := trivial
  parent _ := trivial
  fails _ := trivial
  finds flow h := ((fetch_yields flow).quietly _ h.alone).mono (fun _ _ hq => ⟨h.quiet hq, trivial⟩)
    (fun _ _ hq => h.quiet hq)
  knows _ := trivial
  reads _ hc := hc.titled
  binds h _ := h.of_unbound rfl
  settles _ hc _ hw := ⟨hw.ready, wrote_titled hw hc⟩
  advances _ hc _ _ _ _ hw := ⟨hw.ready, wrote_titled hw hc⟩
  dangles _ _ _ := trivial
  files _ _ _ hst := by
    obtain ⟨i, hid, hn, hf⟩ := hst.filed
    exact ⟨hst.ready, hf.aged hn, hf.titled hid⟩

end Engine
end DurableFlow
