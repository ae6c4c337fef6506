import DurableFlow.Proofs.Flow.LocalizedTexts
import DurableFlow.Proofs.Flow.ReorderedDocuments
import DurableFlow.Proofs.Flow.WrittenTexts

/-! Texts of documents that are alike. Which of two texts under one content key is kept depends on the
order of members; where no key is given two texts, the order plays no part. -/
namespace DurableFlow.Flow
open Json (Alike AlikeMembers AlikeTables valuesAt valuesAt_cons_self valuesAt_cons_ne)
open Authored (member)
open Store (bind_eq_ok)

variable {v v' : Json}

theorem textOf?_alike (h : Alike v v') : textOf? v = textOf? v' := by
  obtain ⟨_, rfl⟩ | ⟨xs, ys, rfl, rfl, hitems⟩ | ⟨_, _, rfl, rfl, _⟩ := h.shapes
  · rfl
  · cases hitems with
    | nil => rfl
    | @cons x y _ _ hxy =>
      obtain ⟨_, rfl⟩ | ⟨_, _, rfl, rfl, _⟩ | ⟨_, _, rfl, rfl, _⟩ := hxy.shapes
      · cases x <;> rfl
      · rfl
      · rfl
  · rfl

/-! ## Texts of languages -/

private theorem exists_alike {ms ms' : List (String × Json)} (h : AlikeMembers ms ms')
    {m : String × Json} (hm : m ∈ ms) : ∃ m' ∈ ms', m'.1 = m.1 ∧ Alike m.2 m'.2 := by
  have hmem := h.perm.subset (List.mem_map_of_mem (f := Json.sortedMember) hm)
  obtain ⟨m', hm', heq⟩ := List.mem_map.mp hmem
  simp only [Json.sortedMember, Prod.mk.injEq] at heq
  exact ⟨m', hm', heq.1, heq.2.symm⟩

private theorem groupWrites_subset {item : String} {fields fields' : List (String × Json)}
    (h : AlikeMembers fields fields') : groupWrites item fields ⊆ groupWrites item fields' := by
  intro w hw
  obtain ⟨m, hm, hwrite⟩ := List.mem_flatMap.mp hw
  obtain ⟨m', hm', hkey, hv⟩ := exists_alike h hm
  refine List.mem_flatMap.mpr ⟨m', hm', ?_⟩
  rw [hkey, ← textOf?_alike hv]
  exact hwrite

private theorem entryWrites_subset {entries entries' : List (String × Json)}
    (h : AlikeMembers entries entries') :
    entries.flatMap entryWrites ⊆ entries'.flatMap entryWrites := by
  intro w hw
  obtain ⟨⟨key, v⟩, hm, hwrite⟩ := List.mem_flatMap.mp hw
  obtain ⟨⟨key', v'⟩, hm', hkey, hv⟩ := exists_alike h hm
  cases hkey
  refine List.mem_flatMap.mpr ⟨(key, v'), hm', ?_⟩
  have htext := textOf?_alike hv
  obtain ⟨hkey, rfl⟩ | ⟨xs, ys, rfl, rfl, _⟩ | ⟨fields, fields', rfl, rfl, hfields⟩ := hv.shapes
  · exact hwrite
  · simp only [entryWrites, ← htext]
    exact hwrite
  · exact groupWrites_subset hfields hwrite

/-- The texts of entries that are alike, where no content key is given two of them. -/
theorem entryTexts_alike {entries entries' : List (String × Json)} (h : AlikeMembers entries entries')
    (hc : Consistent (entries.flatMap entryWrites)) :
    AnswerAlike (entryTexts entries) (entryTexts entries') := by
  have hmem (w : String × String) : w ∈ entries.flatMap entryWrites ↔ w ∈ entries'.flatMap entryWrites :=
    ⟨fun hw => entryWrites_subset h hw, fun hw => entryWrites_subset h.symm hw⟩
  intro key
  rw [entryTexts_eq_merge, entryTexts_eq_merge]
  exact hc.find?_merge hmem key

private theorem overrides_alike {v v' : Json} (h : Alike v v')
    (hc : ∀ language entries, (language, .object entries) ∈ v.members?.getD [] →
      Consistent (entries.flatMap entryWrites))
    {overrides overrides' : List (String × List (String × String))} (ho : flatten v = .ok overrides)
    (ho' : flatten v' = .ok overrides') (language : String) :
    Option.Rel AnswerAlike (Table.find? language overrides) (Table.find? language overrides') := by
  have htables : AlikeTables (v.members?.getD []) (v'.members?.getD []) := by
    have hmembers := h.members?
    generalize v.members? = found, v'.members? = found' at hmembers
    cases hmembers with
    | none => exact .refl _
    | some hms => exact hms.tables
  rw [flatten_eq_ok ho, flatten_eq_ok ho', find?_blockTexts, find?_blockTexts]
  have hvalues := htables language
  have hmem : ∀ x ∈ valuesAt language (v.members?.getD []), ∀ entries, x.members? = some entries →
      Consistent (entries.flatMap entryWrites) := by
    intro x hx entries hentries
    obtain ⟨m, hm, rfl⟩ := List.mem_map.mp hx
    obtain ⟨hm, -⟩ := List.mem_filter.mp hm
    refine hc m.1 entries ?_
    obtain ⟨l, x⟩ := m
    cases x with
    | object members =>
      cases hentries
      exact hm
    | _ => cases hentries
  generalize valuesAt language (v.members?.getD []) = xs,
    valuesAt language (v'.members?.getD []) = xs' at hvalues hmem
  induction hvalues with
  | nil => exact .none
  | @cons x x' _ _ hx _ ih =>
    obtain ⟨hfirst, hrest⟩ := List.forall_mem_cons.mp hmem
    have hmembers := hx.members?
    rw [List.filterMap_cons, List.filterMap_cons]
    generalize x.members? = found, x'.members? = found' at hmembers hfirst
    cases hmembers with
    | none => exact ih hrest
    | some hms => exact .some (entryTexts_alike hms (hfirst _ rfl))

/-! ## Texts of items -/

theorem contentKey_inj {item : Json} {field field' : String}
    (h : contentKey item (.string field) = contentKey item (.string field')) : field = field' := by
  have hl := congrArg String.toList h
  simp only [contentKey, String.toList_append, List.append_cancel_left_eq] at hl
  exact String.toList_inj.mp hl

private theorem flatMap_field {α : Type} {p : String → Prop} [DecidablePred p] {field : String}
    (hp : ∀ f, p f ↔ f = field) (g : Json → List α) (item : List (String × Json)) :
    (item.flatMap fun m => if p m.1 then g m.2 else []) = (valuesAt field item).flatMap g := by
  induction item with
  | nil => rfl
  | cons m rest ih =>
    rw [List.flatMap_cons, ih]
    by_cases hm : m.1 = field
    · rw [if_pos ((hp _).mpr hm), valuesAt_cons_self hm, List.flatMap_cons]
    · rw [if_neg (mt (hp _).mp hm), valuesAt_cons_ne hm, List.nil_append]

theorem flatMap_eq_of_forall₂ {α β γ : Type} {R : α → β → Prop} {f : α → List γ} {f' : β → List γ}
    {xs : List α} {ys : List β} (h : List.Forall₂ R xs ys) (hf : ∀ x y, R x y → f x = f' y) :
    xs.flatMap f = ys.flatMap f' := by
  induction h with
  | nil => rfl
  | cons hxy _ ih => rw [List.flatMap_cons, List.flatMap_cons, hf _ _ hxy, ih]

private theorem valuesAt_itemWrites {item item' : List (String × Json)} (h : AlikeTables item item')
    (hname : Json.findD "uuid" item' = Json.findD "uuid" item) (key : String) :
    valuesAt key (itemWrites item) = valuesAt key (itemWrites item') := by
  let g (v : Json) : List Json := ((textOf? v).map Json.string).toList
  let p (field : String) : Prop :=
    field ∉ structuralFields ∧ contentKey (Json.findD "uuid" item) (.string field) = key
  have hwrites (l : List (String × Json)) :
      valuesAt key (l.flatMap fun m => if m.1 ∈ structuralFields then []
        else ((textOf? m.2).map fun s =>
          (contentKey (Json.findD "uuid" item) (.string m.1), Json.string s)).toList) =
      l.flatMap fun m => if p m.1 then g m.2 else [] := by
    rw [valuesAt_flatMap]
    refine congrArg (fun f => l.flatMap f) (funext fun m => ?_)
    by_cases hfield : m.1 ∈ structuralFields
    · simp [valuesAt, p, hfield]
    · by_cases hkey : contentKey (Json.findD "uuid" item) (.string m.1) = key
      · cases htext : textOf? m.2 <;> simp [valuesAt, p, g, hfield, hkey, htext]
      · cases textOf? m.2 <;> simp [valuesAt, p, hfield, hkey]
  unfold itemWrites
  dsimp only
  rw [hname]
  split
  · rw [hwrites, hwrites]
    by_cases hfield : ∃ field, p field
    · obtain ⟨field, hp⟩ := hfield
      have hone (f : String) : p f ↔ f = field :=
        ⟨fun hf => contentKey_inj (hf.2.trans hp.2.symm), fun hf => hf ▸ hp⟩
      rw [flatMap_field hone, flatMap_field hone]
      have htexts (v v' : Json) (hv : Alike v v') : g v = g v' := by
        simp only [g, textOf?_alike hv]
      exact flatMap_eq_of_forall₂ (h field) htexts
    · have hnone (l : List (String × Json)) :
          (l.flatMap fun m => if p m.1 then g m.2 else []) = [] :=
        List.flatMap_eq_nil_iff.mpr fun m _ => if_neg fun hp => hfield ⟨m.1, hp⟩
      rw [hnone, hnone]
  · rfl

def PlainlyNamed (item : List (String × Json)) : Prop :=
  (Json.findD "uuid" item).isGiven = true → (Json.findD "uuid" item).isKey = true

private theorem valuesAt_items_alike {items items' : List (List (String × Json))}
    (h : List.Forall₂ AlikeTables items items') (hnamed : ∀ item ∈ items, PlainlyNamed item)
    (key : String) : valuesAt key (items.flatMap itemWrites) = valuesAt key (items'.flatMap itemWrites) := by
  rw [valuesAt_flatMap, valuesAt_flatMap]
  induction h with
  | nil => rfl
  | @cons item item' _ _ hitem _ ih =>
    obtain ⟨hfirst, hrest⟩ := List.forall_mem_cons.mp hnamed
    have hwrites : valuesAt key (itemWrites item) = valuesAt key (itemWrites item') := by
      have huuid := hitem.findD "uuid"
      by_cases hgiven : (Json.findD "uuid" item).isGiven = true
      · exact valuesAt_itemWrites hitem (huuid.eq_of_isKey (hfirst hgiven)).symm key
      · have hnone : (Json.findD "uuid" item').isGiven ≠ true := by
          rw [← huuid.isGiven_eq]
          exact hgiven
        simp only [itemWrites, if_neg hgiven, if_neg hnone]
    rw [List.flatMap_cons, List.flatMap_cons, hwrites, ih hrest]

/-! ## Texts of nodes -/

def PlainlyNamedItems (n : Node) : Prop :=
  ∀ items, textItems n = .ok items → ∀ item ∈ items, PlainlyNamed item

private theorem nodeWrites_alike {n n' : Node} (h : AlikeNode n n') (hnamed : PlainlyNamedItems n)
    {items : List (List (String × Json))} (hitems : textItems n = .ok items) (key : String) :
    valuesAt key (nodeWrites n) = valuesAt key (nodeWrites n') := by
  obtain ⟨items', hitems', halike⟩ := textItems_alike h hitems
  unfold nodeWrites
  rw [hitems, hitems']
  exact valuesAt_items_alike halike (hnamed items hitems) key

private theorem defaults_alike {nodes nodes' : List Node} (h : List.Forall₂ AlikeNode nodes nodes')
    (hnamed : ∀ n ∈ nodes, PlainlyNamedItems n) (hread : ∀ n ∈ nodes, ∃ items, textItems n = .ok items) :
    AnswerAlike (Table.merge [] (nodes.flatMap nodeWrites)) (Table.merge [] (nodes'.flatMap nodeWrites)) := by
  intro key
  rw [find?_merge, find?_merge, valuesAt_flatMap, valuesAt_flatMap]
  congr 2
  induction h with
  | nil => rfl
  | @cons n n' _ _ hn _ ih =>
    obtain ⟨hfirst, hrest⟩ := List.forall_mem_cons.mp hnamed
    obtain ⟨⟨items, hitems⟩, hreadRest⟩ := List.forall_mem_cons.mp hread
    rw [List.flatMap_cons, List.flatMap_cons, nodeWrites_alike hn hfirst hitems, ih hrest hreadRest]

/-! ## Documents -/

def Authored.texted (n : Json) : List Json :=
  (member "actions" n).items?.getD [] ++ (member "cases" (member "router" n)).items?.getD [] ++
    (member "categories" (member "router" n)).items?.getD []

/-- A document that says which text stands under a content key, in whatever order its members come:
items are named by keys, and no language has two texts for one content key. -/
structure Unambiguous (document : Json) : Prop where
  names : ∀ n ∈ Authored.nodes document, ∀ x ∈ Authored.texted n,
    (member "uuid" x).isGiven = true → (member "uuid" x).isKey = true
  texts : ∀ language entries,
    (language, .object entries) ∈ (member "localization" document).members?.getD [] →
      Consistent (entries.flatMap entryWrites)

/-- The objects among the elements of a value are those among its items: texts and keys are none. -/
theorem filterMap_elements {v : Json} {xs : List Json} (h : elements v = .ok xs) :
    xs.filterMap Json.members? = (v.items?.getD []).filterMap Json.members? := by
  unfold elements at h
  split at h
  · cases v with
    | array items =>
      cases h
      rfl
    | string s =>
      cases h
      simp [Json.items?, Json.members?]
    | object members =>
      cases h
      simp [Json.items?, Json.members?]
    | null | bool | int | double => cases h
  · rename_i hgiven
    cases h
    cases v with
    | array items =>
      have hempty : items = [] := by simpa [Json.isGiven] using hgiven
      rw [hempty]
      rfl
    | null | bool | int | double | string | object => rfl

private theorem objects_of_elements {v : Json} {xs : List Json} (h : elements v = .ok xs)
    {item : List (String × Json)} (hitem : item ∈ xs.filterMap Json.members?) :
    .object item ∈ v.items?.getD [] := by
  rw [filterMap_elements h] at hitem
  obtain ⟨x, hx, hobject⟩ := List.mem_filterMap.mp hitem
  cases x with
  | object members =>
    cases hobject
    exact hx
  | _ => cases hobject

private theorem readNode_plainlyNamed {fail : DocumentFault → Failure} {position : Nat} {v : Json}
    {node : Node} (h : readNode fail position v = .ok node)
    (hnames : ∀ x ∈ Authored.texted v, (member "uuid" x).isGiven = true →
      (member "uuid" x).isKey = true) : PlainlyNamedItems node := by
  obtain ⟨-, -, raws, actions, _, exits, router, hraws, hactions, -, -, hrouter, rfl⟩ :=
    readNode_eq_ok.mp h
  have hobjects : ∀ x ∈ raws, ∃ members, x = .object members := by
    intro x hx
    have hsome := succeeds_readAction.mp (succeeds_mapM.mp ⟨actions, hactions⟩ x hx)
    cases x with
    | object members => exact ⟨members, rfl⟩
    | _ => cases hsome
  have hlisted := items_of_elements hraws hobjects
  have haction : ∀ a ∈ actions, PlainlyNamed (("uuid", a.uuid) :: a.attributes) := by
    intro a ha
    obtain ⟨x, hx, hread⟩ := exists_of_mem (forall₂_of_mapM hactions) ha
    obtain ⟨members, rfl⟩ := hobjects x hx
    cases hread
    change (givenOr _ _ _).isGiven = true → (givenOr _ _ _).isKey = true
    unfold givenOr
    dsimp only
    split
    · have hmem : Json.object members ∈ Authored.texted v := by
        rw [Authored.texted, hlisted]
        exact List.mem_append_left _ (List.mem_append_left _ hx)
      exact hnames _ hmem
    · intro
      rfl
  intro items hitems item hitem
  unfold textItems at hitems
  cases router with
  | none =>
    cases hitems
    obtain ⟨a, ha, rfl⟩ := List.mem_map.mp hitem
    exact haction a ha
  | some router =>
    obtain ⟨cases, hcases, hitems⟩ := bind_eq_ok.mp hitems
    obtain ⟨categories, hcategories, hitems⟩ := bind_eq_ok.mp hitems
    cases hitems
    have hmember : member "router" v = .object router := hrouter
    rcases List.mem_append.mp hitem with hitem | hitem
    · rcases List.mem_append.mp hitem with hitem | hitem
      · obtain ⟨a, ha, rfl⟩ := List.mem_map.mp hitem
        exact haction a ha
      · refine hnames (.object item) ?_
        rw [Authored.texted, hmember]
        exact List.mem_append_left _ (List.mem_append_right _ (objects_of_elements hcases hitem))
    · refine hnames (.object item) ?_
      rw [Authored.texted, hmember]
      exact List.mem_append_right _ (objects_of_elements hcategories hitem)

/-- Documents that are alike are localized alike, if it is plain in one of them which text stands under a
content key. -/
theorem localize_alike {ms ms' : List (String × Json)} {d d' : Definition} {g g' : Graph}
    (h : AlikeMembers ms ms') (hplain : Unambiguous (.object ms)) (hg : compile d (.object ms) = .ok g)
    (hg' : compile d' (.object ms') = .ok g') (hlanguage : g'.language.same g.language = true)
    (language key : Json) :
    SameAnswer (g'.localization.localize language key) (g.localization.localize language key) := by
  obtain ⟨g'', hg'', hnodes⟩ := compile_alike d' h hg
  cases hg'.symm.trans hg''
  obtain ⟨_, values, nodes, defaults, overrides, heq, hvalues, hread, -, hoverrides, rfl⟩ :=
    compile_eq_ok.mp hg
  cases heq
  obtain ⟨_, values', nodes', defaults', overrides', heq, -, hread', -, hoverrides', rfl⟩ :=
    compile_eq_ok.mp hg'
  cases heq
  obtain ⟨new, hnew, hreads, hitems, rfl⟩ := readNodes_texts hread
  obtain ⟨new', hnew', -, -, rfl⟩ := readNodes_texts hread'
  rw [List.nil_append] at hnew hnew'
  subst hnew hnew'
  have hnamed : ∀ n ∈ nodes, PlainlyNamedItems n := by
    intro n hn
    obtain ⟨v, hv, position, hnode⟩ := exists_of_mem hreads hn
    refine readNode_plainlyNamed hnode (hplain.names v ?_)
    simp only [Authored.nodes, member, hvalues, Json.items?, Option.getD_some]
    exact hv
  refine AlikeTexts.localize ⟨?_, ?_, hlanguage⟩ language key
  · refine texts?_ofTexts (fun l => ?_) _ _ _ _
    have hl := overrides_alike (h.tables.findD "localization") hplain.texts hoverrides hoverrides' l
    generalize Table.find? l overrides = found, Table.find? l overrides' = found' at hl
    cases hl with
    | none => exact .none
    | some hsame => exact .some fun key => (hsame key).symm
  · exact find?_ofTexts_alike id fun key => (defaults_alike hnodes hnamed hitems key).symm

end DurableFlow.Flow
