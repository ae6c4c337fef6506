import DurableFlow.Proofs.Engine.LabelledCopies
import DurableFlow.Proofs.Session.AuthoredWalks
import DurableFlow.Proofs.Session.RepeatedCompletion

/-! What a version vouches for. A copy at the version of its row says what the row says, with one
exception: a completion writes at any version, so a copy that it finds behind gets the version of a
state that its holder has never seen. -/
namespace DurableFlow.Session
open DurableFlow.Action (Ensures)
open Engine (Dangling titling)
open Store (ClosesBlindly Deed Fits Kind Titled)
variable {D : Deed → Prop} {s s' : Session} {copy : Nat} {c d : Context} {i : String}

/-! ## Blind completions -/

def closesBlindly (copy : Nat) (s s' : Session) : Bool :=
  s.copies[copy]?.any fun c => s'.copies[copy]?.any fun c' =>
    !c.isCompleted && c'.isCompleted && s.engine.store.isBehind c

/-- Whether a copy has been completed in the course of some requests while it was behind. -/
def closedBlindly (copy : Nat) (s : Session) : List Request → Bool
  | [] => false
  | q :: rest => closesBlindly copy s (q.perform s).2 || (q.perform s).2.closedBlindly copy rest

theorem closesBlindly_iff : closesBlindly copy s s' = true ↔ ∃ c c', s.copies[copy]? = some c ∧
    s'.copies[copy]? = some c' ∧ ClosesBlindly s.engine.store c c' := by
  simp [closesBlindly, Option.any_eq_true, ClosesBlindly, Context.isCompleted,
    Option.isSome_iff_ne_none, and_assoc]

private theorem closesCopy_of_blindly (h : closesBlindly copy s s' = true) :
    ∃ i, closesCopy i s s' = true := by
  obtain ⟨c, c', hc, hc', ho, hclosed, hbehind⟩ := closesBlindly_iff.mp h
  obtain ⟨r, hr, _⟩ := (Option.any_eq_true _ _).mp hbehind
  obtain ⟨i, hid, _⟩ := Option.bind_eq_some_iff.mp hr
  exact ⟨i, closesCopy_iff.mpr ⟨copy, c, c', hc, hc', hid, ho, hclosed⟩⟩

private theorem copy_of_through (hs : s.Sound) {k : Nat} {use : Use}
    (hc : s.copies[k]? = some c) (h : closesBlindly copy s (s.through k use.act).2 = true) :
    copy = k := by
  obtain ⟨x, x', hx, hx', ho, hclosed, _⟩ := closesBlindly_iff.mp h
  obtain ⟨c', handed, _, hcopies, _⟩ := through_passed hs.ready hc use
  obtain ⟨hlt, _⟩ := List.getElem?_eq_some_iff.mp hx
  rw [getElem?_through hcopies hlt] at hx'
  split at hx'
  · rename_i he
    exact he.symm
  · rw [hx] at hx'
    cases hx'
    exact absurd ho hclosed

private theorem dangling_of_blindly (hs : s.Sound) (hc : s.copies[copy]? = some c) (choice : Json)
    (h : closesBlindly copy s (s.through copy (Use.advance choice).act).2 = true) :
    ∃ f, (s.through copy (Use.advance choice).act).1 = .error f ∧ Dangling f := by
  obtain ⟨x, x', hx, hx', ho, hclosed, hbehind⟩ := closesBlindly_iff.mp h
  rw [hc] at hx
  cases hx
  obtain ⟨hlt, _⟩ := List.getElem?_eq_some_iff.mp hc
  have hensures : Ensures (Use.advance choice).act ⟨s.engine, c⟩
      (fun _ _ => Engine.Abreast s.engine.store c)
      (fun f g => Engine.Undisturbed s.engine c g ∨ Dangling f) := by
    apply Ensures.bind
    refine ((Engine.advance_requires hs.ready choice).and
      (Engine.advance_failure hs.ready choice)).mono ?_ (fun _ _ hf => hf.2)
    exact fun _ _ ha => Ensures.pure ha.1
  cases hrun : (Use.advance choice).act ⟨s.engine, c⟩ with
  | ok handed g =>
    obtain ⟨_, i, r, hid, hr, hv⟩ := hensures.of_eq_ok hrun
    simp [Store.isBehind, hid, hr, hv] at hbehind
  | error f g =>
    have hcopies : s.copies.set copy g.held = s.copies.set copy g.held ++ [] :=
      (List.append_nil _).symm
    rw [through_of_error hc hrun] at hx' ⊢
    rw [getElem?_through hcopies hlt, if_pos rfl] at hx'
    cases hx'
    refine ⟨f, rfl, ?_⟩
    rcases hensures.of_eq_error hrun with hu | hf
    · exact absurd (hu.completed.trans ho) hclosed
    · exact hf

/-- A copy that is behind is completed by a completion or an exit through it, or by an advance that
finds a node missing, and by nothing else. -/
theorem request_of_closesBlindly (hs : s.Sound) {q : Request}
    (h : closesBlindly copy s (q.perform s).2 = true) :
    ∃ use, q = .call (.through copy use) ∧ (use = .complete ∨ use = .exit ∨
      ∃ choice f, use = .advance choice ∧ (q.perform s).1 = .error f ∧ Dangling f) := by
  obtain ⟨i, hcloses⟩ := closesCopy_of_blindly h
  obtain ⟨k, use, c, rfl, hc, _, _, hfinish⟩ := request_of_closesCopy hs hcloses
  obtain rfl : copy = k := copy_of_through hs hc h
  refine ⟨use, rfl, ?_⟩
  cases use with
  | complete => exact .inl rfl
  | exit => exact .inr (.inl rfl)
  | advance choice =>
    obtain ⟨f, hf, hdangling⟩ := dangling_of_blindly hs hc choice h
    exact .inr (.inr ⟨choice, f, rfl, hf, hdangling⟩)
  | bind | suspend | resume | record | enter => cases hfinish

/-! ## Copies that fit -/

private theorem Stepped.held_fits (h : Stepped D s s')
    (hfits : ∀ c, s.copies[copy]? = some c → Fits s.engine.store c)
    (hno : closesBlindly copy s s' = false) (hc : s'.copies[copy]? = some c) :
    Fits s'.engine.store c := by
  by_cases hlt : copy < s.copies.length
  · cases h with
    | beside moves copies _ =>
      rw [getElem?_beside copies hlt] at hc
      exact moves.evolves.fits (hfits c hc)
    | @through k x x' handed found passed copies _ =>
      obtain ⟨_, m, ha, hv⟩ := passed
      have hset := hc
      rw [getElem?_through copies hlt] at hset
      split at hset
      · rename_i he
        subst he
        cases hset
        rcases ha.held_fits_or ((hfits x found).of_unbound rfl) with hf | hblind
        · exact hv.fits (hf.of_unbound rfl)
        · have hyes := closesBlindly_iff.mpr ⟨x, c, found, hc, hblind⟩
          rw [hno] at hyes
          cases hyes
      · exact hv.fits (ha.fits (hfits c hset))
  · have hle : s.copies.length ≤ copy := Nat.le_of_not_lt hlt
    cases h with
    | beside moves copies fits =>
      rw [copies, List.getElem?_append_right hle] at hc
      exact fits c (List.mem_of_getElem? hc)
    | through found passed copies fits =>
      rw [copies, List.getElem?_append_right (by rwa [List.length_set])] at hc
      exact fits c (List.mem_of_getElem? hc)

private theorem fits_run (hs : s.Sound)
    (hfits : ∀ c, s.copies[copy]? = some c → Fits s.engine.store c) (requests : List Request)
    (hno : s.closedBlindly copy requests = false) (hc : (s.run requests).copies[copy]? = some c) :
    Fits (s.run requests).engine.store c := by
  induction requests generalizing s with
  | nil => exact hfits c hc
  | cons q rest ih =>
    rw [closedBlindly, Bool.or_eq_false_iff] at hno
    refine ih (hs.perform q) ?_ hno.2 hc
    intro x hx
    exact (perform_stepped hs.ready q).held_fits hfits hno.1 hx

/-! ## Copies that have their titles -/

private theorem Fresh.titled (hs : s.Fresh) : Regular titling s := by
  refine ⟨hs.sound.ready, ?_⟩
  intro c hc
  rw [hs.unheld] at hc
  cases hc

private theorem Regular.run_titled (hs : Regular titling s) (requests : List Request) :
    Regular titling (s.run requests) := by
  apply hs.run
  intro q _ t
  cases q with
  | call call =>
    cases call with
    | start => exact ⟨trivial, trivial⟩
    | meanwhile change quiet =>
      intro hr
      exact Engine.Ready.quiet hr (quiet _)
    | _ => trivial
  | _ => trivial

/-! ## Versions -/

/-- A copy says what a read of its row says: the contact, the flow and the parent, the times to the
millisecond, and, unless the copy has been completed blindly, the node and the results. Tables and
servers keep a contact as it is when it is a number, and a node when it is a text; a server keeps a
missing UUID as an empty one, and an empty parent as none. -/
structure Repeats (k : Kind) (blindly : Bool) (c d : Context) : Prop where
  contact : (k ≠ .memory → ∃ n, c.contact = .int n) → d.contact = c.contact
  flow : d.flow = c.flow
  flowUuid : (k = .keys → c.flowUuid ≠ none) → d.flowUuid = c.flowUuid
  parent : (k = .keys → c.parent ≠ some "") → d.parent = c.parent
  wakeup : d.wakeup.map Moment.millis = c.wakeup.map Moment.millis
  completed : d.completed.map Moment.millis = c.completed.map Moment.millis
  node : blindly = false → (k ≠ .memory → ∃ text, c.node = .string text) → d.node = c.node
  results : blindly = false → d.results = c.results

private theorem node_kept {k : Kind} {v : Json} (h : k ≠ .memory → ∃ text, v = .string text) :
    k.node v = v := by
  by_cases hk : k = .memory
  · rw [hk]
    rfl
  · obtain ⟨text, rfl⟩ := h hk
    exact k.node_string text

private theorem repeats_of_titled {t : Store} {blindly : Bool} (hsound : t.Sound)
    (htitled : Titled t c) (hfits : blindly = false → Fits t c) (hid : c.id = some i)
    (hd : t.getContext (some i) = .ok (some d)) (hv : c.version = d.version) :
    Repeats t.kind blindly c d := by
  obtain ⟨⟨j, r, hj, hr, rfl⟩, hdid⟩ := hsound.getContext_copied hd
  rw [hdid] at hj
  cases hj
  obtain ⟨hl, _, htimed⟩ := htitled.row hid hr
  have ht := htimed hv
  have hmirrors (hb : blindly = false) : Store.Mirrors t.kind r c := ((hfits hb).row hid hr).2 hv
  constructor
  · exact hl.contact
  · exact hl.flow
  · exact hl.flowUuid
  · exact hl.parent
  · exact ht.wakeup ▸ t.kind.map_millis_time c.wakeup
  · exact ht.completed ▸ t.kind.map_millis_time c.completed
  · intro hb htext
    exact (hmirrors hb).node.trans (node_kept htext)
  · intro hb
    exact (hmirrors hb).results

/-- After every run of requests, whoever made them: a copy is of a stored context and never ahead of
it, and a copy at the version of the stored context says what is stored. Only the node and the results
of a copy can differ, and only once the copy has been completed while it was behind; that takes a
completion or an exit through the copy, or an advance that finds a node missing. -/
theorem version_vouches (hs : s.Fresh) (requests : List Request) :
    let t := s.run requests
    (∀ c ∈ t.copies, ∃ i r, c.id = some i ∧ t.engine.store.row? i = some r ∧
      c.version ≤ r.version) ∧
    (∀ copy c i d, t.copies[copy]? = some c → c.id = some i →
      t.engine.store.getContext (some i) = .ok (some d) → c.version = d.version →
        Repeats t.engine.store.kind (s.closedBlindly copy requests) c d) ∧
    (∀ copy (q : Request), closesBlindly copy t (q.perform t).2 = true →
      ∃ use, q = .call (.through copy use) ∧ (use = .complete ∨ use = .exit ∨
        ∃ choice f, use = .advance choice ∧ (q.perform t).1 = .error f ∧ Dangling f)) := by
  intro t
  have ht : t.Sound := hs.sound.run requests
  have htitled : Regular titling t := hs.titled.run_titled requests
  refine ⟨?_, ?_, ?_⟩
  · intro c hc
    obtain ⟨i, r, hid, hr, _, hv, _⟩ := htitled.keeps c hc
    exact ⟨i, r, hid, hr, hv⟩
  · intro copy c i d hc hid hd hv
    have hcopy := htitled.keeps c (List.mem_of_getElem? hc)
    refine repeats_of_titled ht.ready.sound hcopy (fun hno => ?_) hid hd hv
    refine fits_run hs.sound ?_ requests hno hc
    intro x hx
    rw [hs.unheld] at hx
    cases hx
  · intro copy q hq
    exact request_of_closesBlindly ht hq

/-- Of two holders the first records: its copy says what is stored, and only a completion lets the
second one, who is behind, catch up with the version. -/
theorem version_vouches_late :
    let requests : List Request := [.startFlow (1 : Int) (.int 7),
      .call (.load (Engine.freshId 1)), .call (.through 0 (.record [("a", .int 1)]))]
    let t := published.run requests
    let q : Request := .call (.through 1 .complete)
    published.Fresh ∧ closesBlindly 1 t (q.perform t).2 = true ∧
      (∃ use, q = .call (.through 1 use) ∧ use.mayFinish = true) ∧
      ∃ c d, t.copies[0]? = some c ∧ c.version = 2 ∧
        t.engine.store.getContext (some (Engine.freshId 1)) = .ok (some d) ∧
        d.results = c.results ∧ d.flow = c.flow := by
  intro requests t q
  have hfresh : published.Fresh := ⟨rfl, rfl, rfl, rfl⟩
  obtain ⟨_, hrepeats, hblind⟩ := version_vouches hfresh requests
  have hq : closesBlindly 1 t (q.perform t).2 = true := by decide +kernel
  have hno : published.closedBlindly 0 requests = false := by decide +kernel
  have hcopy : (t.copies[0]?).any (fun c => c.id = some (Engine.freshId 1) && c.version = 2) =
      true := by decide +kernel
  have hstored : (t.engine.store.getContext (some (Engine.freshId 1))).toOption.any
      (Option.any fun d => d.version = 2) = true := by decide +kernel
  obtain ⟨c, hc, hfields⟩ := (Option.any_eq_true _ _).mp hcopy
  rw [Bool.and_eq_true, decide_eq_true_iff, decide_eq_true_iff] at hfields
  obtain ⟨hid, hv⟩ := hfields
  cases hget : t.engine.store.getContext (some (Engine.freshId 1)) with
  | error f =>
    rw [hget] at hstored
    cases hstored
  | ok found =>
    rw [hget] at hstored
    have hfound : (found.any fun d => d.version = 2) = true := hstored
    obtain ⟨d, rfl, hdv⟩ := (Option.any_eq_true _ _).mp hfound
    have hversion : c.version = d.version := hv.trans (of_decide_eq_true hdv).symm
    have hsays := hrepeats 0 c _ d hc hid hget hversion
    obtain ⟨use, huse, hfinish⟩ := hblind 1 q hq
    refine ⟨hfresh, hq, ⟨use, huse, ?_⟩, c, d, hc, hv, rfl, hsays.results hno, hsays.flow⟩
    obtain rfl | rfl | ⟨_, _, rfl, _⟩ := hfinish
    · rfl
    · rfl
    · rfl

/-- A holder who completes a context while another has recorded gets the version of the row, but not
the results that the row has at that version. -/
theorem blind_completion_lacks_results :
    let requests : List Request := [.startFlow (1 : Int) (.int 7),
      .call (.load (Engine.freshId 1)), .call (.through 0 (.record [("a", .int 1)])),
      .call (.through 1 .complete)]
    let t := published.run requests
    (t.copies[1]?).map (fun c => (c.id, c.version, c.results)) =
        some (some (Engine.freshId 1), 3, .object []) ∧
      (t.engine.store.row? (Engine.freshId 1)).map (fun r => (r.version, r.results)) =
        some (3, .object [("a", .int 1)]) := by
  decide +kernel

end DurableFlow.Session
