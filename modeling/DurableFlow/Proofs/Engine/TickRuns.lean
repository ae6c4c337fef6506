import DurableFlow.Proofs.Engine.AnsweredSteps
import DurableFlow.Proofs.Engine.TickSteps
import DurableFlow.Proofs.Store.DueQueues

/-! Ticks of one time, one after the other, while the updates of some rows keep failing. Each takes a
batch from the front of the queue: what is not broken leaves it, and the broken stay in front. -/
namespace DurableFlow.Engine
open DurableFlow.Action (Ensures)
open Store (Changed Queued)
variable {e e' : Engine} {c r : Context} {i : String} {broken : List String} {t : Moment}

/-- Nobody else writes to the store of an engine, and nothing fails but the updates of some rows. -/
structure Hampered (broken : List String) (e : Engine) : Prop where
  alone : e.others = []
  faults : e.faults = { Faults.none with broken }

def isBroken (broken : List String) (c : Context) : Bool := c.id.any (· ∈ broken)

theorem isBroken_nil : isBroken [] = fun _ => false := by
  funext c
  cases hid : c.id <;> simp [isBroken, hid]

/-! ## One context -/

theorem begin_hampered (h : Hampered broken e) (op : Operation) : begin op e = .ok ⟨⟩ e := by
  obtain ⟨ho, hf⟩ := h
  cases e
  cases ho
  cases hf
  rfl

private theorem race_hampered (h : Hampered broken e) (id : Option String) (expected : Option Int) :
    race id expected e = .ok ⟨⟩ e := by
  obtain ⟨ho, hf⟩ := h
  cases e
  cases hf
  cases expected <;> rfl

private theorem update_hampered (h : Hampered broken e) (changes : List Context.Change)
    (expected : Option Int) : update (some i) changes expected e =
      if i ∈ broken then .error (.storage (.rejected i)) e else write (some i) changes expected e := by
  have hrefuse : refuseBroken (some i) e =
      if i ∈ broken then .error (.storage (.rejected i)) e else .ok ⟨⟩ e := by
    have hbroken : e.faults.broken = broken := by rw [h.faults]
    change (if i ∈ e.faults.broken then throw (.storage (.rejected i)) else pure ⟨⟩ : Run PUnit) e = _
    rw [hbroken]
    split <;> rfl
  rw [update, Action.bind_of_ok (begin_hampered h _), Action.bind_of_ok (race_hampered h _ _)]
  by_cases hi : i ∈ broken
  · rw [if_pos hi] at hrefuse ⊢
    exact Action.bind_of_error hrefuse
  · rw [if_neg hi] at hrefuse ⊢
    exact Action.bind_of_ok hrefuse

private theorem note_answers (level : Level) (text : String) (e : Engine) :
    Ensures (note level text) e (fun _ e' => ∃ journal, e' = { e with journal }) (fun _ _ => False) :=
  Ensures.modify ⟨_, rfl⟩

private theorem wake_fails (h : Hampered broken e) (ho : c.completed = none) (hid : c.id = some i)
    (hi : i ∈ broken) (pass : Pass) : Ensures (wake c pass) e
      (fun pass' e' => pass' = { pass with failed := pass.failed ++ [c.id] } ∧
        ∃ journal, e' = { e with journal })
      (fun _ _ => False) := by
  have hupdate : Ensures (update (some i) [.wakeup none] (some c.version)) e (fun _ _ => False)
      (fun f e' => f = .storage (.rejected i) ∧ e' = e) := by
    unfold Ensures
    rw [update_hampered h, if_pos hi]
    exact ⟨rfl, rfl⟩
  unfold wake resume writeHeld
  apply Ensures.bind
  apply Ensures.attempt
  apply Ensures.holding
  apply Ensures.bind
  refine (requireOpen_answers .resume ho).mono ?_ fun _ _ h => h.elim
  rintro _ _ rfl
  apply Ensures.bind
  apply Ensures.bind
  apply Ensures.held
  apply Ensures.bind
  apply Ensures.beside
  rw [hid]
  refine hupdate.mono (fun _ _ h => h.elim) ?_
  rintro _ _ ⟨rfl, rfl⟩
  apply Ensures.bind
  refine (note_answers _ _ _).mono ?_ fun _ _ h => h.elim
  rintro _ _ hjournal
  exact Ensures.pure ⟨hid ▸ rfl, hjournal⟩

private theorem update_resumes (h : Hampered broken e) (hd : e.IsDated) (hs : e.store.Timely)
    (hr : e.store.row? i = some c) (hw : c.wakeup.isSome) (hi : i ∉ broken) :
    ∃ time s, e.store.update time none (some i) [.wakeup none] (some c.version) =
        .ok (c.version + 1, s) ∧
      Ensures (update (some i) [.wakeup none] (some c.version)) e
        (fun v e' => v = c.version + 1 ∧ e' = { e with store := s }) (fun _ _ => False) := by
  obtain ⟨time, htime⟩ := hd
  have hwell : Store.WellTyped [.wakeup none] := fun v hv => by simp at hv
  obtain ⟨v, s, hu⟩ := hs.sound.update_succeeds hs.connected hr hwell rfl
    (fun n hn => (Option.some.inj hn).symm) (hs.expectable i c hr hw) time
  obtain ⟨j, r, hj, hch, rfl, -⟩ := Store.update_changed hu
  cases hj
  cases hr.symm.trans hch.found
  refine ⟨time, s, hu, ?_⟩
  have hscript : e.faults.script = none := by rw [h.faults]; rfl
  unfold Ensures
  rw [update_hampered h, if_neg hi]
  apply Ensures.bind
  apply Ensures.bind
  apply Ensures.get
  rw [htime]
  apply Ensures.pure
  apply Ensures.bind
  apply Ensures.get
  apply Ensures.bind
  rw [hscript, hu]
  apply Ensures.pure
  apply Ensures.bind
  exact Ensures.set ⟨rfl, rfl⟩

private theorem wake_resumed (h : Hampered broken e) (hd : e.IsDated) (hs : e.store.Timely)
    (hr : e.store.row? i = some c) (ho : c.completed = none) (hw : c.wakeup.isSome)
    (hi : i ∉ broken) (pass : Pass) : Ensures (wake c pass) e
      (fun pass' e' => ∃ updated time v s journal,
        pass' = { pass with resumed := pass.resumed ++ [c.resumed updated] } ∧
        e.store.update time none (some i) [.wakeup none] (some c.version) = .ok (v, s) ∧
        e' = { e with store := s, journal })
      (fun _ _ => False) := by
  obtain ⟨time, s, hu, hupdate⟩ := update_resumes h hd hs hr hw hi
  have hid : c.id = some i := hs.sound.row?_id hr
  have hdated : ({ e with store := s } : Engine).IsDated := hd
  unfold wake resume writeHeld
  apply Ensures.bind
  apply Ensures.attempt
  apply Ensures.holding
  apply Ensures.bind
  refine (requireOpen_answers .resume ho).mono ?_ fun _ _ h => h.elim
  rintro _ _ rfl
  apply Ensures.bind
  apply Ensures.bind
  apply Ensures.held
  apply Ensures.bind
  apply Ensures.beside
  rw [hid]
  refine hupdate.mono ?_ fun _ _ h => h.elim
  rintro _ _ ⟨rfl, rfl⟩
  apply Ensures.bind
  apply Ensures.beside
  refine (now_ensures hdated).mono ?_ fun _ _ h => h.elim
  rintro updated _ rfl
  apply Ensures.alter
  apply Ensures.bind
  apply Ensures.held
  refine (remark_answers _ _).mono ?_ fun _ _ h => h.elim
  rintro _ _ ⟨journal, rfl⟩
  apply Ensures.bind
  refine (note_answers _ _ _).mono ?_ fun _ _ h => h.elim
  rintro _ _ ⟨journal', rfl⟩
  exact Ensures.pure ⟨updated, time, c.version + 1, s, journal', rfl, hu, rfl⟩

/-! ## One batch -/

/-- The rows of some contexts have been resumed, and nothing else has happened to the rows. -/
structure Settled (cs : List Context) (s s' : Store) : Prop where
  kind : s'.kind = s.kind
  resumed : ∀ c ∈ cs, ∃ i updated, s.row? i = some c ∧ s'.row? i = some (c.resumed updated)
  others : ∀ i, (∀ c ∈ cs, c.id ≠ some i) → s'.row? i = s.row? i

namespace Settled
variable {s s' s'' : Store} {cs ds : List Context}

private theorem refl (s : Store) : Settled [] s s :=
  ⟨rfl, fun _ h => absurd h List.not_mem_nil, fun _ _ => rfl⟩

private theorem single (hid : c.id = some i) {time : Moment}
    (hch : Changed s i [.wakeup none] time c s') : Settled [c] s s' := by
  refine ⟨hch.kind, ?_, ?_⟩
  · intro d hd
    rw [List.mem_singleton.mp hd]
    exact ⟨i, _, hch.found, hch.row⟩
  · intro j hj
    refine hch.others j ?_
    rintro rfl
    exact hj c List.mem_cons_self hid

private theorem trans (h : Settled cs s s') (h' : Settled ds s' s'') (hs : s.Sound) (hs' : s'.Sound)
    (hne : ∀ c ∈ cs, ∀ d ∈ ds, d.id ≠ c.id) : Settled (cs ++ ds) s s'' := by
  refine ⟨h'.kind.trans h.kind, ?_, ?_⟩
  · intro c hc
    rcases List.mem_append.mp hc with hc | hc
    · obtain ⟨i, updated, hi, hi'⟩ := h.resumed c hc
      refine ⟨i, updated, hi, (h'.others i fun d hd => ?_).trans hi'⟩
      exact hs.row?_id hi ▸ hne c hc d hd
    · obtain ⟨i, updated, hi, hi'⟩ := h'.resumed c hc
      refine ⟨i, updated, (h.others i fun d hd => ?_).symm.trans hi, hi'⟩
      exact hs'.row?_id hi ▸ (hne d hd c hc).symm
  · intro i hi
    obtain ⟨hcs, hds⟩ := List.forall_mem_append.mp hi
    exact (h'.others i hds).trans (h.others i hcs)

end Settled

/-- What a batch leaves of a queue: those that stay, in front of those that it does not reach. -/
def leave (stays : Context → Bool) (n : Nat) (cs : List Context) : List Context :=
  (cs.take n).filter stays ++ cs.drop n

def Resumptions (cs rs : List Context) : Prop :=
  List.Forall₂ (fun c r => ∃ updated, r = c.resumed updated) cs rs

theorem Resumptions.ids {cs rs : List Context} (h : Resumptions cs rs) :
    rs.map Context.id = cs.map Context.id := by
  induction h with
  | nil => rfl
  | cons hr _ ih =>
    obtain ⟨updated, rfl⟩ := hr
    rw [List.map_cons, List.map_cons, ih]
    rfl

private theorem ids_ne {kept rest : List Context} (h : ((kept ++ c :: rest).map Context.id).Nodup) :
    (∀ d ∈ kept, d.id ≠ c.id) ∧ ∀ d ∈ rest, d.id ≠ c.id := by
  rw [List.map_append, List.map_cons, List.nodup_middle, List.nodup_cons, ← List.map_append] at h
  have hne : ∀ d ∈ kept ++ rest, d.id ≠ c.id := fun d hd he => h.1 (he ▸ List.mem_map_of_mem hd)
  exact List.forall_mem_append.mp hne

private theorem filter_ids {kept rest : List Context} (h : ((kept ++ c :: rest).map Context.id).Nodup) :
    (kept ++ c :: rest).filter (fun d => d.id ≠ c.id) = kept ++ rest := by
  obtain ⟨hkept, hrest⟩ := ids_ne h
  rw [List.filter_append, List.filter_cons_of_neg (by simp),
    List.filter_eq_self.mpr fun d hd => decide_eq_true (hkept d hd),
    List.filter_eq_self.mpr fun d hd => decide_eq_true (hrest d hd)]

private theorem pass_batch (h : Hampered broken e) (hd : e.IsDated) (hs : e.store.Timely)
    (ht : t.IsShown) (kept cs rest : List Context)
    (hq : e.store.queue t = kept ++ cs ++ rest) (pass : Pass) :
    Ensures (cs.foldlM (fun pass c => wake c pass) pass) e
      (fun pass' e' => Hampered broken e' ∧ e'.store.Timely ∧
        e'.store.queue t = kept ++ cs.filter (isBroken broken) ++ rest ∧
        pass'.failed = pass.failed ++ (cs.filter (isBroken broken)).map Context.id ∧
        (∃ rs, pass'.resumed = pass.resumed ++ rs ∧
          Resumptions (cs.filter fun c => !isBroken broken c) rs) ∧
        Settled (cs.filter fun c => !isBroken broken c) e.store e'.store ∧ e'.replaced = e.replaced)
      (fun _ _ => False) := by
  induction cs generalizing e kept pass with
  | nil =>
    refine Ensures.pure ⟨h, hs, ?_, ?_, ⟨[], ?_, .nil⟩, .refl _, rfl⟩
    · simpa using hq
    · simp
    · simp
  | cons c cs ih =>
    rw [List.foldlM_cons]
    apply Ensures.bind
    obtain ⟨hnodup, -, hmembers⟩ := hs.queued ht
    obtain ⟨i, hr, ho, w, hw, -⟩ := (hmembers c).mp (by rw [hq]; simp)
    have hid : c.id = some i := hs.sound.row?_id hr
    have hisBroken : isBroken broken c = decide (i ∈ broken) := by simp [isBroken, hid]
    by_cases hi : i ∈ broken
    · refine (wake_fails h ho hid hi pass).mono ?_ fun _ _ h => h
      rintro _ _ ⟨rfl, journal, rfl⟩
      have h₁ : Hampered broken { e with journal } := ⟨h.alone, h.faults⟩
      have hd₁ : ({ e with journal } : Engine).IsDated := hd
      have hq₁ : e.store.queue t = (kept ++ [c]) ++ cs ++ rest := by simpa using hq
      refine (ih h₁ hd₁ hs (kept ++ [c]) hq₁ _).mono ?_ fun _ _ h => h
      rintro pass' e' ⟨h', hs', hq', hfailed, hresumed, hsettled, hreplaced⟩
      have hb : isBroken broken c = true := hisBroken.trans (decide_eq_true hi)
      simp only [List.filter_cons, hb, if_pos, Bool.not_true, Bool.false_eq_true, if_false]
      exact ⟨h', hs', by simpa using hq', by simpa using hfailed, hresumed, hsettled, hreplaced⟩
    · refine (wake_resumed h hd hs hr ho (by rw [hw]; rfl) hi pass).mono ?_ fun _ _ h => h
      rintro _ _ ⟨updated, time, v, s, journal, rfl, hu, rfl⟩
      have h₁ : Hampered broken { e with store := s, journal } := ⟨h.alone, h.faults⟩
      have hd₁ : ({ e with store := s, journal } : Engine).IsDated := hd
      have hs₁ : s.Timely := hs.update hu
      have hsplit : e.store.queue t = kept ++ c :: (cs ++ rest) := by simpa using hq
      rw [hsplit] at hnodup
      have hq₁ : s.queue t = kept ++ cs ++ rest := by
        rw [hs.queue_update hu, hsplit, ← hid, filter_ids hnodup, List.append_assoc]
      refine (ih h₁ hd₁ hs₁ kept hq₁ _).mono ?_ fun _ _ h => h
      rintro pass' e' ⟨h', hs', hq', hfailed, ⟨rs, hresumed, hrs⟩, hsettled, hreplaced⟩
      have hb : isBroken broken c = false := hisBroken.trans (decide_eq_false hi)
      obtain ⟨j, r, hj, hch, -⟩ := Store.update_changed hu
      cases hj
      cases hr.symm.trans hch.found
      have hne : ∀ b ∈ [c], ∀ d ∈ cs.filter (fun c => !isBroken broken c), d.id ≠ b.id := by
        intro b hb d hd
        rw [List.mem_singleton.mp hb]
        exact (ids_ne hnodup).2 d (List.mem_append_left _ (List.mem_filter.mp hd).1)
      simp only [List.filter_cons, hb, if_pos, Bool.not_false, Bool.false_eq_true, if_false]
      refine ⟨h', hs', hq', hfailed, ⟨c.resumed updated :: rs, ?_, .cons ⟨updated, rfl⟩ hrs⟩, ?_,
        hreplaced⟩
      · rw [hresumed, List.append_assoc, List.singleton_append]
      · exact (Settled.single hid hch).trans hsettled hs.sound hs₁.sound hne

private theorem scan_answers (h : Hampered broken e) {limit : Json} {cs : List Context}
    (hdue : e.store.due (some t) limit = .ok cs) : Ensures (scan (some t) limit) e
      (fun found e' => found = (t, cs) ∧ ∃ journal, e' = { e with journal })
      (fun _ _ => False) := by
  have hread : Ensures (due (some t) limit) e (fun found e' => found = cs ∧ e' = e)
      (fun _ _ => False) := by
    have hracing : e.faults.racing = false := by rw [h.faults]; rfl
    apply Ensures.bind
    apply Ensures.bind
    refine Ensures.of_run (begin_hampered h .due) ?_
    apply Ensures.bind
    apply Ensures.get
    rw [hdue]
    apply Ensures.pure
    apply Ensures.bind
    apply Ensures.get
    rw [hracing]
    exact Ensures.pure ⟨rfl, rfl⟩
  change Ensures (scanAt t limit) e _ _
  unfold scanAt
  apply Ensures.bind
  refine hread.mono ?_ fun _ _ h => h
  rintro _ _ ⟨rfl, rfl⟩
  dsimp only
  split
  · apply Ensures.bind
    refine (note_answers _ _ _).mono ?_ fun _ _ h => h.elim
    rintro _ _ hjournal
    exact Ensures.pure ⟨rfl, hjournal⟩
  · exact Ensures.pure ⟨rfl, _, rfl⟩

/-- A tick takes a batch from the front of the queue. Of it the broken stay in front of the rest, and
all others are resumed. -/
theorem tick_batch (h : Hampered broken e) (hd : e.IsDated) (hs : e.store.Timely) (ht : t.IsShown)
    {limit : Json} {n : Nat} (hdue : e.store.due (some t) limit = .ok ((e.store.queue t).take n)) :
    Ensures (tick (some t) limit) e
      (fun pass e' => Hampered broken e' ∧ e'.store.Timely ∧
        e'.store.queue t = leave (isBroken broken) n (e.store.queue t) ∧
        pass.failed = (((e.store.queue t).take n).filter (isBroken broken)).map Context.id ∧
        Resumptions (((e.store.queue t).take n).filter fun c => !isBroken broken c) pass.resumed ∧
        Settled (((e.store.queue t).take n).filter fun c => !isBroken broken c) e.store e'.store ∧
        e'.replaced = e.replaced)
      (fun _ _ => False) := by
  rw [tick_eq_steps]
  apply Ensures.bind
  refine (scan_answers h hdue).mono ?_ fun _ _ h => h
  rintro _ _ ⟨rfl, journal, rfl⟩
  have h₁ : Hampered broken { e with journal } := ⟨h.alone, h.faults⟩
  have hd₁ : ({ e with journal } : Engine).IsDated := hd
  have hq : e.store.queue t =
      [] ++ (e.store.queue t).take n ++ (e.store.queue t).drop n := by simp
  refine (pass_batch h₁ hd₁ hs ht [] _ _ hq ⟨[], []⟩).mono ?_ fun _ _ h => h
  rintro pass e' ⟨h', hs', hq', hfailed, ⟨rs, hresumed, hrs⟩, hsettled, hreplaced⟩
  refine ⟨h', hs', hq', hfailed, ?_, hsettled, hreplaced⟩
  rw [hresumed]
  exact hrs

/-! ## Successive ticks -/

/-- One tick after the other, all for one time. Each is made at a time of its own, of which it stamps the
rows. -/
def ticks (t : Moment) (limit : Json) : List Int → Run (List Pass)
  | [] => return []
  | clock :: clocks => do
    modify fun e => { e with clock }
    let pass ← tick (some t) limit
    return pass :: (← ticks t limit clocks)

def served (stays : Context → Bool) (n : Nat) : Nat → List Context → List Context
  | 0, _ => []
  | k + 1, cs => (cs.take n).filter (fun c => !stays c) ++ served stays n k (leave stays n cs)

theorem leave_sublist (stays : Context → Bool) (n : Nat) (cs : List Context) :
    (leave stays n cs).Sublist cs := by
  have h := (List.filter_sublist (p := stays) (l := cs.take n)).append (List.Sublist.refl (cs.drop n))
  rwa [List.take_append_drop] at h

theorem mem_of_mem_served {stays : Context → Bool} {n k : Nat} {cs : List Context}
    (hc : c ∈ served stays n k cs) : c ∈ cs := by
  induction k generalizing cs with
  | zero => cases hc
  | succ k ih =>
    rcases List.mem_append.mp hc with hc | hc
    · exact List.mem_of_mem_take (List.mem_filter.mp hc).1
    · exact (leave_sublist stays n cs).subset (ih hc)

private theorem take_limit {α : Type} (limit : Option Nat) {cs : List α} {m : Nat}
    (h : cs.length ≤ m) : cs.take (limit.getD cs.length) = cs.take (limit.getD m) := by
  cases limit with
  | none => rw [Option.getD_none, Option.getD_none, List.take_length, List.take_of_length_le h]
  | some b => rfl

/-- What ticks of one time do, when no tick sees more contexts than the first: none fails, each resumes
the contexts of its batch that are not broken, and the others are left in their order. -/
theorem ticks_serve (h : Hampered broken e) (hs : e.store.Timely) (ha : t.zoned = true)
    (ht : t.IsShown) (hr : e.store.LegibleBy t) {limit : Option Nat} (hl : e.store.Takes limit) {m : Nat}
    (hm : (e.store.queue t).length ≤ m) {clocks : List Int}
    (hclocks : ∀ clock ∈ clocks, (Moment.utc clock).isDated = true) :
    ∃ passes e', ticks t (Store.Access.limitValue limit) clocks e = .ok passes e' ∧
      e'.store.Timely ∧
      e'.store.queue t =
        (leave (isBroken broken) (limit.getD m))^[clocks.length] (e.store.queue t) ∧
      (∀ pass ∈ passes, ∀ id ∈ pass.failed, ∃ i ∈ broken, id = some i) ∧
      Resumptions (served (isBroken broken) (limit.getD m) clocks.length (e.store.queue t))
        (passes.flatMap Pass.resumed) ∧
      Settled (served (isBroken broken) (limit.getD m) clocks.length (e.store.queue t))
        e.store e'.store := by
  induction clocks generalizing e with
  | nil => exact ⟨[], e, rfl, hs, rfl, fun _ h => absurd h List.not_mem_nil, .nil, .refl _⟩
  | cons clock clocks ih =>
    obtain ⟨hclock, hclocks⟩ := List.forall_mem_cons.mp hclocks
    have h₁ : Hampered broken { e with clock } := ⟨h.alone, h.faults⟩
    have hd₁ : ({ e with clock } : Engine).IsDated := ⟨_, if_pos hclock⟩
    have hdue := hs.due_eq ha ht hl hr
    rw [take_limit limit hm] at hdue
    have htick := tick_batch h₁ hd₁ hs ht hdue
    cases hrun : tick (some t) (Store.Access.limitValue limit) { e with clock } with
    | error f e' => exact (htick.of_eq_error hrun).elim
    | ok pass e₂ =>
      obtain ⟨h₂, hs₂, hq₂, hfailed, hresumed, hsettled, -⟩ := htick.of_eq_ok hrun
      change e₂.store.queue t = leave (isBroken broken) (limit.getD m) (e.store.queue t) at hq₂
      change Settled _ e.store e₂.store at hsettled
      have hl₂ : e₂.store.Takes limit := fun hk => hl (hsettled.kind ▸ hk)
      have hr₂ : e₂.store.LegibleBy t := by
        intro hk c hc
        rw [hq₂] at hc
        exact hr (hsettled.kind ▸ hk) c ((leave_sublist _ _ _).subset hc)
      have hm₂ : (e₂.store.queue t).length ≤ m := by
        rw [hq₂]
        exact Nat.le_trans (leave_sublist _ _ _).length_le hm
      obtain ⟨passes, e', hticks, hs', hq', hfailed', hresumed', hsettled'⟩ :=
        ih h₂ hs₂ hr₂ hl₂ hm₂ hclocks
      rw [hq₂] at hq' hresumed' hsettled'
      refine ⟨pass :: passes, e', ?_, hs', hq', ?_, List.rel_append hresumed hresumed', ?_⟩
      · have hrest : (do return pass :: (← ticks t (Store.Access.limitValue limit) clocks) :
            Run (List Pass)) e₂ = .ok (pass :: passes) e' := Action.bind_of_ok hticks
        exact (Action.bind_of_ok hrun).trans hrest
      · refine List.forall_mem_cons.mpr ⟨fun id hid => ?_, hfailed'⟩
        rw [hfailed] at hid
        obtain ⟨c, hc, rfl⟩ := List.mem_map.mp hid
        obtain ⟨i, hi, hbroken⟩ := (Option.any_eq_true _ _).mp (List.mem_filter.mp hc).2
        exact ⟨i, of_decide_eq_true hbroken, hi⟩
      · refine hsettled.trans hsettled' hs.sound hs₂.sound ?_
        -- A row that has been resumed is not in the queue, so that it is not resumed again.
        intro c hc d hd he
        obtain ⟨i, updated, hi, hi'⟩ := hsettled.resumed c hc
        obtain ⟨j, hj, -, w, hw, -⟩ :=
          ((hs₂.queued ht).members d).mp (hq₂ ▸ mem_of_mem_served hd)
        have hij : some j = some i := (hs₂.sound.row?_id hj).symm.trans (he.trans (hs.sound.row?_id hi))
        cases hij
        cases hj.symm.trans hi'
        cases hw

end DurableFlow.Engine
