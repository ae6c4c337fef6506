import DurableFlow.Proofs.Engine.QuietSteps
import DurableFlow.Proofs.Store.RowLives

/-! The two writes of an engine, one that files a context and one that changes a row, on a store
that no other client writes to. A write that fails leaves the store as it was. -/
namespace DurableFlow.Engine
open DurableFlow.Action (Ensures)
open Store (Changed Filed)

/-! ## Fresh ids -/

private theorem toList_padded (start : String) (n : Nat) :
    (start ++ String.ofList (List.replicate (12 - (toString n).length) '0') ++ toString n).toList =
      start.toList ++ (List.replicate (12 - (toString n).length) '0' ++ (toString n).toList) := by
  rw [String.toList_append, String.toList_append, String.toList_ofList, List.append_assoc]

/-- Different draws give different ids. -/
theorem freshId_inj {m n : Nat} (h : freshId m = freshId n) : m = n := by
  have hl := congrArg String.toList h
  unfold freshId at hl
  rw [toList_padded, toList_padded, List.append_cancel_left_eq] at hl
  have hv := congrArg (fun cs => Nat.ofDigitChars 10 cs 0) hl
  simpa [Nat.ofDigitChars_append] using hv

theorem freshId_ne_empty (n : Nat) : freshId n ≠ "" := by
  intro h
  have hl := congrArg String.toList h
  unfold freshId at hl
  rw [toList_padded] at hl
  have hlength := congrArg List.length hl
  simp at hlength

/-! ## Engines that are alone -/

/-- An engine over a sound store that nobody else writes to, and whose ids it has drawn itself. -/
structure Ready (e : Engine) : Prop where
  alone : e.others = []
  unraced : e.faults.racing = false
  sound : e.store.Sound
  drawn : ∀ i r, e.store.row? i = some r → ∃ n, n ≤ e.drawn ∧ i = freshId n

variable {e e' : Engine}

theorem Ready.quiet (he : e.Ready) (h : Quiet e e') : e'.Ready := by
  obtain ⟨ha, hu, hs, hd⟩ := he
  exact ⟨h.others.trans ha, h.racing.trans hu, h.store ▸ hs, h.store.symm ▸ h.drawn.symm ▸ hd⟩

/-- An engine over a memory with one context that it has drawn. -/
theorem ready_of_single {row : Context} {n : Nat} (ho : e.others = []) (hf : e.faults.racing = false)
    (hs : e.store = .memory { Store.Memory.empty with contexts := [(freshId n, row)] })
    (hid : row.id = some (freshId n)) (hindex : row.index = none) (hn : n ≤ e.drawn) : e.Ready := by
  have hsound : e.store.Sound := by
    rw [hs]
    exact Store.Memory.Sound.of_entries (by simp) (List.forall_mem_singleton.mpr ⟨hid, hindex⟩)
  refine ⟨ho, hf, hsound, fun i c h => ⟨n, hn, ?_⟩⟩
  rw [hs] at h
  have hfound : Table.find? i [(freshId n, row)] = some c := h
  cases List.mem_singleton.mp (Table.mem_of_find?_eq_some hfound)
  rfl

theorem Ready.id_ne_empty (h : e.Ready) {i : String} {r : Context} (hr : e.store.row? i = some r) :
    i ≠ "" := by
  obtain ⟨n, _, rfl⟩ := h.drawn i r hr
  exact freshId_ne_empty n

theorem Ready.next_free (h : e.Ready) : e.store.row? (freshId (e.drawn + 1)) = none := by
  cases hr : e.store.row? (freshId (e.drawn + 1)) with
  | none => rfl
  | some r =>
    obtain ⟨n, hn, he⟩ := h.drawn _ r hr
    have := freshId_inj he
    omega

private theorem Ready.changed (h : e.Ready) {s : Store} {i : String} {chs : List Context.Change}
    {time : Moment} {r : Context} (hc : Changed e.store i chs time r s) (hs : s.Sound) :
    ({ e with store := s } : Engine).Ready := by
  refine ⟨h.alone, h.unraced, hs, ?_⟩
  intro j r' hr'
  by_cases hj : j = i
  · exact h.drawn j r (hj ▸ hc.found)
  · exact h.drawn j r' (hc.others j hj ▸ hr')

private theorem Ready.filed (h : e.Ready) {s : Store} {c : Context}
    (hf : Filed e.store (freshId (e.drawn + 1)) c s) (hs : s.Sound) :
    ({ e with store := s, drawn := e.drawn + 1 } : Engine).Ready := by
  refine ⟨h.alone, h.unraced, hs, ?_⟩
  intro j r hr
  by_cases hj : j = freshId (e.drawn + 1)
  · exact ⟨e.drawn + 1, Nat.le_refl _, hj⟩
  · obtain ⟨n, hn, hid⟩ := h.drawn j r (hf.others j hj ▸ hr)
    exact ⟨n, Nat.le_succ_of_le hn, hid⟩

private theorem Ready.of_le (h : e.Ready) {n : Nat} (hn : e.drawn ≤ n) :
    ({ e with drawn := n } : Engine).Ready := by
  refine ⟨h.alone, h.unraced, h.sound, ?_⟩
  intro j r hr
  obtain ⟨m, hm, hid⟩ := h.drawn j r hr
  exact ⟨m, Nat.le_trans hm hn, hid⟩

/-! ## Updates -/

def IsDated (e : Engine) : Prop := ∃ t, (Moment.utc e.clock).dated = .ok t

/-- The time that an engine tells is that of its clock, cut to the millisecond. -/
theorem now_tells {t : Moment} (ht : (Moment.utc e.clock).dated = .ok t) :
    Ensures now e (fun time e' => time = t.cutToMillis ∧ e' = e) (fun _ _ => False) := by
  apply Ensures.bind
  apply Ensures.bind
  apply Ensures.get
  rw [ht]
  exact Ensures.pure ⟨rfl, rfl⟩

theorem now_ensures (he : e.IsDated) :
    Ensures now e (fun _ e' => e' = e) (fun _ _ => False) := by
  obtain ⟨t, ht⟩ := he
  exact (now_tells ht).mono (fun _ _ h => h.2) (fun _ _ hf => hf)

structure Surrounded (e e' : Engine) : Prop where
  others : e'.others = e.others
  racing : e'.faults.racing = e.faults.racing

theorem Quiet.surrounded (h : Quiet e e') : Surrounded e e' := ⟨h.others, h.racing⟩

private theorem Ready.of_surrounded (h : e.Ready) (hs : Surrounded e e')
    (h' : ({ e with store := e'.store, drawn := e'.drawn } : Engine).Ready) : e'.Ready :=
  ⟨hs.others.trans h.alone, hs.racing.trans h.unraced, h'.sound, h'.drawn⟩

private theorem write_applies (e : Engine) (id : Option String) (chs : List Context.Change)
    (expected : Option Int) : Ensures (write id chs expected) e
      (fun v e' => e' = { e with store := e'.store } ∧ ∃ time, (Moment.utc e.clock).dated = .ok time ∧
        e.store.update time e.faults.script id chs expected = .ok (v, e'.store))
      (fun _ e' => e' = e) := by
  apply Ensures.bind
  apply Ensures.bind
  apply Ensures.get
  refine Ensures.ofExcept (fun time ht => ?_) fun _ _ => rfl
  apply Ensures.bind
  apply Ensures.get
  apply Ensures.bind
  refine Ensures.ofExcept ?_ fun _ _ => rfl
  rintro ⟨v, s⟩ hu
  apply Ensures.bind
  apply Ensures.set
  exact Ensures.pure ⟨rfl, time, ht, hu⟩

/-- An update is one of the store as others have left it, or writes nothing. -/
theorem update_yields (e : Engine) (id : Option String) (chs : List Context.Change)
    (expected : Option Int) : Ensures (update id chs expected) e
      (fun v e' => ∃ e₁, Yielded e e₁ ∧ e' = { e₁ with store := e'.store } ∧
        ∃ time, (Moment.utc e₁.clock).dated = .ok time ∧
          e₁.store.update time e₁.faults.script id chs expected = .ok (v, e'.store))
      (fun _ e' => Yielded e e') := by
  have hguards : Yielding (do begin .update; race id expected; refuseBroken id) :=
    (begin_yields _).bind fun _ => (race_yields _ _).bind fun _ => refuseBroken_yields _
  have hsplit : update id chs expected =
      (do begin .update; race id expected; refuseBroken id) >>= fun _ => write id chs expected := by
    simp only [update, bind_assoc]
  rw [hsplit]
  apply Ensures.bind
  refine (hguards e).mono ?_ (fun _ _ hp => hp)
  intro _ e₁ hp
  refine (write_applies e₁ id chs expected).mono (fun _ _ h => ⟨e₁, hp, h⟩) ?_
  rintro _ _ rfl
  exact hp

/-- An update is one of the store, or leaves the store alone. -/
theorem update_applies (he : e.others = []) (id : Option String) (chs : List Context.Change)
    (expected : Option Int) : Ensures (update id chs expected) e
      (fun v e' => Surrounded e e' ∧ e'.drawn = e.drawn ∧ ∃ time fault,
        (Moment.utc e'.clock).dated = .ok time ∧
        e.store.update time fault id chs expected = .ok (v, e'.store))
      (fun _ e' => Quiet e e') := by
  refine (update_yields e id chs expected).mono ?_ (fun _ _ hp => hp.quiet he)
  rintro v e' ⟨e₁, hp, hstate, time, ht, hu⟩
  have hq := hp.quiet he
  rw [hstate]
  exact ⟨⟨hq.others, hq.racing⟩, hq.drawn, time, _, ht, hq.store ▸ hu⟩

/-- An update that succeeds changes one row, at the expected version when one is given. -/
theorem update_ensures (he : e.Ready) (id : Option String) (chs : List Context.Change)
    (expected : Option Int) : Ensures (update id chs expected) e
      (fun v e' => e'.Ready ∧ e'.IsDated ∧ ∃ i r time, id = some i ∧
        Changed e.store i chs time r e'.store ∧ v = r.version + 1 ∧
        ∀ n, expected = some n → n = r.version)
      (fun _ e' => e'.Ready ∧ e'.store = e.store) := by
  refine (update_applies he.alone id chs expected).mono ?_ (fun _ _ hq => ⟨he.quiet hq, hq.store⟩)
  rintro v e' ⟨hs, hd, time, _, ht, hu⟩
  obtain ⟨i, r, hid, hc, hv, hx⟩ := Store.update_changed hu
  have hr : e'.Ready := he.of_surrounded hs (hd ▸ he.changed hc (he.sound.update hu))
  exact ⟨hr, ⟨time, ht⟩, i, r, time, hid, hc, hv, hx⟩

/-! ## Insertions -/

/-- An insertion of a context without an id is one of the store under the next id to be drawn, or
leaves the store alone. -/
theorem insert_applies (he : e.others = []) {c : Context} (hc : c.id = none) :
    Ensures (Action.holding c insert) e
      (fun p e' => Surrounded e e' ∧ e'.drawn = e.drawn + 1 ∧ ∃ time,
        Store.insert (freshId (e.drawn + 1)) time ⟨e.store, c⟩ = .ok () ⟨e'.store, p.2⟩)
      (fun _ e' => Surrounded e e' ∧ e.drawn ≤ e'.drawn ∧ e'.store = e.store) := by
  apply Ensures.holding
  apply Ensures.bind
  apply Ensures.beside
  refine ((begin_yields .insert).quietly e he).mono ?_
    (fun _ _ hq => ⟨hq.surrounded, hq.drawn.ge, hq.store⟩)
  intro _ e₁ hq₁
  apply Ensures.bind
  apply Ensures.beside
  refine (instant_yields.quietly e₁ (hq₁.others.trans he)).mono ?_
    (fun _ _ hq => ⟨(hq₁.trans hq).surrounded, (hq₁.trans hq).drawn.ge, (hq₁.trans hq).store⟩)
  intro time e₂ hq₂
  have hq := hq₁.trans hq₂
  have hi := Store.insert_ensures (freshId (e₂.drawn + 1)) time e₂.store c
  apply Ensures.bind
  apply Ensures.get
  cases ho : Store.insert (freshId (e₂.drawn + 1)) time ⟨e₂.store, c⟩ with
  | ok _ g =>
    have hdrew : (c.id.isNone && g.held.id.isSome) = true := by
      rw [hc, (hi.of_eq_ok ho).1]
      rfl
    simp only [ho]
    apply Ensures.bind
    apply Ensures.set
    apply Ensures.beside
    apply Ensures.modify
    refine ⟨⟨hq.others, hq.racing⟩, ?_, time, ?_⟩
    · simp only [hdrew, if_pos, hq.drawn]
    · rw [← hq.drawn, ← hq.store]
      exact ho
  | error f g =>
    simp only [ho]
    apply Ensures.bind
    apply Ensures.set
    apply Ensures.throw
    refine ⟨⟨hq.others, hq.racing⟩, ?_, (hi.of_eq_error ho).trans hq.store⟩
    dsimp only
    rw [hq.drawn]
    split
    · exact Nat.le_succ _
    · exact Nat.le_refl _

/-- A context without an id is filed under one that no row has. -/
theorem insert_ensures (he : e.Ready) {c : Context} (hc : c.id = none) :
    Ensures (Action.holding c insert) e
      (fun p e' => e'.Ready ∧ ∃ i time, e.store.row? i = none ∧ Filed e.store i p.2 e'.store ∧
        p.2 = (c.named i).stamped time)
      (fun _ e' => e'.Ready ∧ e'.store = e.store) := by
  refine (insert_applies he.alone hc).mono ?_ ?_
  · rintro ⟨_, p⟩ e' ⟨hs, hd, time, hi⟩
    obtain ⟨hheld, hfiled, hsound, _⟩ := (Store.insert_ensures _ time e.store c).of_eq_ok hi
    simp only [hc, Option.getD_none] at hfiled
    refine ⟨he.of_surrounded hs (hd ▸ he.filed hfiled (hsound he.sound)), _, time, he.next_free,
      hfiled, hheld⟩
  · rintro _ e' ⟨hs, hd, hstore⟩
    exact ⟨he.of_surrounded hs (hstore ▸ he.of_le hd), hstore⟩

end DurableFlow.Engine
