import DurableFlow.Proofs.Store.Insertions

/-! Optimistic concurrency of the three kinds of stores. Calls of any number of callers reach the
store one after the other; who makes a call plays no part in what the store does with it. -/
namespace DurableFlow.Store

/-- A call that writes contexts. The fresh id of an insertion is drawn outside of the store. -/
inductive Call where
  | insert (fresh : String) (now : Moment) (c : Context)
  | update (now : Moment) (fault id : Option String) (changes : List Context.Change)
      (expected : Option Int)

namespace Call

/-- The answer to a call, and the store after it. An insertion answers with the filed version. -/
def perform : Call → Store → Except Failure Int × Store
  | .insert fresh now c, s =>
    match Store.insert fresh now ⟨s, c⟩ with
    | .ok _ g => (.ok g.held.version, g.state)
    | .error f g => (.error f, g.state)
  | .update now fault id changes expected, s =>
    match s.update now fault id changes expected with
    | .ok (v, t) => (.ok v, t)
    | .error f => (.error f, s)

def isUpdateOf (i : String) : Call → Bool
  | .update _ _ id _ _ => id = some i
  | .insert .. => false

def expects (v : Int) : Call → Bool
  | .update _ _ _ _ expected => expected = some v
  | .insert .. => false

/-- An insertion that draws an id draws one that no context has. Only a store in memory relies on
it: the others refuse an id that is taken. -/
def DrawsFresh (s : Store) : Call → Prop
  | .insert fresh _ c => s.kind = .memory → c.id = none → s.row? fresh = none
  | .update .. => True

end Call

/-- A store together with the calls that it has answered, the last one at the end. -/
structure History where
  store : Store
  log : List (Call × Except Failure Int)

namespace History

def step (h : History) (call : Call) : History :=
  ⟨(call.perform h.store).2, h.log ++ [(call, (call.perform h.store).1)]⟩

def run (h : History) (calls : List Call) : History := calls.foldl step h

def DrawsFresh : History → List Call → Prop
  | _, [] => True
  | h, call :: rest => call.DrawsFresh h.store ∧ DrawsFresh (h.step call) rest

def updates (h : History) (i : String) : Nat :=
  h.log.countP fun (call, answer) => call.isUpdateOf i && answer.isOk

def winners (h : History) (i : String) (v : Int) : Nat :=
  h.log.countP fun (call, answer) => call.isUpdateOf i && call.expects v && answer.isOk

/-- The counters agree with the rows: a version counts the updates, and nobody has won yet at a
version that the row has not left. -/
structure Counted (h : History) : Prop where
  connected : h.store.isConnected = true
  sound : h.store.Sound
  absent : ∀ i, h.store.row? i = none → h.updates i = 0
  version : ∀ i r, h.store.row? i = some r → r.version = 1 + h.updates i
  won : ∀ i v, h.winners i v ≤ 1
  below : ∀ i r v, h.store.row? i = some r → r.version ≤ v → h.winners i v = 0

theorem updates_step (h : History) (call : Call) (i : String) :
    (h.step call).updates i = h.updates i +
      if call.isUpdateOf i && (call.perform h.store).1.isOk then 1 else 0 := by
  simp only [updates, step, List.countP_append, List.countP_singleton]

theorem winners_step (h : History) (call : Call) (i : String) (v : Int) :
    (h.step call).winners i v = h.winners i v +
      if call.isUpdateOf i && call.expects v && (call.perform h.store).1.isOk then 1 else 0 := by
  simp only [winners, step, List.countP_append, List.countP_singleton]

theorem winners_le_updates (h : History) (i : String) (v : Int) : h.winners i v ≤ h.updates i := by
  apply List.countP_mono_left
  intro x _ hx
  simp only [Bool.and_eq_true] at hx ⊢
  exact ⟨hx.1.1, hx.2⟩

theorem perform_update (h : History) (now : Moment) (fault id : Option String)
    (changes : List Context.Change) (expected : Option Int) :
    (∃ f, ((Call.update now fault id changes expected).perform h.store) = (.error f, h.store)) ∨
      ∃ i r s, id = some i ∧ Changed h.store i changes now r s ∧
        (h.store.Sound → s.Sound) ∧ (∀ n, expected = some n → n = r.version) ∧
        (Call.update now fault id changes expected).perform h.store = (.ok (r.version + 1), s) := by
  cases hu : h.store.update now fault id changes expected with
  | error f => exact .inl ⟨f, by simp only [Call.perform, hu]⟩
  | ok p =>
    obtain ⟨v, s⟩ := p
    obtain ⟨i, r, hid, hc, rfl, he⟩ := update_changed hu
    exact .inr ⟨i, r, s, hid, hc, fun hs => hs.update hu, he, by simp only [Call.perform, hu]⟩

private theorem perform_insert {h : History} {fresh : String} {now : Moment} {c : Context}
    (hf : (Call.insert fresh now c).DrawsFresh h.store) :
    (∃ f, (Call.insert fresh now c).perform h.store = (.error f, h.store)) ∨
      ∃ i d s, d.version = 1 ∧ Filed h.store i d s ∧ (h.store.Sound → s.Sound) ∧
        h.store.row? i = none ∧ (Call.insert fresh now c).perform h.store = (.ok 1, s) := by
  have hi := insert_ensures fresh now h.store c
  cases he : Store.insert fresh now ⟨h.store, c⟩ with
  | error f g =>
    have hs := hi.of_eq_error he
    exact .inl ⟨f, by simp only [Call.perform, he, hs]⟩
  | ok _ g =>
    obtain ⟨hheld, hfiled, hsound, hfree⟩ := hi.of_eq_ok he
    have hv : g.held.version = 1 := by rw [hheld]; rfl
    refine .inr ⟨_, g.held, g.state, hv, hfiled, hsound, ?_, by simp only [Call.perform, he, hv]⟩
    by_cases hm : h.store.kind = .memory
    · cases hc : c.id with
      | none => exact hf hm hc
      | some j => simpa only [hc] using hfree (.inr (by simp [hc]))
    · exact hfree (.inl hm)

private theorem Counted.of_failed {h : History} (hc : h.Counted) {call : Call} {f : Failure}
    (hp : call.perform h.store = (.error f, h.store)) : (h.step call).Counted := by
  have hs : (h.step call).store = h.store := by simp only [step, hp]
  have hu (i : String) : (h.step call).updates i = h.updates i := by
    simp [updates_step, hp, Except.isOk, Except.toBool]
  have hw (i : String) (v : Int) : (h.step call).winners i v = h.winners i v := by
    simp [winners_step, hp, Except.isOk, Except.toBool]
  constructor
  · exact hs ▸ hc.connected
  · exact hs ▸ hc.sound
  · intro i hi
    rw [hu]
    exact hc.absent i (hs ▸ hi)
  · intro i r hi
    rw [hu]
    exact hc.version i r (hs ▸ hi)
  · intro i v
    rw [hw]
    exact hc.won i v
  · intro i r v hi
    rw [hw]
    exact hc.below i r v (hs ▸ hi)

private theorem Counted.insert {h : History} (hc : h.Counted) {fresh : String} {now : Moment}
    {c : Context} (hf : (Call.insert fresh now c).DrawsFresh h.store) :
    (h.step (.insert fresh now c)).Counted := by
  obtain ⟨f, hp⟩ | ⟨i, d, s, hv, hfiled, hsound, hnone, hp⟩ := perform_insert hf
  · exact hc.of_failed hp
  have hs : (h.step (.insert fresh now c)).store = s := by simp only [step, hp]
  have hu (j : String) : (h.step (.insert fresh now c)).updates j = h.updates j := by
    simp [updates_step, Call.isUpdateOf]
  have hw (j : String) (v : Int) : (h.step (.insert fresh now c)).winners j v = h.winners j v := by
    simp [winners_step, Call.isUpdateOf]
  have hzero := hc.absent i hnone
  constructor
  · exact hs ▸ hfiled.connected.trans hc.connected
  · exact hs ▸ hsound hc.sound
  · intro j hj
    rw [hs] at hj
    rw [hu]
    by_cases hij : j = i
    · exact hij ▸ hzero
    · exact hc.absent j (hfiled.others j hij ▸ hj)
  · intro j r hj
    rw [hs] at hj
    rw [hu]
    by_cases hij : j = i
    · subst hij
      rw [hfiled.row] at hj
      cases hj
      rw [hzero]
      exact hv
    · exact hc.version j r (hfiled.others j hij ▸ hj)
  · intro j v
    rw [hw]
    exact hc.won j v
  · intro j r v hj hr
    rw [hs] at hj
    rw [hw]
    by_cases hij : j = i
    · subst hij
      exact Nat.le_zero.mp (hzero ▸ h.winners_le_updates j v)
    · exact hc.below j r v (hfiled.others j hij ▸ hj) hr

private theorem Counted.update {h : History} (hc : h.Counted) {now : Moment}
    {fault id : Option String} {changes : List Context.Change} {expected : Option Int} :
    (h.step (.update now fault id changes expected)).Counted := by
  obtain ⟨f, hp⟩ | ⟨i, r, s, rfl, hch, hsound, he, hp⟩ :=
    perform_update h now fault id changes expected
  · exact hc.of_failed hp
  have hs : (h.step (.update now fault (some i) changes expected)).store = s := by
    simp only [step, hp]
  have hu (j : String) : (h.step (.update now fault (some i) changes expected)).updates j =
      h.updates j + if i = j then 1 else 0 := by
    simp [updates_step, Call.isUpdateOf, hp, Except.isOk, Except.toBool]
  have hw (j : String) (v : Int) :
      (h.step (.update now fault (some i) changes expected)).winners j v =
        h.winners j v + if i = j ∧ expected = some v then 1 else 0 := by
    simp [winners_step, Call.isUpdateOf, Call.expects, hp, Except.isOk, Except.toBool]
  have hversion := hc.version i r hch.found
  constructor
  · exact hs ▸ hch.connected.trans hc.connected
  · exact hs ▸ hsound hc.sound
  · intro j hj
    rw [hs] at hj
    have hij : j ≠ i := by
      rintro rfl
      rw [hch.row] at hj
      cases hj
    rw [hu, if_neg (Ne.symm hij)]
    exact hc.absent j (hch.others j hij ▸ hj)
  · intro j r' hj
    rw [hs] at hj
    rw [hu]
    by_cases hij : j = i
    · subst hij
      rw [hch.row] at hj
      cases hj
      change r.version + 1 = _
      rw [if_pos rfl, hversion]
      omega
    · rw [if_neg (Ne.symm hij)]
      exact hc.version j r' (hch.others j hij ▸ hj)
  · intro j v
    rw [hw]
    -- A winner expected the version that the row has just left: nobody had won at it.
    by_cases hj : i = j ∧ expected = some v
    · obtain ⟨rfl, hv⟩ := hj
      have hle : r.version ≤ v := Int.le_of_eq (he v hv).symm
      have hnone : h.winners i v = 0 := hc.below i r v hch.found hle
      rw [if_pos ⟨rfl, hv⟩]
      omega
    · rw [if_neg hj]
      exact hc.won j v
  · intro j r' v hj hr
    rw [hs] at hj
    rw [hw]
    by_cases hij : j = i
    · subst hij
      rw [hch.row] at hj
      cases hj
      have hlt : r.version + 1 ≤ v := hr
      have hne : ¬(j = j ∧ expected = some v) := by
        rintro ⟨_, hv⟩
        have := he v hv
        omega
      rw [if_neg hne]
      exact hc.below j r v hch.found (by omega)
    · rw [if_neg fun hi => hij hi.1.symm]
      exact hc.below j r' v (hch.others j hij ▸ hj) hr

theorem Counted.run {h : History} (hc : h.Counted) {calls : List Call} (hf : h.DrawsFresh calls) :
    (h.run calls).Counted := by
  induction calls generalizing h with
  | nil => exact hc
  | cons call rest ih =>
    obtain ⟨hcall, hrest⟩ := hf
    refine ih ?_ hrest
    cases call with
    | insert fresh now c => exact hc.insert hcall
    | update now fault id changes expected => exact hc.update

theorem updates_le (h : History) (i : String) : h.updates i ≤ h.log.length :=
  List.countP_le_length

theorem length_log_run (h : History) (calls : List Call) :
    (h.run calls).log.length = h.log.length + calls.length := by
  induction calls generalizing h with
  | nil => rfl
  | cons call rest ih =>
    change ((h.step call).run rest).log.length = _
    rw [ih]
    simp only [step, List.length_append, List.length_cons, List.length_nil]
    omega

end History

/-! ## When an update succeeds -/

/-- Changes that name nodes by texts. The types of the other changes leave nothing to check. -/
def WellTyped (changes : List Context.Change) : Prop :=
  ∀ v, Context.Change.node v ∈ changes → ∃ name, v = .string name

theorem checkChange_of_wellTyped {changes : List Context.Change}
    (hw : WellTyped changes) : changes.forM Rows.checkChange = .ok () := by
  induction changes with
  | nil => rfl
  | cons ch rest ih =>
    have hrest := ih fun v hv => hw v (List.mem_cons_of_mem _ hv)
    have hone : Rows.checkChange ch = .ok () := by
      cases ch with
      | node v =>
        obtain ⟨name, rfl⟩ := hw v List.mem_cons_self
        rfl
      | _ => rfl
    exact bind_eq_ok.mpr ⟨(), hone, hrest⟩

theorem addMember_of_members {k : String} {s : Server} {set : List (String × Int)}
    (h : s.members k = .ok set) (member : String) (score : Int) :
    ∃ s', s.addMember k member score = .ok s' := by
  simp only [Server.addMember, h, Except.map]
  exact ⟨_, rfl⟩

private theorem removeMember_of_members {k : String} {s : Server} {set : List (String × Int)}
    (h : s.members k = .ok set) (member : String) : ∃ s', s.removeMember k member = .ok s' := by
  simp only [Server.removeMember, h, Except.map]
  exact ⟨_, rfl⟩

private theorem writeRow_succeeds {k : Keys} (hs : k.Sound) (i : String) (row : ContextRow) :
    ∃ server, k.writeRow (k.contextKey (some i)) i row = .ok server := by
  obtain ⟨set, hset, _⟩ := hs.wakeups
  have hmem : Server.members k.wakeupsKey
      (Table.put (k.contextKey (some i)) (.context row) k.server) = .ok set := by
    rw [← hset]
    apply Server.members_congr
    rw [Table.find?_put, if_neg (k.contextKey_ne_wakeupsKey _)]
  unfold Keys.writeRow
  split
  · exact addMember_of_members hmem _ _
  · exact removeMember_of_members hmem _

def Kind.accept (k : Kind) (changes : List Context.Change) : Except Failure Unit :=
  match k with
  | .rows => do
    changes.forM Rows.checkChange
    Rows.checkNode changes
  | _ => .ok ()

theorem Kind.accept_of_wellTyped (k : Kind) {changes : List Context.Change}
    (hw : WellTyped changes) : k.accept changes = .ok () := by
  cases k with
  | rows =>
    have hn : Context.Change.node .null ∉ changes := by
      intro hm
      obtain ⟨name, hname⟩ := hw _ hm
      cases hname
    refine bind_eq_ok.mpr ⟨(), checkChange_of_wellTyped hw, ?_⟩
    simp [Rows.checkNode, hn]
  | _ => rfl

section Answers
variable {s : Store} {i : String} {r : Context} {changes : List Context.Change}
  {expected : Option Int}

/-- On a connected sound store nothing but the row, its version and the names of the fields decides
whether changes that the store accepts are written. A column must also hold the expected version. -/
theorem Sound.update_accepted (hs : s.Sound) (hc : s.isConnected = true) (hr : s.row? i = some r)
    (hw : s.kind.accept changes = .ok ()) (hf : Context.unknownFields changes = [])
    (he : ∀ n, expected = some n → n = r.version)
    (hb : s.kind = .rows → Rows.checkExpected expected = .ok ()) (now : Moment) :
    ∃ v s', s.update now none (some i) changes expected = .ok (v, s') := by
  cases s with
  | memory m => exact ⟨_, _, wrapped_eq_ok.mpr ⟨_, Memory.update_eq_ok.mpr
      ⟨i, r, rfl, hr, hf, he, rfl, rfl⟩, rfl⟩⟩
  | rows t =>
    obtain ⟨row, hrow, rfl⟩ := Option.map_eq_some_iff.mp hr
    obtain ⟨_, hchanges, hnode⟩ := bind_eq_ok.mp hw
    have hn : Context.Change.node .null ∉ changes := by
      intro hm
      simp [Rows.checkNode, hm] at hnode
    exact ⟨_, _, wrapped_eq_ok.mpr ⟨_, Rows.update_eq_ok.mpr ⟨hc, hchanges,
      hb rfl, hn, row, by simpa using hrow, hf, he, rfl, rfl⟩, rfl⟩⟩
  | keys k =>
    simp only [row?] at hr
    split at hr
    · rename_i row hrow
      cases hr
      obtain ⟨server, hserver⟩ := writeRow_succeeds hs i (row.advanced Keys.fieldText changes now)
      exact ⟨_, _, wrapped_eq_ok.mpr ⟨_, Keys.update_eq_ok.mpr ⟨hc, rfl, i, row, server, rfl,
        Server.context?_eq_some.mpr hrow, hf, he, rfl, hserver, rfl⟩, rfl⟩⟩
    · cases hr

/-- What the store does not accept fails for that. -/
theorem update_refused (hc : s.isConnected = true) (hr : s.row? i = some r) {f : Failure}
    (hw : s.kind.accept changes = .error f) (hf : Context.unknownFields changes = [])
    (he : ∀ n, expected = some n → n = r.version)
    (hb : s.kind = .rows → Rows.checkExpected expected = .ok ()) (now : Moment) :
    s.update now none (some i) changes expected = .error f := by
  cases s with
  | rows t =>
    obtain ⟨row, hrow, rfl⟩ := Option.map_eq_some_iff.mp hr
    have hconnected : t.checkConnected = .ok () := if_pos hc
    have hfind : t.contexts.find? (fun row => some row.id = some i) = some row := by simpa using hrow
    have hupdate : t.update now (some i) changes expected = Kind.rows.accept changes >>= fun _ =>
        let next := row.advanced Rows.textCell changes now
        pure (next.version, t.putContext next) := by
      have hversion : Context.checkVersion (some i) expected row.version = .ok () :=
        checkVersion_eq_ok.mpr he
      have hfields := (checkFields_eq_ok (u := ())).mpr hf
      simp only [Rows.update, hconnected, hfields, hb rfl, hfind, hversion, Kind.accept]
      cases changes.forM Rows.checkChange <;> rfl
    have hfails : t.update now (some i) changes expected = .error f := by
      rw [hupdate, show Kind.rows.accept changes = .error f from hw]
      rfl
    exact congrArg (wrapped Store.rows) hfails
  | _ => cases hw

end Answers

/-- Well-typed changes are accepted by every store. -/
theorem Sound.update_succeeds {s : Store} (hs : s.Sound) (hc : s.isConnected = true) {i : String}
    {r : Context} (hr : s.row? i = some r) {changes : List Context.Change} (hw : WellTyped changes)
    (hf : Context.unknownFields changes = []) {expected : Option Int}
    (he : ∀ n, expected = some n → n = r.version)
    (hb : s.kind = .rows → Rows.checkExpected expected = .ok ()) (now : Moment) :
    ∃ v s', s.update now none (some i) changes expected = .ok (v, s') :=
  hs.update_accepted hc hr (s.kind.accept_of_wellTyped hw) hf he hb now

theorem unknownFields_of_update {now : Moment} {fault id : Option String}
    {changes : List Context.Change} {expected : Option Int} {s s' : Store} {v : Int}
    (h : s.update now fault id changes expected = .ok (v, s')) :
    Context.unknownFields changes = [] := by
  cases s with
  | memory m =>
    obtain ⟨_, hm, _⟩ := wrapped_eq_ok.mp h
    obtain ⟨_, _, _, _, hf, _⟩ := Memory.update_eq_ok.mp hm
    exact hf
  | rows r =>
    obtain ⟨_, hr, _⟩ := wrapped_eq_ok.mp h
    obtain ⟨_, _, _, _, _, _, hf, _⟩ := Rows.update_eq_ok.mp hr
    exact hf
  | keys k =>
    obtain ⟨_, hk, _⟩ := wrapped_eq_ok.mp h
    obtain ⟨_, _, _, _, _, _, _, hf, _⟩ := Keys.update_eq_ok.mp hk
    exact hf

/-! ## Runs from a store without contexts -/

theorem counted_of_vacant {s : Store} (hv : s.Vacant) (hc : s.isConnected = true) :
    History.Counted ⟨s, []⟩ := by
  refine ⟨hc, hv.sound, fun _ _ => rfl, ?_, fun _ _ => Nat.zero_le 1, fun _ _ _ _ _ => rfl⟩
  intro i r hi
  rw [hv.row?_eq_none i] at hi
  cases hi

theorem checkExpected_of_le {expected : Option Int}
    (h : ∀ n, expected = some n → 1 ≤ n ∧ n ≤ Rows.largest) :
    Rows.checkExpected expected = .ok () := by
  cases expected with
  | none => rfl
  | some n =>
    obtain ⟨hlow, hhigh⟩ := h n rfl
    have hmin : -Rows.largest - 1 ≤ n := by
      have hlargest : Rows.largest = 9223372036854775807 := rfl
      omega
    simp only [Rows.checkExpected, Rows.checkSize, hmin, hhigh, and_self, if_pos]

private theorem perform_failed {call : Call} {s t : Store} {f : Failure}
    (h : call.perform s = (.error f, t)) : t = s := by
  cases call with
  | insert fresh now c =>
    have hi := insert_ensures fresh now s c
    simp only [Call.perform] at h
    split at h
    · cases h
    · rename_i he
      cases h
      exact hi.of_eq_error he
  | update now fault id changes expected =>
    simp only [Call.perform] at h
    split at h
    · cases h
    · cases h
      rfl

private theorem update_of_perform {now : Moment} {fault id : Option String}
    {changes : List Context.Change} {expected : Option Int} {s t : Store} {v : Int}
    (h : (Call.update now fault id changes expected).perform s = (.ok v, t)) :
    s.update now fault id changes expected = .ok (v, t) := by
  simp only [Call.perform] at h
  split at h
  · rename_i hu
    cases h
    exact hu
  · cases h

end DurableFlow.Store
