import DurableFlow.Proofs.ActionOutcomes
import DurableFlow.Store

/-! The row of a context as every kind of store keeps it, and what one insertion or one update
makes of the rows. Rounding to the store's precision is part of the row, not of its reader. -/
namespace DurableFlow.Store
open DurableFlow.Action (Ensures)

/-- A bind in `Except` succeeds exactly when both of its steps do. -/
theorem bind_eq_ok {ε α β : Type} {x : Except ε α} {f : α → Except ε β} {b : β} :
    (x >>= f) = .ok b ↔ ∃ a, x = .ok a ∧ f a = .ok b := by
  cases x with
  | error e => simp [bind, Except.bind]
  | ok a => simp [bind, Except.bind]

/-- Steps that all succeed are those of a function. -/
theorem filterMapM_eq_ok {α β : Type} {f : α → Except Failure (Option β)} {g : α → Option β}
    {xs : List α} (h : ∀ x ∈ xs, f x = .ok (g x)) : xs.filterMapM f = .ok (xs.filterMap g) := by
  induction xs with
  | nil => rfl
  | cons x rest ih =>
    obtain ⟨hx, hrest⟩ := List.forall_mem_cons.mp h
    rw [List.filterMapM_cons, List.filterMap_cons, hx, ih hrest]
    cases g x <;> rfl

inductive Kind where
  | memory | rows | keys
  deriving DecidableEq

def kind : Store → Kind
  | .memory _ => .memory
  | .rows _ => .rows
  | .keys _ => .keys

def isConnected : Store → Bool
  | .memory _ => true
  | .rows r => r.connected
  | .keys k => k.connected

namespace Kind

def time : Kind → Moment → Moment
  | .memory, t => t
  | .rows, t | .keys, t => Moment.ofMillis t.millis

def node : Kind → Json → Json
  | .memory, v => v
  | .rows, v => .string (Rows.textCell v)
  | .keys, v => .string (Keys.fieldText v)

def contact : Kind → Json → Json
  | .rows, v => Rows.integerCell ((Rows.cell v).toOption.getD v)
  | _, v => v

/-- A contact as a read tells it. What a server keeps may be a text that spells a number. -/
def told : Kind → Json → Json
  | .keys, .int n => .int n
  | .keys, v => ((Text.readInteger (Keys.fieldText v)).map Json.int).getD v
  | _, v => v

def change (k : Kind) : Context.Change → Context.Change
  | .node v => .node (k.node v)
  | .wakeup t => .wakeup (t.map k.time)
  | .completed t => .completed (t.map k.time)
  | .results v => .results v
  | .other name => .other name

/-- A context as it is filed. On a server a missing text is empty, and so is a missing parent. -/
def filed (k : Kind) (c : Context) : Context where
  id := c.id
  contact := k.contact c.contact
  flow := c.flow
  flowUuid := if k = .keys then some (c.flowUuid.getD "") else c.flowUuid
  node := k.node c.node
  parent := if k = .keys then c.parent.filter (· ≠ "") else c.parent
  wakeup := c.wakeup.map k.time
  completed := c.completed.map k.time
  results := c.results
  version := c.version
  inserted := k.time c.inserted
  updated := k.time c.updated
  index := none

def changed (k : Kind) (changes : List Context.Change) (now : Moment) (r : Context) : Context :=
  { r.applyAll (changes.map k.change) with version := r.version + 1, updated := k.time now }

end Kind

def row? (id : String) : Store → Option Context
  | .memory m => Table.find? id m.contexts
  | .rows r => (r.contexts.find? (·.id = id)).map ContextRow.context
  | .keys k =>
    match Table.find? (k.contextKey (some id)) k.server with
    | some (.context row) => some row.context
    | _ => none

private theorem context_apply (k : Kind) (nodeText : Json → String)
    (ht : k.time = fun t => Moment.ofMillis t.millis) (hn : k.node = fun v => .string (nodeText v))
    (r : ContextRow) (ch : Context.Change) :
    (r.apply nodeText ch).context = r.context.apply (k.change ch) := by
  cases ch <;>
    simp [ContextRow.apply, Context.apply, Kind.change, ContextRow.context, hn, ht,
      Function.comp_def]

private theorem context_foldl (k : Kind) (nodeText : Json → String)
    (ht : k.time = fun t => Moment.ofMillis t.millis) (hn : k.node = fun v => .string (nodeText v))
    (changes : List Context.Change) (r : ContextRow) :
    (changes.foldl (ContextRow.apply nodeText) r).context =
      r.context.applyAll (changes.map k.change) := by
  induction changes generalizing r with
  | nil => rfl
  | cons ch rest ih =>
    rw [List.foldl_cons, ih, context_apply k nodeText ht hn]
    rfl

/-- Writing changes into a row and reading it agrees with changing what is read. -/
theorem context_advanced (k : Kind) (nodeText : Json → String)
    (ht : k.time = fun t => Moment.ofMillis t.millis) (hn : k.node = fun v => .string (nodeText v))
    (changes : List Context.Change) (now : Moment) (r : ContextRow) :
    (r.advanced nodeText changes now).context = k.changed changes now r.context := by
  simp only [Kind.changed, ← context_foldl k nodeText ht hn, ht]
  rfl

/-- Changes leave the id of a row alone. -/
theorem advanced_id (nodeText : Json → String) (changes : List Context.Change) (now : Moment)
    (r : ContextRow) : (r.advanced nodeText changes now).id = r.id := by
  have hf (r : ContextRow) : (changes.foldl (ContextRow.apply nodeText) r).id = r.id := by
    induction changes generalizing r with
    | nil => rfl
    | cons ch rest ih =>
      rw [List.foldl_cons, ih]
      cases ch <;> rfl
  exact hf r

theorem advanced_parent (nodeText : Json → String) (changes : List Context.Change) (now : Moment)
    (r : ContextRow) : (r.advanced nodeText changes now).parent = r.parent := by
  have hf (r : ContextRow) : (changes.foldl (ContextRow.apply nodeText) r).parent = r.parent := by
    induction changes generalizing r with
    | nil => rfl
    | cons ch rest ih =>
      rw [List.foldl_cons, ih]
      cases ch <;> rfl
  exact hf r

theorem checkFields_eq_ok {changes : List Context.Change} {u : Unit} :
    Context.checkFields changes = .ok u ↔ Context.unknownFields changes = [] := by
  unfold Context.checkFields
  split <;> simp_all

theorem checkVersion_eq_ok {id : Option String} {expected : Option Int} {stored : Int}
    {u : Unit} :
    Context.checkVersion id expected stored = .ok u ↔ ∀ n, expected = some n → n = stored := by
  unfold Context.checkVersion
  cases expected with
  | none => simp
  | some n => by_cases h : n = stored <;> simp [h]

/-! ## Updates -/

theorem memory_time : Kind.memory.time = fun t => t := rfl

private theorem memory_change : Kind.memory.change = fun ch => ch := by
  funext ch
  cases ch <;> simp [Kind.change, Kind.node, memory_time]

namespace Memory

/-- An update in memory replaces the row when fields and version are right, and else fails. -/
theorem update_eq_ok {now : Moment} {id : Option String} {changes : List Context.Change}
    {expected : Option Int} {m m' : Memory} {v : Int} :
    m.update now id changes expected = .ok (v, m') ↔
      ∃ i c, id = some i ∧ Table.find? i m.contexts = some c ∧
        Context.unknownFields changes = [] ∧ (∀ n, expected = some n → n = c.version) ∧
        v = c.version + 1 ∧
        m' = { m with contexts := Table.put i (Kind.memory.changed changes now c) m.contexts } := by
  have hch (c : Context) : Kind.memory.changed changes now c =
      { c.applyAll changes with version := c.version + 1, updated := now } := by
    simp [Kind.changed, memory_change, memory_time]
  simp only [update, bind_eq_ok, checkFields_eq_ok, hch]
  constructor
  · rintro ⟨_, hf, h⟩
    split at h
    · cases h
    rename_i c hc
    obtain ⟨i, rfl, hi⟩ := Option.bind_eq_some_iff.mp hc
    obtain ⟨_, hv, h⟩ := bind_eq_ok.mp h
    cases h
    exact ⟨i, c, rfl, hi, hf, checkVersion_eq_ok.mp hv, rfl, rfl⟩
  · rintro ⟨i, c, rfl, hi, hf, hv, rfl, rfl⟩
    refine ⟨(), hf, ?_⟩
    simp only [Option.bind_some, hi]
    exact bind_eq_ok.mpr ⟨(), checkVersion_eq_ok.mpr hv, rfl⟩

end Memory

namespace Rows

theorem checkConnected_eq_ok {r : Rows} {u : Unit} :
    r.checkConnected = .ok u ↔ r.connected = true := by
  unfold checkConnected
  split <;> simp_all

theorem checkNode_eq_ok {changes : List Context.Change} {u : Unit} :
    checkNode changes = .ok u ↔ Context.Change.node .null ∉ changes := by
  unfold checkNode
  split <;> simp_all

/-- An update in tables also checks that every value fits its column. -/
theorem update_eq_ok {now : Moment} {id : Option String} {changes : List Context.Change}
    {expected : Option Int} {r r' : Rows} {v : Int} :
    r.update now id changes expected = .ok (v, r') ↔
      r.connected = true ∧ changes.forM checkChange = .ok () ∧ checkExpected expected = .ok () ∧
        Context.Change.node .null ∉ changes ∧
        ∃ row, r.contexts.find? (fun x => some x.id = id) = some row ∧
          Context.unknownFields changes = [] ∧ (∀ n, expected = some n → n = row.version) ∧
          v = row.version + 1 ∧ r' = r.putContext (row.advanced textCell changes now) := by
  simp only [update, bind_eq_ok, checkFields_eq_ok, checkConnected_eq_ok]
  constructor
  · rintro ⟨_, hc, _, hf, _, ht, _, he, h⟩
    split at h
    · cases h
    rename_i row hrow
    obtain ⟨_, hv, h⟩ := bind_eq_ok.mp h
    obtain ⟨_, hn, h⟩ := bind_eq_ok.mp h
    cases h
    exact ⟨hc, ht, he, checkNode_eq_ok.mp hn, row, hrow, hf, checkVersion_eq_ok.mp hv, rfl, rfl⟩
  · rintro ⟨hc, ht, he, hn, row, hrow, hf, hv, rfl, rfl⟩
    refine ⟨(), hc, (), hf, (), ht, (), he, ?_⟩
    simp only [hrow]
    exact bind_eq_ok.mpr ⟨(), checkVersion_eq_ok.mpr hv,
      bind_eq_ok.mpr ⟨(), checkNode_eq_ok.mpr hn, rfl⟩⟩

end Rows

namespace Keys

theorem checkConnected_eq_ok {k : Keys} {u : Unit} :
    k.checkConnected = .ok u ↔ k.connected = true := by
  unfold checkConnected
  split <;> simp_all

/-- An update on a server replaces the row and its place in the wakeup set in one step. -/
theorem update_eq_ok {now : Moment} {fault : Option String} {id : Option String}
    {changes : List Context.Change} {expected : Option Int} {k k' : Keys} {v : Int} :
    k.update now fault id changes expected = .ok (v, k') ↔
      k.connected = true ∧ fault = none ∧
        ∃ i row server, id = some i ∧ k.server.context? (k.contextKey (some i)) = .ok (some row) ∧
          Context.unknownFields changes = [] ∧ (∀ n, expected = some n → n = row.version) ∧
          v = row.version + 1 ∧
          k.writeRow (k.contextKey (some i)) i (row.advanced fieldText changes now) = .ok server ∧
          k' = { k with server } := by
  simp only [update, bind_eq_ok, checkFields_eq_ok, checkConnected_eq_ok]
  constructor
  · rintro ⟨_, hc, _, hf, h⟩
    split at h
    · cases h
    · cases h
    rename_i i
    split at h
    · cases h
    · cases h
    rename_i row hrow
    obtain ⟨_, hv, h⟩ := bind_eq_ok.mp h
    split at h
    · cases h
    rename_i server hs
    cases h
    exact ⟨hc, rfl, i, row, server, rfl, hrow, hf, checkVersion_eq_ok.mp hv, rfl, hs, rfl⟩
  · rintro ⟨hc, rfl, i, row, server, rfl, hrow, hf, hv, rfl, hs, rfl⟩
    refine ⟨(), hc, (), hf, ?_⟩
    simp only [hrow]
    refine bind_eq_ok.mpr ⟨(), checkVersion_eq_ok.mpr hv, ?_⟩
    simp only [hs]
    rfl

end Keys

/-! ## Insertions -/

/-- What an insertion in memory files, and what it leaves alone when it fails. -/
theorem Memory.insert_ensures (fresh : String) (now : Moment) (m : Memory) (c : Context) :
    Ensures (Memory.insert fresh now) ⟨m, c⟩
      (fun _ g => m.checkFree c = .ok () ∧ g.held = (c.named fresh).stamped now ∧
        g.state = { m with contexts := Table.put (c.id.getD fresh) g.held.unbound m.contexts })
      (fun _ g => g.state = m) := by
  apply Ensures.bind
  apply Ensures.held
  apply Ensures.bind
  apply Ensures.get
  apply Ensures.bind
  apply Ensures.ofExcept
  · intro _ hfree
    exact ⟨hfree, rfl, rfl⟩
  · intro _ _
    rfl

/-- What an insertion in tables files, and what it leaves alone when it fails. -/
theorem Rows.insert_ensures (fresh : String) (now : Moment) (r : Rows) (c : Context) :
    Ensures (Rows.insert fresh now) ⟨r, c⟩
      (fun _ g => g.held = (c.named fresh).stamped now ∧ ∃ row, contextRow g.held = .ok row ∧
        r.checkFree row = .ok () ∧ g.state = { r with contexts := r.contexts ++ [row] })
      (fun _ g => g.state = r) := by
  apply Ensures.bind
  apply Ensures.get
  apply Ensures.bind
  apply Ensures.ofExcept
  · intro _ _
    apply Ensures.bind
    apply Ensures.alter
    apply Ensures.bind
    apply Ensures.held
    apply Ensures.bind
    apply Ensures.ofExcept
    · intro row hrow
      apply Ensures.bind
      apply Ensures.get
      apply Ensures.bind
      apply Ensures.ofExcept
      · intro _ hfree
        exact ⟨rfl, row, hrow, hfree, rfl⟩
      · intro _ _
        rfl
    · intro _ _
      rfl
  · intro _ _
    rfl

/-- What an insertion on a server files, and what it leaves alone when it fails. -/
theorem Keys.insert_ensures (fresh : String) (now : Moment) (k : Keys) (c : Context) :
    Ensures (Keys.insert fresh now) ⟨k, c⟩
      (fun _ g => g.held = (c.named fresh).stamped now ∧ k.checkFree (c.id.getD fresh) = .ok () ∧
        ∃ server, k.fileRow (c.id.getD fresh) c.parent (contextRow g.held) = .ok server ∧
          g.state = { k with server })
      (fun _ g => g.state = k) := by
  apply Ensures.bind
  apply Ensures.get
  apply Ensures.bind
  apply Ensures.ofExcept
  · intro _ _
    apply Ensures.bind
    apply Ensures.alter
    apply Ensures.bind
    apply Ensures.held
    apply Ensures.bind
    apply Ensures.ofExcept
    · intro _ hfree
      apply Ensures.bind
      apply Ensures.alter
      apply Ensures.bind
      apply Ensures.held
      apply Ensures.bind
      apply Ensures.ofExcept
      · intro server hserver
        exact ⟨rfl, hfree, server, hserver, rfl⟩
      · intro _ _
        rfl
    · intro _ _
      rfl
  · intro _ _
    rfl

/-- An insertion in tables whose three checks succeed. -/
theorem Rows.insert_of_ok {fresh : String} {now : Moment} {r : Rows} {c : Context}
    {row : ContextRow} (hc : r.checkConnected = .ok ())
    (hrow : contextRow ((c.named fresh).stamped now) = .ok row)
    (hfree : r.checkFree row = .ok ()) :
    Store.insert fresh now ⟨.rows r, c⟩ =
      .ok () ⟨.rows { r with contexts := r.contexts ++ [row] }, (c.named fresh).stamped now⟩ := by
  have hinsert : Rows.insert fresh now ⟨r, c⟩ =
      .ok () ⟨{ r with contexts := r.contexts ++ [row] }, (c.named fresh).stamped now⟩ := by
    refine (Action.bind_of_ok rfl).trans ?_
    refine (Action.bind_of_ok (Action.ofExcept_of_ok hc)).trans ?_
    refine (Action.bind_of_ok rfl).trans ((Action.bind_of_ok rfl).trans ?_)
    refine (Action.bind_of_ok (Action.ofExcept_of_ok hrow)).trans ?_
    refine (Action.bind_of_ok rfl).trans ?_
    exact Action.bind_of_ok (Action.ofExcept_of_ok hfree)
  change within .rows r (Rows.insert fresh now) ⟨.rows r, c⟩ = _
  rw [within, hinsert]

/-- An insertion on a server whose checks succeed, and whose row finds its place in the sets. -/
theorem Keys.insert_of_ok {fresh : String} {now : Moment} {k : Keys} {c : Context}
    {server : Server} (hc : k.checkConnected = .ok ())
    (hfree : k.checkFree (c.id.getD fresh) = .ok ())
    (hf : k.fileRow (c.id.getD fresh) c.parent (contextRow ((c.named fresh).stamped now)) =
      .ok server) :
    Store.insert fresh now ⟨.keys k, c⟩ =
      .ok () ⟨.keys { k with server }, (c.named fresh).stamped now⟩ := by
  have hinsert : Keys.insert fresh now ⟨k, c⟩ =
      .ok () ⟨{ k with server }, (c.named fresh).stamped now⟩ := by
    refine (Action.bind_of_ok rfl).trans ?_
    refine (Action.bind_of_ok (Action.ofExcept_of_ok hc)).trans ?_
    refine (Action.bind_of_ok rfl).trans ((Action.bind_of_ok rfl).trans ?_)
    refine (Action.bind_of_ok (Action.ofExcept_of_ok hfree)).trans ?_
    refine (Action.bind_of_ok rfl).trans ((Action.bind_of_ok rfl).trans ?_)
    exact Action.bind_of_ok (Action.ofExcept_of_ok hf)
  change within .keys k (Keys.insert fresh now) ⟨.keys k, c⟩ = _
  rw [within, hinsert]

end DurableFlow.Store
