import DurableFlow.Flow.Compile
import DurableFlow.Proofs.Store.StoredRows
import DurableFlow.Retry

/-! Plain failures. Of all causes only two belong to steps of their own: a dangling reference to an
advance, and a nesting that is too deep to a cancellation. No store, no document and no retry policy
ever gives one of these. Nor does a write or a retry policy tell of an exit that is not there, as a node
does. -/
namespace DurableFlow

/-- Whether a failure is neither a dangling reference nor a nesting that is too deep. -/
def Failure.isPlain : Failure → Bool
  | .dangling .. | .tooDeep => false
  | _ => true

def Failure.isCommon : Failure → Bool
  | .dangling .. | .tooDeep | .noSuchExit .. => false
  | _ => true

theorem Failure.isPlain_of_isCommon {f : Failure} (h : f.isCommon = true) : f.isPlain = true := by
  cases f <;> first | rfl | cases h

def FailsWithin {α : Type} (ways : Failure → Bool) (r : Except Failure α) : Prop :=
  ∀ f, r = .error f → ways f = true

abbrev Plainly {α : Type} (r : Except Failure α) : Prop := FailsWithin Failure.isPlain r

abbrev Commonly {α : Type} (r : Except Failure α) : Prop := FailsWithin Failure.isCommon r

namespace FailsWithin
variable {α β : Type} {ways : Failure → Bool}

@[simp] theorem ok (a : α) : FailsWithin ways (.ok a) := fun _ h => by cases h

@[simp] theorem pure (a : α) : FailsWithin ways (Pure.pure a) := ok a

@[simp] theorem error (f : Failure) :
    FailsWithin ways (.error f : Except Failure α) ↔ ways f = true :=
  ⟨fun h => h f rfl, fun h g hg => by cases hg; exact h⟩

@[simp] theorem throw (f : Failure) :
    FailsWithin ways (throw f : Except Failure α) ↔ ways f = true := error f

@[simp] theorem map {g : α → β} {r : Except Failure α} :
    FailsWithin ways (r.map g) ↔ FailsWithin ways r := by
  cases r with
  | ok a => simp [Except.map]
  | error f => simp [Except.map]

protected theorem bind {next : α → Except Failure β} {r : Except Failure α} (h : FailsWithin ways r)
    (hn : ∀ a, r = .ok a → FailsWithin ways (next a)) : FailsWithin ways (r >>= next) := by
  cases r with
  | ok a => exact hn a rfl
  | error f =>
    intro g hg
    cases hg
    exact h f rfl

theorem mapM {f : α → Except Failure β} (h : ∀ a, FailsWithin ways (f a)) (xs : List α) :
    FailsWithin ways (xs.mapM f) := by
  induction xs with
  | nil => exact pure _
  | cons x rest ih =>
    rw [List.mapM_cons]
    exact (h x).bind fun _ _ => ih.bind fun _ _ => pure _

theorem option_mapM {f : α → Except Failure β} (h : ∀ a, FailsWithin ways (f a)) (o : Option α) :
    FailsWithin ways (o.mapM f) := by
  cases o with
  | none => exact pure _
  | some a => exact map.mpr (h a)

theorem filterMapM {f : α → Except Failure (Option β)} (h : ∀ a, FailsWithin ways (f a))
    (xs : List α) : FailsWithin ways (xs.filterMapM f) := by
  induction xs with
  | nil => exact pure _
  | cons x rest ih =>
    rw [List.filterMapM_cons]
    refine (h x).bind fun y _ => ?_
    cases y with
    | none => exact ih
    | some y => exact ih.bind fun _ _ => pure _

theorem forM {f : α → Except Failure PUnit} (h : ∀ a, FailsWithin ways (f a)) (xs : List α) :
    FailsWithin ways (xs.forM f) := by
  induction xs with
  | nil => exact pure _
  | cons x rest ih =>
    exact (h x).bind fun _ _ => ih

theorem forIn {f : α → β → Except Failure (ForInStep β)} (h : ∀ a b, FailsWithin ways (f a b))
    (xs : List α) (b : β) : FailsWithin ways (forIn xs b f) := by
  induction xs generalizing b with
  | nil => exact pure _
  | cons x rest ih =>
    rw [List.forIn_cons]
    refine (h x b).bind fun r _ => ?_
    cases r with
    | done b => exact pure _
    | yield b => exact ih b

end FailsWithin

theorem Commonly.plainly {α : Type} {r : Except Failure α} (h : Commonly r) : Plainly r :=
  fun f hf => Failure.isPlain_of_isCommon (h f hf)

theorem Context.checkFields_commonly (changes : List Change) : Commonly (checkFields changes) := by
  unfold checkFields
  split <;> simp [Failure.isCommon]

theorem Context.checkVersion_commonly (id : Option String) (expected : Option Int) (stored : Int) :
    Commonly (checkVersion id expected stored) := by
  unfold checkVersion
  split <;> simp [Failure.isCommon]

theorem Moment.dated_commonly (m : Moment) : Commonly m.dated := by
  unfold Moment.dated
  split
  · simp
  · dsimp only
    split
    · simp [Failure.isCommon]
    · split <;> simp [Failure.isCommon]

theorem Context.dated_plainly (c : Context) : Plainly c.dated := by
  have htime (t : Option Moment) : Plainly (checkTime t) := by
    cases t with
    | none => exact FailsWithin.ok _
    | some t => exact FailsWithin.map.mpr t.dated_commonly.plainly
  exact (htime _).bind fun _ _ => (htime _).bind fun _ _ => FailsWithin.pure _

theorem Store.ContextRow.read_plainly (r : ContextRow) : Plainly r.read := Context.dated_plainly _

theorem Identifier.key_plainly (i : Identifier) : Plainly i.key := by
  unfold Identifier.key
  split <;> simp [Failure.isPlain]

namespace Store
open DurableFlow.Action (Ensures)

/-! ## The store in memory -/

namespace Memory

theorem update_commonly (now : Moment) (id : Option String) (changes : List Context.Change)
    (expected : Option Int) (m : Memory) : Commonly (m.update now id changes expected) := by
  refine (Context.checkFields_commonly changes).bind fun _ _ => ?_
  split
  · simp [Failure.isCommon]
  · exact (Context.checkVersion_commonly _ _ _).bind fun _ _ => FailsWithin.pure _

theorem isDue_plainly (now : Option Moment) (c : Context) : Plainly (c.isDue now) := by
  unfold Context.isDue Context.hasCome
  split
  · split
    · simp [Failure.isPlain]
    · split <;> simp [Failure.isPlain]
  · simp

theorem limited_plainly {α : Type} (limit : Json) (items : List α) :
    Plainly (limited limit items) := by
  unfold limited
  split <;> simp [Failure.isPlain]

theorem due_plainly (now : Option Moment) (limit : Json) (m : Memory) :
    Plainly (m.due now limit) := by
  refine FailsWithin.bind (FailsWithin.filterMapM (fun p => ?_) _) fun _ _ => limited_plainly _ _
  exact (isDue_plainly now p.2).bind fun _ _ => FailsWithin.pure _

end Memory

/-! ## The store in tables -/

namespace Rows

theorem checkConnected_commonly (r : Rows) : Commonly r.checkConnected := by
  unfold checkConnected
  split <;> simp [Failure.isCommon]

theorem checkSize_commonly (n : Int) : Commonly (checkSize n) := by
  unfold checkSize
  split <;> simp [Failure.isCommon]

theorem cell_commonly (v : Json) : Commonly (cell v) := by
  unfold cell
  split <;> simp [Failure.isCommon, checkSize_commonly]

theorem checkExpected_commonly (expected : Option Int) : Commonly (checkExpected expected) := by
  unfold checkExpected
  split
  · exact checkSize_commonly _
  · simp

theorem checkChange_commonly (change : Context.Change) : Commonly (checkChange change) := by
  unfold checkChange
  split <;> simp [cell_commonly]

theorem update_commonly (now : Moment) (id : Option String) (changes : List Context.Change)
    (expected : Option Int) (r : Rows) : Commonly (r.update now id changes expected) := by
  refine (checkConnected_commonly r).bind fun _ _ => ?_
  refine (Context.checkFields_commonly changes).bind fun _ _ => ?_
  refine (FailsWithin.forM checkChange_commonly changes).bind fun _ _ => ?_
  refine (checkExpected_commonly expected).bind fun _ _ => ?_
  split
  · simp [Failure.isCommon]
  · refine (Context.checkVersion_commonly _ _ _).bind fun _ _ => ?_
    refine FailsWithin.bind ?_ fun _ _ => FailsWithin.pure _
    unfold checkNode
    split <;> simp [Failure.isCommon]

theorem contextRow_plainly (c : Context) : Plainly (contextRow c) := by
  have hpresent (id column : String) (v : Json) : Plainly (checkPresent id column v) := by
    unfold checkPresent
    split <;> simp [missingIn, Failure.isPlain]
  have htext (id column : String) (v : Option String) : Plainly (presentText id column v) := by
    unfold presentText
    split <;> simp [missingIn, Failure.isPlain]
  refine (cell_commonly _).plainly.bind fun _ _ => (checkSize_commonly _).plainly.bind fun _ _ => ?_
  refine (cell_commonly _).plainly.bind fun _ _ => (hpresent _ _ _).bind fun _ _ => ?_
  exact (htext _ _ _).bind fun _ _ => (hpresent _ _ _).bind fun _ _ => FailsWithin.pure _

theorem getContext_plainly (id : Option String) (r : Rows) : Plainly (r.getContext id) :=
  (checkConnected_commonly r).plainly.bind fun _ _ =>
    FailsWithin.option_mapM ContextRow.read_plainly _

theorem bound?_plainly (limit : Json) : Plainly (bound? limit) := by
  unfold bound?
  split
  · simp
  · refine (cell_commonly _).plainly.bind fun _ _ => ?_
    split <;> simp [Failure.isPlain]

theorem due_plainly (now : Option Moment) (limit : Json) (r : Rows) : Plainly (r.due now limit) :=
  (checkConnected_commonly r).plainly.bind fun _ _ =>
    (bound?_plainly _).bind fun _ _ => FailsWithin.mapM ContextRow.read_plainly _

theorem ofContact_plainly (contact : Json) (includeCompleted : Bool) (r : Rows) :
    Plainly (r.ofContact contact includeCompleted) :=
  (checkConnected_commonly r).plainly.bind fun _ _ =>
    (cell_commonly _).plainly.bind fun _ _ => FailsWithin.mapM ContextRow.read_plainly _

theorem getFlow_plainly (identifier : Identifier) (r : Rows) : Plainly (r.getFlow identifier) := by
  refine (checkConnected_commonly r).plainly.bind fun _ _ => identifier.key_plainly.bind fun key _ => ?_
  dsimp only
  split
  · exact (checkSize_commonly _).plainly.bind fun _ _ => FailsWithin.pure _
  · exact FailsWithin.pure _

theorem liveRevision_plainly (flow : Int) (r : Rows) : Plainly (r.liveRevision flow) :=
  (checkConnected_commonly r).plainly.bind fun _ _ =>
    (checkSize_commonly _).plainly.bind fun _ _ => FailsWithin.pure _

theorem activeFlows_plainly (only : Option Int) (r : Rows) : Plainly (r.activeFlows only) := by
  refine (checkConnected_commonly r).plainly.bind fun _ _ => ?_
  dsimp only
  split
  · exact (checkSize_commonly _).plainly.bind fun _ _ => FailsWithin.pure _
  · exact FailsWithin.pure _

end Rows

/-! ## The store on a server -/

namespace Server
variable (key : String) (s : Server)

theorem members_plainly : Plainly (s.members key) := by
  unfold members
  split <;> simp [Failure.isPlain]

theorem context?_plainly : Plainly (s.context? key) := by
  unfold context?
  split <;> simp [Failure.isPlain]

theorem owners_plainly : Plainly (s.owners key) := by
  unfold owners
  split <;> simp [Failure.isPlain]

theorem flow?_plainly : Plainly (s.flow? key) := by
  unfold flow?
  split <;> simp [Failure.isPlain]

theorem numbers_plainly : Plainly (s.numbers key) := by
  unfold numbers
  split <;> simp [Failure.isPlain]

theorem snapshots_plainly : Plainly (s.snapshots key) := by
  unfold snapshots
  split <;> simp [Failure.isPlain]

theorem addMember_plainly (member : String) (score : Int) : Plainly (s.addMember key member score) :=
  FailsWithin.map.mpr (members_plainly key s)

end Server

namespace Keys

theorem checkConnected_commonly (k : Keys) : Commonly k.checkConnected := by
  unfold checkConnected
  split <;> simp [Failure.isCommon]

theorem update_commonly (now : Moment) (fault id : Option String) (changes : List Context.Change)
    (expected : Option Int) (k : Keys) : Commonly (k.update now fault id changes expected) := by
  refine (checkConnected_commonly k).bind fun _ _ => ?_
  refine (Context.checkFields_commonly changes).bind fun _ _ => ?_
  dsimp only
  split
  · simp [Failure.isCommon]
  · simp [Failure.isCommon]
  · split
    · simp [Failure.isCommon]
    · simp [Failure.isCommon]
    · refine (Context.checkVersion_commonly _ _ _).bind fun _ _ => ?_
      split <;> simp [Failure.isCommon]

theorem fileRow_plainly (k : Keys) (id : String) (parent : Option String) (row : ContextRow) :
    Plainly (k.fileRow id parent row) := by
  refine (Server.addMember_plainly _ _ _ _).bind fun _ _ => FailsWithin.bind ?_ fun _ _ => ?_
  · unfold adopt
    split
    · exact Server.addMember_plainly _ _ _ _
    · simp
  · unfold schedule
    split
    · exact Server.addMember_plainly _ _ _ _
    · simp

theorem contextAt_plainly (id : Option String) (k : Keys) : Plainly (k.contextAt id) := by
  refine (Server.context?_plainly _ _).bind fun row _ => ?_
  split
  · simp
  · refine FailsWithin.bind ?_ fun _ _ => FailsWithin.pure _
    unfold readRow
    split
    · exact ContextRow.read_plainly _
    · split
      · exact ContextRow.read_plainly _
      · simp [Failure.isPlain]

theorem rowsOf_plainly (ids : List String) (k : Keys) : Plainly (k.rowsOf ids) :=
  FailsWithin.filterMapM (fun _ => contextAt_plainly _ _) _

theorem count_plainly (v : Json) : Plainly (count v) := by
  have hfit (n : Int) : Plainly (if -Nat.pow 2 63 ≤ n ∧ n < Nat.pow 2 63 then .ok n
      else .error .notACount : Except Failure Int) := by
    split <;> simp [Failure.isPlain]
  unfold count
  dsimp only
  split
  · exact hfit _
  · simp [Failure.isPlain]
  · split
    · split
      · exact hfit _
      · simp [Failure.isPlain]
    · simp [Failure.isPlain]
  · simp [Failure.isPlain]

theorem dueIds_plainly (now : Option Moment) (limit : Json) (k : Keys) :
    Plainly (k.dueIds now limit) := by
  have hscore : Plainly (score now) := by
    unfold score
    split <;> simp [Failure.isPlain]
  have hbound : Plainly (bound? limit) := by
    unfold bound?
    split <;> simp [count_plainly]
  exact hscore.bind fun _ _ => hbound.bind fun _ _ =>
    (Server.members_plainly _ _).bind fun _ _ => FailsWithin.pure _

theorem getFlow_plainly (identifier : Identifier) (k : Keys) : Plainly (k.getFlow identifier) := by
  refine (checkConnected_commonly k).plainly.bind fun _ _ => FailsWithin.bind ?_ fun flow _ => ?_
  · refine identifier.key_plainly.bind fun key _ => ?_
    split
    · simp
    · exact (Server.owners_plainly _ _).bind fun _ _ => FailsWithin.pure _
    · exact (Server.owners_plainly _ _).bind fun _ _ => FailsWithin.pure _
  · split
    · simp
    · refine (Server.flow?_plainly _ _).bind fun _ _ => ?_
      split
      · simp
      · exact (Server.snapshots_plainly _ _).bind fun _ _ => FailsWithin.pure _

theorem liveRevision_plainly (flow : Int) (k : Keys) : Plainly (k.liveRevision flow) :=
  (checkConnected_commonly k).plainly.bind fun _ _ =>
    (Server.snapshots_plainly _ _).bind fun _ _ => FailsWithin.pure _

theorem activeFlows_plainly (only : Option Int) (k : Keys) : Plainly (k.activeFlows only) := by
  refine (checkConnected_commonly k).plainly.bind fun _ _ => ?_
  dsimp only
  split
  refine (FailsWithin.pure _).bind fun _ _ => ?_
  rotate_left
  refine (FailsWithin.map.mpr (Server.numbers_plainly _ _)).bind fun _ _ => ?_
  all_goals
    apply FailsWithin.filterMapM
    intro flow
    refine (Server.flow?_plainly _ _).bind fun _ _ => ?_
    split
    · simp
    · exact (Server.snapshots_plainly _ _).bind fun _ _ => FailsWithin.pure _

end Keys

/-! ## Any store -/

theorem update_commonly (now : Moment) (fault id : Option String) (changes : List Context.Change)
    (expected : Option Int) (s : Store) : Commonly (s.update now fault id changes expected) := by
  cases s with
  | memory m => exact FailsWithin.map.mpr (m.update_commonly now id changes expected)
  | rows r => exact FailsWithin.map.mpr (r.update_commonly now id changes expected)
  | keys k => exact FailsWithin.map.mpr (k.update_commonly now fault id changes expected)

theorem getContext_plainly (id : Option String) (s : Store) : Plainly (s.getContext id) := by
  cases s with
  | memory m => exact FailsWithin.ok _
  | rows r => exact r.getContext_plainly id
  | keys k => exact (k.checkConnected_commonly).plainly.bind fun _ _ => k.contextAt_plainly id

theorem due_plainly (now : Option Moment) (limit : Json) (s : Store) :
    Plainly (s.due now limit) := by
  cases s with
  | memory m => exact m.due_plainly now limit
  | rows r => exact r.due_plainly now limit
  | keys k =>
    exact k.checkConnected_commonly.plainly.bind fun _ _ => (k.dueIds_plainly now limit).bind fun _ _ =>
      k.rowsOf_plainly _

theorem children_plainly (parent : Option String) (s : Store) : Plainly (s.children parent) := by
  cases s with
  | memory m => exact FailsWithin.ok _
  | rows r =>
    exact r.checkConnected_commonly.plainly.bind fun _ _ =>
      FailsWithin.mapM ContextRow.read_plainly _
  | keys k =>
    exact k.checkConnected_commonly.plainly.bind fun _ _ => (Server.members_plainly _ _).bind fun _ _ =>
      k.rowsOf_plainly _

theorem ofContact_plainly (contact : Json) (includeCompleted : Bool) (s : Store) :
    Plainly (s.ofContact contact includeCompleted) := by
  cases s with
  | memory m => exact FailsWithin.ok _
  | rows r => exact r.ofContact_plainly contact includeCompleted
  | keys k =>
    exact k.checkConnected_commonly.plainly.bind fun _ _ => (Server.members_plainly _ _).bind fun _ _ =>
      (k.rowsOf_plainly _).bind fun _ _ => FailsWithin.pure _

theorem getFlow_plainly (identifier : Identifier) (s : Store) : Plainly (s.getFlow identifier) := by
  cases s with
  | memory m => exact identifier.key_plainly.bind fun _ _ => FailsWithin.pure _
  | rows r => exact r.getFlow_plainly identifier
  | keys k => exact k.getFlow_plainly identifier

theorem liveRevision_plainly (flow : Int) (s : Store) : Plainly (s.liveRevision flow) := by
  cases s with
  | memory m => exact FailsWithin.ok _
  | rows r => exact r.liveRevision_plainly flow
  | keys k => exact k.liveRevision_plainly flow

theorem activeFlows_plainly (only : Option Int) (s : Store) : Plainly (s.activeFlows only) := by
  cases s with
  | memory m => exact FailsWithin.ok _
  | rows r => exact r.activeFlows_plainly only
  | keys k => exact k.activeFlows_plainly only

private theorem insert_plainly_within {σ : Type} {wrap : σ → Store} {t : σ} {c : Context}
    {act : Action (Holding σ Context) Unit}
    (h : Ensures act ⟨t, c⟩ (fun _ _ => True) (fun f _ => f.isPlain = true)) :
    Ensures (within wrap t act) ⟨wrap t, c⟩ (fun _ _ => True) (fun f _ => f.isPlain = true) := by
  unfold Ensures within at *
  cases he : act ⟨t, c⟩ with
  | ok a g => trivial
  | error f g =>
    rw [he] at h
    exact h

/-- An insertion fails plainly if it fails. -/
theorem insert_plainly (fresh : String) (now : Moment) (s : Store) (c : Context) :
    Ensures (Store.insert fresh now) ⟨s, c⟩ (fun _ _ => True) (fun f _ => f.isPlain = true) := by
  cases s with
  | memory m =>
    refine insert_plainly_within ?_
    apply Ensures.bind
    apply Ensures.held
    apply Ensures.bind
    apply Ensures.get
    apply Ensures.bind
    refine Ensures.ofExcept (fun _ _ => trivial) ?_
    unfold Memory.checkFree
    split
    · split <;> simp [Failure.isPlain]
    · simp
  | rows r =>
    refine insert_plainly_within ?_
    apply Ensures.bind
    apply Ensures.get
    apply Ensures.bind
    refine Ensures.ofExcept (fun _ _ => ?_) r.checkConnected_commonly.plainly
    apply Ensures.bind
    apply Ensures.alter
    apply Ensures.bind
    apply Ensures.held
    apply Ensures.bind
    refine Ensures.ofExcept (fun row _ => ?_) (Rows.contextRow_plainly _)
    apply Ensures.bind
    apply Ensures.get
    apply Ensures.bind
    refine Ensures.ofExcept (fun _ _ => trivial) ?_
    unfold Rows.checkFree
    split <;> simp [Failure.isPlain]
  | keys k =>
    refine insert_plainly_within ?_
    apply Ensures.bind
    apply Ensures.get
    apply Ensures.bind
    refine Ensures.ofExcept (fun _ _ => ?_) k.checkConnected_commonly.plainly
    apply Ensures.bind
    apply Ensures.alter
    apply Ensures.bind
    apply Ensures.held
    apply Ensures.bind
    refine Ensures.ofExcept (fun _ _ => ?_) ?_
    · apply Ensures.bind
      apply Ensures.alter
      apply Ensures.bind
      apply Ensures.held
      apply Ensures.bind
      exact Ensures.ofExcept (fun _ _ => trivial) (k.fileRow_plainly _ _ _)
    · unfold Keys.checkFree
      split <;> simp [Failure.isPlain]

end Store

/-! ## Documents -/

namespace Flow

theorem clean_plainly (document : Json) : Plainly (clean document) := by
  unfold clean
  split <;> simp [Failure.isPlain]

theorem elements_plainly (v : Json) : Plainly (elements v) := by
  unfold elements
  split
  · split <;> simp [Failure.isPlain]
  · simp

theorem lookup?_commonly (index : NodeIndex) (name : Json) : Commonly (index.lookup? name) := by
  unfold NodeIndex.lookup?
  split <;> simp [Failure.isCommon]

theorem exitAt_plainly (node : Node) (choice : Json) : Plainly (node.exitAt choice) := by
  unfold Node.exitAt
  dsimp only
  repeat' split
  all_goals simp [Failure.isPlain]

theorem destination_plainly (node : Node) (choice : Json) : Plainly (node.destination choice) :=
  FailsWithin.map.mpr (exitAt_plainly node choice)

private theorem readNode_plainly (flow : Option Int) (position : Nat) (v : Json) :
    Plainly (readNode (.malformed flow) position v) := by
  have haction (node v : Json) : Plainly (readAction (.malformed flow) node v) := by
    unfold readAction
    split <;> simp [Failure.isPlain]
  have hexit (node v : Json) : Plainly (readExit (.malformed flow) node v) := by
    unfold readExit
    split
    · dsimp only
      split <;> simp [Failure.isPlain]
    · simp [Failure.isPlain]
  unfold readNode
  split
  · dsimp only
    split
    · exact FailsWithin.bind (by simp [Failure.isPlain]) fun _ h => by cases h
    · refine (elements_plainly _).bind fun _ _ => (FailsWithin.mapM (haction _) _).bind fun _ _ => ?_
      refine (elements_plainly _).bind fun _ _ => (FailsWithin.mapM (hexit _) _).bind fun _ _ => ?_
      split <;> simp [Failure.isPlain]
  · simp [Failure.isPlain]

private theorem textItems_plainly (node : Node) : Plainly (textItems node) := by
  unfold textItems
  dsimp only
  split
  · simp
  · exact (elements_plainly _).bind fun _ _ => (elements_plainly _).bind fun _ _ => FailsWithin.pure _

private theorem readNodes_plainly (flow : Option Int) (position : Nat) (seen : List Node)
    (defaults : List (String × Json)) (values : List Json) :
    Plainly (readNodes (.malformed flow) position seen defaults values) := by
  induction values generalizing position seen defaults with
  | nil => simp [readNodes]
  | cons v rest ih =>
    rw [readNodes]
    refine (readNode_plainly flow position v).bind fun node _ => ?_
    dsimp only
    split
    · exact FailsWithin.bind (by simp [Failure.isPlain]) fun _ h => by cases h
    · split
      · exact FailsWithin.bind (by simp [Failure.isPlain]) fun _ h => by cases h
      · exact (textItems_plainly node).bind fun _ _ => ih _ _ _

/-- A document that is refused is refused plainly. -/
theorem compile_plainly (d : Definition) (document : Json) : Plainly (compile d document) := by
  have hcheck (index : NodeIndex) (node : Node) (exit : Exit) :
      Plainly (checkExit (.malformed d.id) index node exit) := by
    unfold checkExit
    split
    · simp
    · refine (lookup?_commonly _ _).plainly.bind fun _ _ => ?_
      split <;> simp [Failure.isPlain]
  have hflatten (block : Json) : Plainly (flatten block) := by
    unfold flatten
    split
    · split <;> simp [Failure.isPlain]
    · simp
  unfold compile
  dsimp only
  split
  · split
    · refine (readNodes_plainly d.id 0 [] [] _).bind fun _ _ => FailsWithin.bind ?_ fun _ _ => ?_
      · refine FailsWithin.forIn (fun node _ => FailsWithin.bind ?_ fun _ _ => FailsWithin.pure _) _ _
        exact FailsWithin.forIn (fun exit _ => (hcheck _ _ _).bind fun _ _ => FailsWithin.pure _) _ _
      · exact (hflatten _).bind fun _ _ => FailsWithin.pure _
    · simp [Failure.isPlain]
  · simp [Failure.isPlain]

end Flow

/-! ## Retry policies -/

namespace Amount

theorem doubleOf_commonly (n : Int) : Commonly (doubleOf n) := by
  unfold doubleOf
  split <;> simp [Failure.isCommon]

theorem ofJson_commonly (v : Json) : Commonly (ofJson v) := by
  unfold ofJson
  split <;> simp [Failure.isCommon]

theorem toDouble_commonly (a : Amount) : Commonly a.toDouble := by
  unfold toDouble
  split <;> simp [doubleOf_commonly]

theorem mul_commonly (a b : Amount) : Commonly (a.mul b) := by
  unfold mul
  split
  · simp
  · exact a.toDouble_commonly.bind fun _ _ => b.toDouble_commonly.bind fun _ _ => FailsWithin.pure _

theorem pow_commonly (base : Amount) (n : Int) : Commonly (base.pow n) := by
  have hdouble : Commonly (do doublePower (← base.toDouble) n) := by
    refine base.toDouble_commonly.bind fun _ _ => (doubleOf_commonly n).bind fun _ _ => ?_
    split <;> simp [Failure.isCommon]
  unfold pow
  dsimp only
  split
  · split
    · simp
    · exact hdouble
  · exact hdouble

theorem truncate_commonly (a : Amount) : Commonly a.truncate := by
  unfold truncate
  split
  · simp
  · simp
  · split <;> simp [Failure.isCommon]

theorem nearestInteger_commonly (d : Binary64) : Commonly (nearestInteger d) := by
  unfold nearestInteger
  split
  · simp
  · split <;> simp [Failure.isCommon]

end Amount

theorem RetryPolicy.delayAfter_commonly (p : RetryPolicy) (attempt : Int) :
    Commonly (p.delayAfter attempt) := by
  unfold RetryPolicy.delayAfter
  split
  · simp
  · refine (Amount.ofJson_commonly _).bind fun base _ => (base.pow_commonly _).bind fun growth _ => ?_
    refine (p.initialDelay.mul_commonly growth).bind fun delay _ => ?_
    exact (Amount.truncate_commonly _).bind fun _ _ => FailsWithin.pure _

end DurableFlow
