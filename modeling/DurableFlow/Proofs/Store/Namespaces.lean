import DurableFlow.Proofs.ActionOutcomes
import DurableFlow.Proofs.Text.PlainPatterns
import DurableFlow.Store.Keys

/-! Namespaces on a server. A store reads and writes only keys of its own namespace, so on servers that
are alike under those keys it does the same. -/
namespace DurableFlow.Store

/-! ## Outcomes side by side -/

def Agree {α β : Type} (R : α → β → Prop) : Except Failure α → Except Failure β → Prop
  | .ok a, .ok b => R a b
  | .error f, .error g => f = g
  | _, _ => False

namespace Agree
variable {α β γ δ : Type} {R : α → β → Prop} {S : γ → δ → Prop}

protected theorem pure {a : α} {b : β} (h : R a b) :
    Agree R (pure a : Except Failure α) (pure b : Except Failure β) := h

protected theorem cases {x : Except Failure α} {y : Except Failure β} (h : Agree R x y) :
    (∃ a b, x = .ok a ∧ y = .ok b ∧ R a b) ∨ ∃ f, x = .error f ∧ y = .error f := by
  cases x with
  | ok a =>
    cases y with
    | ok b => exact .inl ⟨a, b, rfl, rfl, h⟩
    | error _ => exact h.elim
  | error f =>
    cases y with
    | ok _ => exact h.elim
    | error g => exact .inr ⟨f, rfl, congrArg Except.error (show f = g from h).symm⟩

protected theorem bind {x : Except Failure α} {y : Except Failure β} {f : α → Except Failure γ}
    {g : β → Except Failure δ} (h : Agree R x y) (hn : ∀ a b, R a b → Agree S (f a) (g b)) :
    Agree S (x >>= f) (y >>= g) := by
  obtain ⟨a, b, rfl, rfl, hr⟩ | ⟨f, rfl, rfl⟩ := h.cases
  · exact hn a b hr
  · rfl

protected theorem refl (x : Except Failure α) : Agree Eq x x := by
  cases x with
  | ok _ => rfl
  | error _ => rfl

/-- Both sides begin with the same step. -/
protected theorem same {x : Except Failure α} {f : α → Except Failure γ} {g : α → Except Failure δ}
    (hn : ∀ a, Agree S (f a) (g a)) : Agree S (x >>= f) (x >>= g) := by
  cases x with
  | ok a => exact hn a
  | error _ => rfl

end Agree

/-- Two runs that end with related values in related states, or with the same failure. -/
def Beside {σ α β : Type} (S : σ → σ → Prop) (R : α → β → Prop) :
    EStateM.Result Failure σ α → EStateM.Result Failure σ β → Prop
  | .ok a s, .ok b t => R a b ∧ S s t
  | .error f s, .error g t => f = g ∧ S s t
  | _, _ => False

namespace Beside
variable {σ α β γ δ : Type} {S : σ → σ → Prop} {R : α → β → Prop} {Q : γ → δ → Prop} {s t : σ}

protected theorem bind {act : Action σ α} {act' : Action σ β} {next : α → Action σ γ}
    {next' : β → Action σ δ} (h : Beside S R (act s) (act' t))
    (hn : ∀ a b s' t', R a b → S s' t' → Beside S Q (next a s') (next' b t')) :
    Beside S Q ((act >>= next) s) ((act' >>= next') t) := by
  change Beside S Q (EStateM.bind act next s) (EStateM.bind act' next' t)
  unfold EStateM.bind
  cases hx : act s with
  | ok a s' =>
    cases hy : act' t with
    | ok b t' =>
      rw [hx, hy] at h
      exact hn a b s' t' h.1 h.2
    | error _ _ =>
      rw [hx, hy] at h
      exact h.elim
  | error _ _ =>
    cases hy : act' t with
    | ok _ _ =>
      rw [hx, hy] at h
      exact h.elim
    | error _ _ =>
      rw [hx, hy] at h
      exact h

protected theorem ofExcept {x : Except Failure α} {y : Except Failure β} (h : Agree R x y)
    (hs : S s t) : Beside S R (Action.ofExcept x s) (Action.ofExcept y t) := by
  obtain ⟨a, b, rfl, rfl, hr⟩ | ⟨f, rfl, rfl⟩ := h.cases
  · exact ⟨hr, hs⟩
  · exact ⟨rfl, hs⟩

end Beside

/-! ## Keys of a namespace -/

def InSpace (ns key : String) : Prop := (ns ++ ":").toList <+: key.toList

def AlikeUnder (ns : String) (s s' : Server) : Prop :=
  ∀ key, InSpace ns key → Table.find? key s' = Table.find? key s

/-- What two servers have become: alike in a namespace, and the first one as it was outside of it. -/
structure Meets (ns : String) (base s s' : Server) : Prop where
  alike : AlikeUnder ns s s'
  outside : ∀ key, ¬ InSpace ns key → Table.find? key s = Table.find? key base

namespace Keys
variable {k : Keys} {s s' base : Server}

def onServer (k : Keys) (s : Server) : Keys := { k with server := s }

@[simp] theorem onServer_server (k : Keys) (s : Server) : (k.onServer s).server = s := rfl

@[simp] theorem over_key (k : Keys) (s : Server) (parts : List String) :
    (k.onServer s).key parts = k.key parts := rfl

@[simp] theorem over_flowKey (k : Keys) (s : Server) (flow : Int) :
    (k.onServer s).flowKey flow = k.flowKey flow := rfl

@[simp] theorem over_revisionsKey (k : Keys) (s : Server) (flow : Int) :
    (k.onServer s).revisionsKey flow = k.revisionsKey flow := rfl

@[simp] theorem over_contextKey (k : Keys) (s : Server) (id : Option String) :
    (k.onServer s).contextKey id = k.contextKey id := rfl

@[simp] theorem over_wakeupsKey (k : Keys) (s : Server) :
    (k.onServer s).wakeupsKey = k.wakeupsKey := rfl

@[simp] theorem over_childrenKey (k : Keys) (s : Server) (parent : Option String) :
    (k.onServer s).childrenKey parent = k.childrenKey parent := rfl

@[simp] theorem over_contactKey (k : Keys) (s : Server) (contact : Json) :
    (k.onServer s).contactKey contact = k.contactKey contact := rfl

@[simp] theorem over_checkConnected (k : Keys) (s : Server) :
    (k.onServer s).checkConnected = k.checkConnected := rfl

@[simp] theorem inSpace_key (k : Keys) (part : String) (parts : List String) :
    InSpace k.ns (k.key (part :: parts)) := by
  rw [InSpace, key, String.intercalate_cons_cons]
  exact ⟨_, String.toList_append.symm⟩

@[simp] theorem inSpace_flowKey (k : Keys) (flow : Int) : InSpace k.ns (k.flowKey flow) :=
  k.inSpace_key _ _

@[simp] theorem inSpace_revisionsKey (k : Keys) (flow : Int) :
    InSpace k.ns (k.revisionsKey flow) := k.inSpace_key _ _

@[simp] theorem inSpace_contextKey (k : Keys) (id : Option String) :
    InSpace k.ns (k.contextKey id) := k.inSpace_key _ _

@[simp] theorem inSpace_wakeupsKey (k : Keys) : InSpace k.ns k.wakeupsKey := k.inSpace_key _ _

@[simp] theorem inSpace_childrenKey (k : Keys) (parent : Option String) :
    InSpace k.ns (k.childrenKey parent) := k.inSpace_key _ _

@[simp] theorem inSpace_contactKey (k : Keys) (contact : Json) :
    InSpace k.ns (k.contactKey contact) := k.inSpace_key _ _

end Keys

namespace AlikeUnder
variable {ns key : String} {s s' : Server}

theorem refl : AlikeUnder ns s s := fun _ _ => rfl

theorem holds (h : AlikeUnder ns s s') (hk : InSpace ns key) : s'.holds key = s.holds key := by
  simp only [Server.holds, h key hk]

theorem counter (h : AlikeUnder ns s s') (hk : InSpace ns key) : s'.counter key = s.counter key := by
  simp only [Server.counter, h key hk]

theorem owners (h : AlikeUnder ns s s') (hk : InSpace ns key) : s'.owners key = s.owners key := by
  simp only [Server.owners, h key hk]

theorem flow? (h : AlikeUnder ns s s') (hk : InSpace ns key) : s'.flow? key = s.flow? key := by
  simp only [Server.flow?, h key hk]

theorem numbers (h : AlikeUnder ns s s') (hk : InSpace ns key) : s'.numbers key = s.numbers key := by
  simp only [Server.numbers, h key hk]

theorem snapshots (h : AlikeUnder ns s s') (hk : InSpace ns key) :
    s'.snapshots key = s.snapshots key := by
  simp only [Server.snapshots, h key hk]

theorem context? (h : AlikeUnder ns s s') (hk : InSpace ns key) :
    s'.context? key = s.context? key := by
  simp only [Server.context?, h key hk]

theorem members (h : AlikeUnder ns s s') (hk : InSpace ns key) : s'.members key = s.members key := by
  simp only [Server.members, h key hk]

end AlikeUnder

namespace Meets
variable {ns key : String} {base s s' : Server}

theorem put (h : Meets ns base s s') (hk : InSpace ns key) (entry : Entry) :
    Meets ns base (Table.put key entry s) (Table.put key entry s') := by
  constructor
  · intro other ho
    rw [Table.find?_put, Table.find?_put, h.alike other ho]
  · intro other ho
    have hne : key ≠ other := fun he => ho (he ▸ hk)
    rw [Table.find?_put, if_neg hne, h.outside other ho]

theorem addMember (h : Meets ns base s s') (hk : InSpace ns key) (member : String) (score : Int) :
    Agree (Meets ns base) (s.addMember key member score) (s'.addMember key member score) := by
  unfold Server.addMember
  rw [h.alike.members hk]
  cases s.members key with
  | ok set => exact h.put hk _
  | error f => rfl

theorem removeMember (h : Meets ns base s s') (hk : InSpace ns key) (member : String) :
    Agree (Meets ns base) (s.removeMember key member) (s'.removeMember key member) := by
  unfold Server.removeMember
  rw [h.alike.members hk]
  cases s.members key with
  | ok set => exact h.put hk _
  | error f => rfl

end Meets

namespace Keys
variable {k : Keys} {s : Server}

/-! ## Reads -/

section Reads
variable (h : AlikeUnder k.ns k.server s)
include h

private theorem resolve?_onServer (identifier : Identifier) :
    (k.onServer s).resolve? identifier = k.resolve? identifier := by
  simp only [resolve?, onServer_server, over_key, h.owners (k.inSpace_key _ _)]

theorem getFlow_onServer (identifier : Identifier) :
    (k.onServer s).getFlow identifier = k.getFlow identifier := by
  simp only [getFlow, over_checkConnected, resolve?_onServer h, onServer_server, over_flowKey,
    over_revisionsKey, h.flow? (k.inSpace_flowKey _), h.snapshots (k.inSpace_revisionsKey _)]

theorem liveRevision_onServer (flow : Int) : (k.onServer s).liveRevision flow = k.liveRevision flow := by
  simp only [liveRevision, over_checkConnected, onServer_server, over_revisionsKey,
    h.snapshots (k.inSpace_revisionsKey _)]

theorem activeFlows_onServer (only : Option Int) :
    (k.onServer s).activeFlows only = k.activeFlows only := by
  simp only [activeFlows, over_checkConnected, onServer_server, over_key, over_flowKey,
    over_revisionsKey, h.numbers (k.inSpace_key _ _), h.flow? (k.inSpace_flowKey _),
    h.snapshots (k.inSpace_revisionsKey _)]

private theorem contextAt_onServer (id : Option String) : (k.onServer s).contextAt id = k.contextAt id := by
  simp only [contextAt, onServer_server, over_contextKey, h.context? (k.inSpace_contextKey _)]

theorem getContext_onServer (id : Option String) : (k.onServer s).getContext id = k.getContext id := by
  simp only [getContext, over_checkConnected, contextAt_onServer h]

private theorem rowsOf_onServer (ids : List String) : (k.onServer s).rowsOf ids = k.rowsOf ids := by
  simp only [rowsOf, contextAt_onServer h]

theorem due_onServer (now : Option Moment) (limit : Json) :
    (k.onServer s).due now limit = k.due now limit := by
  simp only [due, dueIds, over_checkConnected, onServer_server, over_wakeupsKey,
    h.members k.inSpace_wakeupsKey, rowsOf_onServer h]

theorem children_onServer (parent : Option String) :
    (k.onServer s).children parent = k.children parent := by
  simp only [children, over_checkConnected, onServer_server, over_childrenKey,
    h.members (k.inSpace_childrenKey _), rowsOf_onServer h]

theorem ofContact_onServer (contact : Json) (includeCompleted : Bool) :
    (k.onServer s).ofContact contact includeCompleted = k.ofContact contact includeCompleted := by
  simp only [ofContact, over_checkConnected, onServer_server, over_contactKey,
    h.members (k.inSpace_contactKey _), rowsOf_onServer h]

theorem nextWakeup_onServer : (k.onServer s).nextWakeup = k.nextWakeup := by
  simp only [nextWakeup, over_checkConnected, onServer_server, over_wakeupsKey,
    h.members k.inSpace_wakeupsKey]

end Reads

/-! ## Writes -/

def Parallel (k t t' : Keys) : Prop :=
  ∃ u u', t = k.onServer u ∧ t' = k.onServer u' ∧ Meets k.ns k.server u u'

def Lands {α : Type} (k : Keys) (p p' : α × Keys) : Prop := p.1 = p'.1 ∧ Parallel k p.2 p'.2

def Holds {κ : Type} (k : Keys) (g g' : Holding Keys κ) : Prop :=
  g.held = g'.held ∧ Parallel k g.state g'.state

private theorem fileFlow_meets {u u' : Server} (h : Meets k.ns k.server u u') (id : Int)
    (d : Flow.Definition) (previous : Option FlowRow) :
    Agree (Meets k.ns k.server) ((k.onServer u).fileFlow id d previous)
      ((k.onServer u').fileFlow id d previous) := by
  simp only [fileFlow, onServer_server, over_key, over_flowKey, h.alike.owners (k.inSpace_key _ _),
    h.alike.numbers (k.inSpace_key _ _)]
  refine .same fun _ => .same fun _ => .same fun _ => .same fun _ => .same fun _ => ?_
  refine .same fun _ => .same fun _ => .same fun _ => ?_
  exact (((h.put (k.inSpace_flowKey _) _).put (k.inSpace_key _ _) _).put (k.inSpace_key _ _) _).put
    (k.inSpace_key _ _) _

private theorem writeRow_meets (h : AlikeUnder k.ns k.server s) (id : Option String) (member : String)
    (row : ContextRow) : Agree (Meets k.ns k.server) (k.writeRow (k.contextKey id) member row)
      ((k.onServer s).writeRow (k.contextKey id) member row) := by
  have hput := (Meets.mk h fun _ _ => rfl).put (k.inSpace_contextKey id) (.context row)
  unfold writeRow
  dsimp only
  split
  · exact hput.addMember k.inSpace_wakeupsKey _ _
  · exact hput.removeMember k.inSpace_wakeupsKey _

private theorem fileRow_meets (h : AlikeUnder k.ns k.server s) (id : String) (parent : Option String)
    (row : ContextRow) : Agree (Meets k.ns k.server) (k.fileRow id parent row)
      ((k.onServer s).fileRow id parent row) := by
  have hput := (Meets.mk h fun _ _ => rfl).put (k.inSpace_contextKey (some id)) (.context row)
  refine (hput.addMember (k.inSpace_contactKey row.contact) _ _).bind fun s₁ s₁' h₁ => ?_
  refine Agree.bind (R := Meets k.ns k.server) ?_ fun s₂ s₂' h₂ => ?_
  · unfold adopt
    split
    · exact h₁.addMember (k.inSpace_childrenKey parent) _ _
    · exact h₁
  · unfold schedule
    split
    · exact h₂.addMember k.inSpace_wakeupsKey _ _
    · exact h₂

namespace Holds
variable {κ : Type} {g g' : Holding Keys κ}

theorem held (h : Holds k g g') : Beside (Holds k) Eq (Action.held g) (Action.held g') :=
  ⟨h.1, h⟩

theorem alter (h : Holds k g g') (f : κ → κ) :
    Beside (Holds k) Eq (Action.alter f g) (Action.alter f g') :=
  ⟨rfl, congrArg f h.1, h.2⟩

theorem check {α : Type} (h : Holds k g g') (x : Except Failure α) :
    Beside (Holds k) Eq (Action.ofExcept x g) (Action.ofExcept x g') := .ofExcept (.refl x) h

theorem get (h : Holds k g g') : Beside (Holds k) (fun a b => a = g ∧ b = g')
    ((get : Action (Holding Keys κ) (Holding Keys κ)) g)
    ((get : Action (Holding Keys κ) (Holding Keys κ)) g') := ⟨⟨rfl, rfl⟩, h⟩

/-- The servers are written back on both sides. -/
theorem modify {u u' : Server} (h : Holds k g g') (hm : Meets k.ns k.server u u') {t t' : Keys}
    (ht : t = k.onServer u) (ht' : t' = k.onServer u') : Beside (Holds k) (fun _ _ => True)
      ((modify fun g => { g with state := t } : Action (Holding Keys κ) PUnit) g)
      ((modify fun g => { g with state := t' } : Action (Holding Keys κ) PUnit) g') :=
  ⟨trivial, h.1, u, u', ht, ht', hm⟩

end Holds

theorem find?_filter_key (keep : String → Bool) (key : String) (s : Server) :
    Table.find? key (s.filter fun e => keep e.1) =
      if keep key then Table.find? key s else none := by
  induction s with
  | nil => simp [Table.find?]
  | cons e rest ih =>
    obtain ⟨k, v⟩ := e
    by_cases hk : k = key
    · subst hk
      by_cases hkeep : keep k
      · simp [Table.find?, hkeep]
      · rw [List.filter_cons_of_neg (by simpa using hkeep), ih, if_neg hkeep, if_neg hkeep]
    · by_cases hkeep : keep k
      · rw [List.filter_cons_of_pos (by simpa using hkeep)]
        simp only [Table.find?, if_neg hk, ih]
      · rw [List.filter_cons_of_neg (by simpa using hkeep)]
        simp only [Table.find?, if_neg hk, ih]

/-- The pattern of a reset matches exactly the keys of a plain namespace. -/
theorem isMatch_key_iff (hplain : Text.Glob.IsPlain k.ns) (key : String) :
    Text.Glob.isMatch (k.key ["*"]) key = true ↔ InSpace k.ns key := by
  have hcolon : Text.Glob.IsPlain (k.ns ++ ":") := by
    intro c hc
    rw [String.toList_append, List.mem_append] at hc
    obtain hc | hc := hc
    · exact hplain c hc
    · rw [List.mem_singleton.mp hc]
      decide
  have hkey : k.key ["*"] = k.ns ++ ":" ++ "*" := by
    rw [Keys.key, String.intercalate_cons_cons]
    rfl
  rw [hkey, Text.Glob.isMatch_star hcolon, InSpace]

def swept (k : Keys) (s : Server) : Server :=
  s.filter fun e => !Text.Glob.isMatch (k.key ["*"]) e.1

theorem reset_of_connected (h : k.connected = true) : k.reset = .ok (k.onServer (k.swept k.server)) := by
  have hconnected : k.checkConnected = .ok () := if_pos h
  simp only [reset, hconnected]
  rfl

/-- A reset leaves nothing in a plain namespace, and all that is outside of it. -/
theorem find?_swept (hplain : Text.Glob.IsPlain k.ns) (s : Server) (key : String) :
    (InSpace k.ns key → Table.find? key (k.swept s) = none) ∧
      (¬ InSpace k.ns key → Table.find? key (k.swept s) = Table.find? key s) := by
  have hfind : Table.find? key (k.swept s) =
      if !Text.Glob.isMatch (k.key ["*"]) key then Table.find? key s else none :=
    find?_filter_key (fun key => !Text.Glob.isMatch (k.key ["*"]) key) key s
  rw [hfind, ← isMatch_key_iff hplain]
  constructor
  · intro hk
    simp [hk]
  · intro hk
    simp [hk]

section Writes
variable (h : AlikeUnder k.ns k.server s)
include h

theorem saveRevision_onServer (now : Moment) (flow : Int) (document : Json)
    (status : Flow.Publishing) : Agree (Lands k) (k.saveRevision now flow document status)
      ((k.onServer s).saveRevision now flow document status) := by
  simp only [saveRevision, over_checkConnected, onServer_server, over_flowKey, over_revisionsKey,
    h.holds (k.inSpace_flowKey _), h.snapshots (k.inSpace_revisionsKey _)]
  refine .same fun _ => ?_
  split
  · rfl
  · refine .same fun older => .pure ⟨rfl, _, _, rfl, rfl, ?_⟩
    exact (Meets.mk h fun _ _ => rfl).put (k.inSpace_revisionsKey _) _

theorem update_onServer (now : Moment) (fault id : Option String) (changes : List Context.Change)
    (expected : Option Int) : Agree (Lands k) (k.update now fault id changes expected)
      ((k.onServer s).update now fault id changes expected) := by
  simp only [update, over_checkConnected, onServer_server, over_contextKey,
    h.context? (k.inSpace_contextKey _)]
  refine .same fun _ => .same fun _ => ?_
  split
  · rfl
  · rfl
  · split
    · rfl
    · rfl
    · rename_i member _ row _
      refine .same fun _ => ?_
      obtain ⟨u, u', hu, hu', hm⟩ | ⟨f, hu, hu'⟩ :=
        (writeRow_meets h (some member) member (row.advanced fieldText changes now)).cases
      · rw [hu, hu']
        exact .pure ⟨rfl, u, u', rfl, rfl, hm⟩
      · rw [hu, hu']
        rfl

private theorem parallel_self : Parallel k k (k.onServer s) :=
  ⟨k.server, s, rfl, rfl, h, fun _ _ => rfl⟩

theorem insert_onServer (fresh : String) (now : Moment) (c : Context) :
    Beside (Holds k) (fun _ _ => True) (Keys.insert fresh now ⟨k, c⟩)
      (Keys.insert fresh now ⟨k.onServer s, c⟩) := by
  have hfree (id : String) : (k.onServer s).checkFree id = k.checkFree id := by
    simp only [checkFree, onServer_server, over_contextKey, h.holds (k.inSpace_contextKey _)]
  have hstart : Holds k (⟨k, c⟩ : Holding Keys Context) ⟨k.onServer s, c⟩ := ⟨rfl, parallel_self h⟩
  refine hstart.get.bind ?_
  rintro _ _ g g' ⟨rfl, rfl⟩ hs
  refine (hs.check _).bind fun _ _ g g' _ hs => ?_
  refine (hs.alter _).bind fun _ _ g g' _ hs => ?_
  refine hs.held.bind ?_
  rintro c' _ g g' rfl hs
  dsimp only
  rw [hfree]
  refine (hs.check _).bind fun _ _ g g' _ hs => ?_
  refine (hs.alter _).bind fun _ _ g g' _ hs => ?_
  refine hs.held.bind ?_
  rintro filed _ g g' rfl hs
  refine (Beside.ofExcept (fileRow_meets h _ _ _) hs).bind fun u u' g g' hm hs => ?_
  exact hs.modify hm rfl rfl

theorem saveFlow_onServer (d : Flow.Definition) :
    Beside (Holds k) (fun _ _ => True) (Keys.saveFlow ⟨k, d⟩) (Keys.saveFlow ⟨k.onServer s, d⟩) := by
  have howner (index : String) (name : Option String) (d : Flow.Definition) :
      (k.onServer s).checkOwner index name d = k.checkOwner index name d := by
    simp only [checkOwner, onServer_server, over_key, h.owners (k.inSpace_key _ _)]
  have hsame : Meets k.ns k.server k.server s := ⟨h, fun _ _ => rfl⟩
  have hstart : Holds k (⟨k, d⟩ : Holding Keys Flow.Definition) ⟨k.onServer s, d⟩ :=
    ⟨rfl, parallel_self h⟩
  refine hstart.get.bind ?_
  rintro _ _ g g' ⟨rfl, rfl⟩ hs
  refine hs.held.bind ?_
  rintro d _ g g' rfl hs
  dsimp only
  rw [howner, howner, over_checkConnected]
  refine (hs.check _).bind fun _ _ g g' _ hs => ?_
  refine (hs.check _).bind fun _ _ g g' _ hs => ?_
  refine (hs.check _).bind fun _ _ g g' _ hs => ?_
  simp only [onServer_server, over_key, over_flowKey, h.flow? (k.inSpace_flowKey _),
    h.counter (k.inSpace_key _ _)]
  cases d.id with
  | some id =>
    refine (hs.check _).bind ?_
    rintro previous _ g g' rfl hs
    refine (Beside.ofExcept (fileFlow_meets hsame id d previous) hs).bind fun u u' g g' hm hs => ?_
    exact hs.modify hm rfl rfl
  | none =>
    refine (hs.check _).bind ?_
    rintro count _ g g' rfl hs
    have hcounted := hsame.put (k.inSpace_key "flow_seq" []) (.counter (count + 1))
    have hset : Holds k (⟨k.onServer (Table.put (k.key ["flow_seq"]) (.counter (count + 1)) k.server),
        { d with id := some (count + 1) }⟩ : Holding Keys Flow.Definition)
        ⟨k.onServer (Table.put (k.key ["flow_seq"]) (.counter (count + 1)) s),
          { d with id := some (count + 1) }⟩ := ⟨rfl, _, _, rfl, rfl, hcounted⟩
    refine Beside.bind (R := Eq) ⟨rfl, hset⟩ fun _ _ g g' _ hs => ?_
    refine (Beside.ofExcept (fileFlow_meets hcounted _ d none) hs).bind fun u u' g g' hm hs => ?_
    exact hs.modify hm rfl rfl

end Writes

theorem reset_onServer (hplain : Text.Glob.IsPlain k.ns) :
    Agree (Parallel k) k.reset (k.onServer s).reset := by
  have hmeets : Meets k.ns k.server (k.swept k.server) (k.swept s) := by
    constructor
    · intro key hk
      rw [(find?_swept hplain s key).1 hk, (find?_swept hplain k.server key).1 hk]
    · intro key hk
      exact (find?_swept hplain k.server key).2 hk
  exact .same fun _ => .pure ⟨_, _, rfl, rfl, hmeets⟩

end Keys
end DurableFlow.Store
