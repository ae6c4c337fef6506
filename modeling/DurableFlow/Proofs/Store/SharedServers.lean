import DurableFlow.Proofs.Store.Namespaces

/-! Two stores on one server. When their namespaces are plain and apart, each of them answers as if the
server were its own, and a reset of one takes away its keys and none of the other's. -/
namespace DurableFlow.Store
open DurableFlow.Flow (Definition Revision Publishing)

/-! ## Commands -/

/-- An operation of a store on a server. The fresh id, the readings of the clock and the fault of the
update script come from outside. -/
inductive Command where
  | connect
  | close
  | saveFlow (d : Definition)
  | saveRevision (now : Moment) (flow : Int) (document : Json) (status : Publishing)
  | getFlow (identifier : Identifier)
  | liveRevision (flow : Int)
  | activeFlows (only : Option Int)
  | insert (fresh : String) (now : Moment) (c : Context)
  | update (now : Moment) (fault id : Option String) (changes : List Context.Change)
      (expected : Option Int)
  | getContext (id : Option String)
  | due (now : Option Moment) (limit : Json)
  | children (parent : Option String)
  | ofContact (contact : Json) (includeCompleted : Bool)
  | nextWakeup
  | reset

/-- What a command gives back. A flow or a context that was to be written comes back as it is then held,
with the failure if there was one. -/
inductive Answer where
  | done (outcome : Except Failure Unit)
  | flow (d : Definition) (failure : Option Failure)
  | context (c : Context) (failure : Option Failure)
  | revision (outcome : Except Failure Revision)
  | version (outcome : Except Failure Int)
  | foundFlow (outcome : Except Failure (Option Definition))
  | live (outcome : Except Failure (Option Revision))
  | active (outcome : Except Failure (List (Definition × Json)))
  | foundContext (outcome : Except Failure (Option Context))
  | contexts (outcome : Except Failure (List Context))
  | time (outcome : Except Failure (Option Moment))

namespace Keys

def written {α : Type} (answer : Except Failure α → Answer) (k : Keys) :
    Except Failure (α × Keys) → Answer × Keys
  | .ok (a, t) => (answer (.ok a), t)
  | .error f => (answer (.error f), k)

def writtenHeld {κ : Type} (answer : κ → Option Failure → Answer) :
    EStateM.Result Failure (Holding Keys κ) Unit → Answer × Keys
  | .ok () g => (answer g.held none, g.state)
  | .error f g => (answer g.held (some f), g.state)

def perform (k : Keys) : Command → Answer × Keys
  | .connect => (.done (.ok ()), k.connect)
  | .close => (.done (.ok ()), k.close)
  | .saveFlow d => writtenHeld .flow (Keys.saveFlow ⟨k, d⟩)
  | .saveRevision now flow document status =>
    written .revision k (k.saveRevision now flow document status)
  | .getFlow identifier => (.foundFlow (k.getFlow identifier), k)
  | .liveRevision flow => (.live (k.liveRevision flow), k)
  | .activeFlows only => (.active (k.activeFlows only), k)
  | .insert fresh now c => writtenHeld .context (Keys.insert fresh now ⟨k, c⟩)
  | .update now fault id changes expected =>
    written .version k (k.update now fault id changes expected)
  | .getContext id => (.foundContext (k.getContext id), k)
  | .due now limit => (.contexts (k.due now limit), k)
  | .children parent => (.contexts (k.children parent), k)
  | .ofContact contact includeCompleted => (.contexts (k.ofContact contact includeCompleted), k)
  | .nextWakeup => (.time k.nextWakeup, k)
  | .reset => written .done k (k.reset.map fun t => ((), t))

def answers (k : Keys) : List Command → List Answer
  | [] => []
  | q :: rest => (k.perform q).1 :: (k.perform q).2.answers rest

end Keys

namespace Keys
variable {k : Keys} {s : Server}

/-- On two servers a command gives the same answer and makes the same store, apart from the servers:
these stay alike in the namespace, and nothing has changed outside of it. -/
structure Echoes (k : Keys) (r r' : Answer × Keys) : Prop where
  answer : r'.1 = r.1
  ns : r.2.ns = k.ns
  store : r'.2 = r.2.onServer r'.2.server
  servers : Meets k.ns k.server r.2.server r'.2.server

private theorem echoes_read (h : AlikeUnder k.ns k.server s) {α : Type} (answer : α → Answer) {x y : α}
    (hxy : y = x) : Echoes k (answer x, k) (answer y, k.onServer s) :=
  ⟨congrArg answer hxy, rfl, rfl, h, fun _ _ => rfl⟩

private theorem echoes_written (h : AlikeUnder k.ns k.server s) {α : Type}
    (answer : Except Failure α → Answer) {x y : Except Failure (α × Keys)}
    (ha : Agree (Lands k) x y) : Echoes k (written answer k x) (written answer (k.onServer s) y) := by
  obtain ⟨⟨a, _⟩, ⟨b, _⟩, rfl, rfl, hab, u, u', rfl, rfl, hm⟩ | ⟨f, rfl, rfl⟩ := ha.cases
  · cases (show a = b from hab)
    exact ⟨rfl, rfl, rfl, hm⟩
  · exact ⟨rfl, rfl, rfl, h, fun _ _ => rfl⟩

private theorem echoes_writtenHeld {κ : Type} (answer : κ → Option Failure → Answer)
    {x y : EStateM.Result Failure (Holding Keys κ) Unit}
    (hb : Beside (Holds k) (fun _ _ => True) x y) :
    Echoes k (writtenHeld answer x) (writtenHeld answer y) := by
  have hecho {g g' : Holding Keys κ} (hg : Holds k g g') (failure : Option Failure) :
      Echoes k (answer g.held failure, g.state) (answer g'.held failure, g'.state) := by
    obtain ⟨hheld, u, u', hu, hu', hm⟩ := hg
    rw [hheld, hu, hu']
    exact ⟨rfl, rfl, rfl, hm⟩
  cases x with
  | ok _ g =>
    cases y with
    | ok _ g' => exact hecho hb.2 none
    | error _ _ => exact hb.elim
  | error f g =>
    cases y with
    | ok _ _ => exact hb.elim
    | error f' g' =>
      cases hb.1
      exact hecho hb.2 (some f)

/-- A command does the same on servers that are alike in the namespace. -/
theorem perform_onServer (hplain : Text.Glob.IsPlain k.ns) (h : AlikeUnder k.ns k.server s) (q : Command) :
    Echoes k (k.perform q) ((k.onServer s).perform q) := by
  cases q with
  | connect => exact ⟨rfl, rfl, rfl, h, fun _ _ => rfl⟩
  | close => exact ⟨rfl, rfl, rfl, h, fun _ _ => rfl⟩
  | saveFlow d => exact echoes_writtenHeld .flow (saveFlow_onServer h d)
  | saveRevision now flow document status =>
    exact echoes_written h .revision (saveRevision_onServer h now flow document status)
  | getFlow identifier => exact echoes_read h .foundFlow (getFlow_onServer h identifier)
  | liveRevision flow => exact echoes_read h .live (liveRevision_onServer h flow)
  | activeFlows only => exact echoes_read h .active (activeFlows_onServer h only)
  | insert fresh now c => exact echoes_writtenHeld .context (insert_onServer h fresh now c)
  | update now fault id changes expected =>
    exact echoes_written h .version (update_onServer h now fault id changes expected)
  | getContext id => exact echoes_read h .foundContext (getContext_onServer h id)
  | due now limit => exact echoes_read h .contexts (due_onServer h now limit)
  | children parent => exact echoes_read h .contexts (children_onServer h parent)
  | ofContact contact includeCompleted =>
    exact echoes_read h .contexts (ofContact_onServer h contact includeCompleted)
  | nextWakeup => exact echoes_read h .time (nextWakeup_onServer h)
  | reset =>
    refine echoes_written h .done ?_
    obtain ⟨t, t', hx, hy, hp⟩ | ⟨f, hx, hy⟩ := (reset_onServer hplain).cases
    · rw [hx, hy]
      exact ⟨rfl, hp⟩
    · rw [hx, hy]
      rfl

/-- A command changes nothing outside of the namespace. -/
theorem perform_outside (hplain : Text.Glob.IsPlain k.ns) (q : Command) {key : String}
    (hk : ¬ InSpace k.ns key) :
    Table.find? key (k.perform q).2.server = Table.find? key k.server :=
  (perform_onServer hplain .refl q).servers.outside key hk

end Keys

/-! ## Stores that share a server -/

structure Tenant where
  url : String
  ns : String
  connected : Bool

def Tenant.on (t : Tenant) (s : Server) : Keys := ⟨t.url, t.ns, t.connected, s⟩

def Keys.tenant (k : Keys) : Tenant := ⟨k.url, k.ns, k.connected⟩

inductive Side where
  | first | second
  deriving DecidableEq

def Side.other : Side → Side
  | .first => .second
  | .second => .first

structure Shared where
  server : Server
  tenant : Side → Tenant

namespace Shared

def store (s : Shared) (side : Side) : Keys := (s.tenant side).on s.server

def perform (s : Shared) (side : Side) (q : Command) : Answer × Shared :=
  let (answer, k) := (s.store side).perform q
  (answer, ⟨k.server, fun x => if x = side then k.tenant else s.tenant x⟩)

def run (s : Shared) (requests : List (Side × Command)) : Shared :=
  requests.foldl (fun s (side, q) => (s.perform side q).2) s

def answers (s : Shared) (side : Side) : List (Side × Command) → List Answer
  | [] => []
  | (x, q) :: rest =>
    let (answer, t) := s.perform x q
    if x = side then answer :: t.answers side rest else t.answers side rest

def ChangedKey (s : Shared) (side : Side) (requests : List (Side × Command)) (key : String) : Prop :=
  ∃ before q after, requests = before ++ (side, q) :: after ∧
    Table.find? key ((s.run before).perform side q).2.server ≠ Table.find? key (s.run before).server

end Shared

def commandsOf (side : Side) (requests : List (Side × Command)) : List Command :=
  requests.filterMap fun (x, q) => if x = side then some q else none

/-- Neither of two namespaces is the other one, or the other one up to a colon within it. -/
def Apart (m n : String) : Prop :=
  m ≠ n ∧ ¬ (m ++ ":").toList <+: n.toList ∧ ¬ (n ++ ":").toList <+: m.toList

instance (m n : String) : Decidable (Apart m n) := inferInstanceAs (Decidable (_ ∧ _ ∧ _))

theorem Apart.symm {m n : String} (h : Apart m n) : Apart n m := ⟨h.1.symm, h.2.2, h.2.1⟩

/-- No key belongs to two namespaces that are apart. -/
theorem Apart.disjoint {m n key : String} (h : Apart m n) (hm : InSpace m key) :
    ¬ InSpace n key := by
  intro hn
  obtain ⟨x, hx⟩ := hm
  obtain ⟨y, hy⟩ := hn
  have hboth : m.toList ++ (':' :: x) = n.toList ++ (':' :: y) := by
    rw [← hy, String.toList_append, String.toList_append] at hx
    simpa using hx
  obtain ⟨z, hz, hrest⟩ | ⟨z, hz, hrest⟩ := List.append_eq_append_iff.mp hboth
  · cases z with
    | nil => exact h.1 (String.toList_inj.mp (by simpa using hz.symm))
    | cons c z =>
      obtain ⟨rfl, _⟩ := List.cons.inj hrest
      exact h.2.1 ⟨z, by rw [String.toList_append, hz]; simp⟩
  · cases z with
    | nil => exact h.1 (String.toList_inj.mp (by simpa using hz))
    | cons c z =>
      obtain ⟨rfl, _⟩ := List.cons.inj hrest
      exact h.2.2 ⟨z, by rw [String.toList_append, hz]; simp⟩

namespace Shared
variable {s : Shared} {side : Side}

structure Separate (s : Shared) : Prop where
  plain : ∀ side, Text.Glob.IsPlain (s.tenant side).ns
  apart : Apart (s.tenant .first).ns (s.tenant .second).ns

theorem Separate.disjoint (h : s.Separate) {x : Side} (hx : x ≠ side) {key : String}
    (hk : InSpace (s.tenant x).ns key) : ¬ InSpace (s.tenant side).ns key := by
  cases side with
  | first =>
    cases x with
    | first => exact absurd rfl hx
    | second => exact h.apart.symm.disjoint hk
  | second =>
    cases x with
    | first => exact h.apart.disjoint hk
    | second => exact absurd rfl hx

private theorem store_self (s : Shared) (x : Side) (q : Command) :
    (s.perform x q).2.store x = ((s.store x).perform q).2 := by
  simp only [store, perform, if_pos]
  rfl

private theorem store_other (s : Shared) {x side : Side} (hx : x ≠ side) (q : Command) :
    (s.perform x q).2.store side = (s.store side).onServer ((s.store x).perform q).2.server := by
  simp only [store, perform, if_neg (Ne.symm hx)]
  rfl

theorem perform_ns (h : s.Separate) (x : Side) (q : Command) (side : Side) :
    ((s.perform x q).2.tenant side).ns = (s.tenant side).ns := by
  change ((s.perform x q).2.store side).ns = (s.store side).ns
  by_cases hx : x = side
  · subst hx
    rw [store_self]
    exact (Keys.perform_onServer (h.plain x) (k := s.store x) .refl q).ns
  · rw [store_other s hx]
    rfl

theorem Separate.perform (h : s.Separate) (x : Side) (q : Command) :
    (s.perform x q).2.Separate := by
  constructor
  · intro side
    rw [perform_ns h]
    exact h.plain side
  · rw [perform_ns h, perform_ns h]
    exact h.apart

/-- A command of one side changes only keys of its namespace. -/
theorem perform_outside (h : s.Separate) (x : Side) (q : Command) {key : String}
    (hk : ¬ InSpace (s.tenant x).ns key) :
    Table.find? key (s.perform x q).2.server = Table.find? key s.server :=
  Keys.perform_outside (h.plain x) (k := s.store x) q hk

private theorem answers_onServer (h : s.Separate) {k : Keys} (hk : s.store side = k.onServer s.server)
    (halike : AlikeUnder k.ns k.server s.server) (requests : List (Side × Command)) :
    s.answers side requests = k.answers (commandsOf side requests) := by
  induction requests generalizing s k with
  | nil => rfl
  | cons r rest ih =>
    obtain ⟨x, q⟩ := r
    have hns : (s.tenant side).ns = k.ns := congrArg Keys.ns hk
    by_cases hx : x = side
    · subst hx
      have hecho := Keys.perform_onServer (hns ▸ h.plain x) halike q
      rw [← hk] at hecho
      have hstore : (s.perform x q).2.store x = (k.perform q).2.onServer (s.perform x q).2.server := by
        rw [store_self, hecho.store]
        rfl
      have hrest := ih (h.perform x q) hstore (hecho.ns ▸ hecho.servers.alike)
      have hcommands : commandsOf x ((x, q) :: rest) = q :: commandsOf x rest := by
        simp [commandsOf]
      rw [hcommands, Keys.answers, ← hrest, ← hecho.answer]
      simp only [answers, if_pos]
      rfl
    · have hstore : (s.perform x q).2.store side = k.onServer (s.perform x q).2.server := by
        rw [store_other s hx, hk]
        rfl
      have halike' : AlikeUnder k.ns k.server (s.perform x q).2.server := by
        intro key hin
        have hout : ¬ InSpace (s.tenant x).ns key :=
          fun hk' => h.disjoint hx hk' (hns.symm ▸ hin)
        rw [perform_outside h x q hout]
        exact halike key hin
      have hrest := ih (h.perform x q) hstore halike'
      have hcommands : commandsOf side ((x, q) :: rest) = commandsOf side rest := by
        simp [commandsOf, hx]
      rw [hcommands, ← hrest]
      simp only [answers, if_neg hx]

private theorem Separate.run (h : s.Separate) (requests : List (Side × Command)) :
    (s.run requests).Separate ∧ ∀ side, ((s.run requests).tenant side).ns = (s.tenant side).ns := by
  induction requests generalizing s with
  | nil => exact ⟨h, fun _ => rfl⟩
  | cons r rest ih =>
    obtain ⟨hrest, hns⟩ := ih (h.perform r.1 r.2)
    exact ⟨hrest, fun side => (hns side).trans (perform_ns h r.1 r.2 side)⟩

/-- Every key that a side has written belongs to its namespace. -/
theorem ChangedKey.inSpace (h : s.Separate) {requests : List (Side × Command)} {key : String}
    (hw : s.ChangedKey side requests key) : InSpace (s.tenant side).ns key := by
  obtain ⟨before, q, after, _, hchanged⟩ := hw
  obtain ⟨hbefore, hns⟩ := h.run before
  refine Classical.byContradiction fun hout => hchanged ?_
  exact perform_outside hbefore side q (by rwa [hns])

/-- Two stores on one server, with plain namespaces that are apart, and any commands of both in any
order: each side is given the answers that it would be given alone. A reset of one side takes away every
key that it has ever written, and leaves every key that the other side has written as it is. -/
theorem namespaces_isolate (h : s.Separate) (requests : List (Side × Command)) (side : Side) :
    s.answers side requests = (s.store side).answers (commandsOf side requests) ∧
      (((s.run requests).store side).connected = true →
        ∃ t, ((s.run requests).store side).reset = .ok t ∧
          (∀ key, s.ChangedKey side requests key → Table.find? key t.server = none) ∧
          ∀ key, s.ChangedKey side.other requests key →
            Table.find? key t.server = Table.find? key (s.run requests).server) := by
  refine ⟨answers_onServer h rfl .refl requests, fun hconnected => ?_⟩
  obtain ⟨hrun, hns⟩ := h.run requests
  have hplain : Text.Glob.IsPlain ((s.run requests).store side).ns := hrun.plain side
  have hspace : ((s.run requests).store side).ns = (s.tenant side).ns := hns side
  refine ⟨_, Keys.reset_of_connected hconnected, ?_, ?_⟩
  · intro key hw
    exact (Keys.find?_swept hplain _ key).1 (hspace ▸ hw.inSpace h)
  · intro key hw
    have hother : side.other ≠ side := by cases side <;> decide
    refine (Keys.find?_swept hplain _ key).2 ?_
    rw [hspace]
    exact h.disjoint hother (hw.inSpace h)

/-- One namespace begins like the other, and both stores save a flow of the same number. -/
theorem namespaces_isolate_tenth :
    let s : Shared := ⟨[], fun side => ⟨"", if side = .first then "org-1" else "org-10", true⟩⟩
    let d : Definition := ⟨some "u", some "c", some "", some "", .message, some "", none, []⟩
    let requests := [(Side.first, Command.saveFlow d), (.second, .saveFlow d), (.second, .close)]
    s.Separate ∧ ((s.run requests).store .first).connected = true ∧
      s.ChangedKey .first requests "org-1:flow:1" ∧ s.ChangedKey .second requests "org-10:flow:1" ∧
      s.answers .first requests = (s.store .first).answers [.saveFlow d] ∧
      ∃ t, ((s.run requests).store .first).reset = .ok t ∧
        Table.find? "org-1:flow:1" t.server = none ∧ t.server.holds "org-10:flow:1" = true := by
  intro s d requests
  have hs : s.Separate := by
    constructor
    · intro side
      cases side <;> decide
    · decide
  have hconnected : ((s.run requests).store .first).connected = true := by decide
  have hfirst : s.ChangedKey .first requests "org-1:flow:1" :=
    ⟨[], _, _, rfl, by decide⟩
  have hsecond : s.ChangedKey .second requests "org-10:flow:1" :=
    ⟨[(.first, .saveFlow d)], _, _, rfl, by decide⟩
  have hcommands : commandsOf .first requests = [.saveFlow d] := rfl
  obtain ⟨hanswers, hreset⟩ := namespaces_isolate hs requests .first
  rw [hcommands] at hanswers
  obtain ⟨t, ht, hgone, hkept⟩ := hreset hconnected
  refine ⟨hs, hconnected, hfirst, hsecond, hanswers, t, ht, hgone _ hfirst, ?_⟩
  rw [Server.holds, hkept _ hsecond]
  decide

/-- A namespace with a bracket in it is read as a pattern: the reset leaves the keys of its own store,
and takes away those of the store that the pattern happens to match. -/
theorem bracketed_namespace_resets_other :
    let s : Shared := ⟨[], fun side => ⟨"", if side = .first then "org[1]" else "org1", true⟩⟩
    let d : Definition := ⟨some "u", some "c", some "", some "", .message, some "", none, []⟩
    let requests := [(Side.first, Command.saveFlow d), (.second, .saveFlow d)]
    s.ChangedKey .first requests "org[1]:flow:1" ∧ s.ChangedKey .second requests "org1:flow:1" ∧
      ∃ t, ((s.run requests).store .first).reset = .ok t ∧
        t.server.holds "org[1]:flow:1" = true ∧ t.server.holds "org1:flow:1" = false := by
  intro s d requests
  have hfirst : s.ChangedKey .first requests "org[1]:flow:1" := ⟨[], _, _, rfl, by decide +kernel⟩
  have hsecond : s.ChangedKey .second requests "org1:flow:1" :=
    ⟨[(.first, .saveFlow d)], _, _, rfl, by decide +kernel⟩
  have hconnected : ((s.run requests).store .first).connected = true := by decide +kernel
  refine ⟨hfirst, hsecond, _, Keys.reset_of_connected hconnected, ?_, ?_⟩
  · decide +kernel
  · decide +kernel

end Shared

end DurableFlow.Store
