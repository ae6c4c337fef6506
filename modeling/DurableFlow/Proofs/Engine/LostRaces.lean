import DurableFlow.Proofs.Engine.HeldTransitions
import DurableFlow.Proofs.Engine.SparingSteps
import DurableFlow.Proofs.Store.OptimisticUpdates

/-! Races that are going to be lost. A load does not see them; a guarded write takes the next of them
and fails if it is lost, with nothing written. All other writes fail only for what they write. -/
namespace DurableFlow

namespace Action
variable {σ κ α β : Type} {φ : σ → σ}

def moved (φ : σ → σ) : EStateM.Result Failure σ α → EStateM.Result Failure σ α
  | .ok a s => .ok a (φ s)
  | .error f s => .error f (φ s)

def Overlooks (φ : σ → σ) (act : Action σ α) : Prop := ∀ s, act (φ s) = moved φ (act s)

namespace Overlooks
variable {act : Action σ α}

protected theorem pure (a : α) : Overlooks φ (pure a : Action σ α) := fun _ => rfl

protected theorem throw (f : Failure) : Overlooks φ (throw f : Action σ α) := fun _ => rfl

protected theorem ofExcept (r : Except Failure α) : Overlooks φ (ofExcept r) := by
  intro s
  cases r <;> rfl

protected theorem modify {f : σ → σ} (h : ∀ s, f (φ s) = φ (f s)) :
    Overlooks φ (modify f : Action σ PUnit) := fun s => congrArg (EStateM.Result.ok _) (h s)

protected theorem bind {next : α → Action σ β} (h : Overlooks φ act)
    (hn : ∀ a, Overlooks φ (next a)) : Overlooks φ (act >>= next) := by
  intro s
  change EStateM.bind act next (φ s) = moved φ (EStateM.bind act next s)
  unfold EStateM.bind
  rw [h s]
  cases act s with
  | ok a t => exact hn a t
  | error f t => rfl

theorem get_bind {next : σ → Action σ α} (h : ∀ s, next (φ s) (φ s) = moved φ (next s s)) :
    Overlooks φ (get >>= next) := h

/-- A step on a record of its own overlooks what it overlooks for any record. -/
theorem holding {act : Action (Holding σ κ) α} {record : κ}
    (h : Overlooks (fun g => ⟨φ g.state, g.held⟩) act) : Overlooks φ (holding record act) := by
  intro s
  have hs := h ⟨s, record⟩
  unfold Action.holding
  dsimp only at hs
  rw [hs]
  cases act ⟨s, record⟩ <;> rfl

theorem beside (h : Overlooks φ act) :
    Overlooks (fun g => ⟨φ g.state, g.held⟩ : Holding σ κ → Holding σ κ) (beside act) := by
  intro g
  unfold Action.beside onPart
  dsimp only
  rw [h g.state]
  cases act g.state <;> rfl

/-- What is known of the step in one state is known of it in the other. -/
theorem ensures {act : Action σ α} {s : σ} {post : α → σ → Prop} {fails : Failure → σ → Prop}
    (h : Overlooks φ act) (he : Ensures act s (fun a t => post a (φ t)) (fun f t => fails f (φ t))) :
    Ensures act (φ s) post fails := by
  unfold Ensures at he ⊢
  rw [h s]
  cases ho : act s with
  | ok a t =>
    rw [ho] at he
    exact he
  | error f t =>
    rw [ho] at he
    exact he

end Overlooks
end Action

def Failure.isStale : Failure → Bool
  | .stale .. => true
  | _ => false

namespace Engine
open DurableFlow.Action (Ensures Overlooks)
open Store (Changed)
variable {e e' : Engine} {c r : Context} {i : String} {lost rest rest' : List Bool} {m n : Nat}
  {changes : List Context.Change} {guarded : Bool}

def losing (lost : List Bool) (e : Engine) : Engine :=
  { e with faults := { e.faults with lost } }

/-! ## Loading -/

private theorem note_overlooks (level : Level) (text : String) :
    Overlooks (losing lost) (note level text) := .modify fun _ => rfl

private theorem file_overlooks (f : Registry → Registry) : Overlooks (losing lost) (file f) :=
  .modify fun _ => rfl

private theorem begin_overlooks (op : Operation) : Overlooks (losing lost) (begin op) := by
  apply Overlooks.get_bind
  rintro ⟨store, replaced, registry, policy, batchSize, clock, drawn, compiled, filed,
    ⟨failing, lost', broken, racing, trigger, script⟩, others, journal, pauses⟩
  cases others <;> cases hf : failing op with
  | nil => simp only [losing, hf]; rfl
  | cons fails rest => cases fails <;> simp only [losing, hf] <;> rfl

private theorem ask_overlooks {α : Type} (op : Operation) (f : Store → Except Failure α) :
    Overlooks (losing lost) (ask op f) := by
  refine (begin_overlooks op).bind fun _ => ?_
  apply Overlooks.get_bind
  exact fun e => Overlooks.ofExcept (f e.store) e

private theorem compile_overlooks (d : Flow.Definition) (document : List (String × Json)) :
    Overlooks (losing lost) (compile d document) := by
  refine (Overlooks.ofExcept _).bind fun graph => ?_
  apply Overlooks.get_bind
  exact fun _ => rfl

private theorem loadDefinition_overlooks (flow : Int) :
    Overlooks (losing lost) (loadDefinition flow) := by
  refine (ask_overlooks _ _).bind fun r => ?_
  split
  · exact .throw _
  · exact (note_overlooks _ _).bind fun _ => .ofExcept _

private theorem loadOne_overlooks (identifier : Identifier) :
    Overlooks (losing lost) (loadOne identifier) := by
  refine (ask_overlooks _ _).bind fun d => ?_
  split
  · exact .throw _
  · exact (loadDefinition_overlooks _).bind fun _ => compile_overlooks _ _

private theorem fetch_overlooks (identifier : Identifier) :
    Overlooks (losing lost) (fetch identifier) := by
  apply Overlooks.get_bind
  intro e
  have hregistry : (losing lost e).registry = e.registry := rfl
  rw [hregistry]
  cases e.registry.get? identifier with
  | some c => rfl
  | none =>
    have hload : Overlooks (losing lost) (do
        let c ← loadOne identifier
        file fun r => r.insert c
        return c) :=
      (loadOne_overlooks identifier).bind fun _ => (file_overlooks _).bind fun _ => .pure _
    exact hload e

/-- A load does not see the races to come. -/
theorem load_overlooks (lost : List Bool) (id : Option String) :
    Overlooks (losing lost) (load id) := by
  have hstored : Overlooks (losing lost) (stored id) := by
    refine (ask_overlooks _ _).bind fun found => ?_
    split
    · exact .throw _
    · exact .pure _
  have hbind : Overlooks (fun g => ⟨losing lost g.state, g.held⟩) bind := by
    refine Overlooks.bind (fun _ => rfl) fun c => ?_
    split
    · exact .pure _
    · refine (fetch_overlooks _).beside.bind fun found => ?_
      exact Overlooks.bind (fun _ => rfl) fun _ => .pure _
  unfold load
  exact hstored.bind fun c => (Overlooks.holding hbind).bind fun _ => .pure _

/-! ## Writes -/

def Spent (m : Nat) (lost rest : List Bool) : Prop :=
  ∃ past, lost = past ++ rest ∧ past.count true = m

namespace Spent

theorem refl : Spent 0 lost lost := ⟨[], rfl, rfl⟩

theorem trans (h : Spent m lost rest) (h' : Spent n rest rest') : Spent (m + n) lost rest' := by
  obtain ⟨past, rfl, rfl⟩ := h
  obtain ⟨past', rfl, rfl⟩ := h'
  exact ⟨past ++ past', (List.append_assoc ..).symm, List.count_append⟩

/-- Where no race is to come none is lost. -/
theorem eq_zero (h : Spent m [] rest) : m = 0 ∧ rest = [] := by
  obtain ⟨past, hlost, rfl⟩ := h
  obtain ⟨rfl, rfl⟩ := List.append_eq_nil_iff.mp hlost.symm
  exact ⟨rfl, rfl⟩

end Spent

/-- Nothing keeps an engine from writing but the races that it is going to lose. -/
structure Contested (lost : List Bool) (e : Engine) : Prop where
  faults : e.faults = { Faults.none with lost }
  connected : e.store.isConnected = true
  dated : e.IsDated

/-- The races to come are those that are told. -/
theorem Contested.losing_self (h : Contested lost e) : losing lost e = e := by
  cases e
  cases h.faults
  rfl

/-- Whether a store can be told to expect the version of a row. A column has 64 bits. -/
def Expectable (s : Store) (r : Context) : Prop :=
  s.kind = .rows → Store.Rows.checkExpected (some r.version) = .ok ()

private theorem write_contested (hu : Contested lost e) (hs : e.store.Sound)
    (hr : e.store.row? i = some r) (hf : Context.unknownFields changes = []) {expected : Option Int}
    (hv : ∀ n, expected = some n → n = r.version)
    (hb : e.store.kind = .rows → Store.Rows.checkExpected expected = .ok ()) :
    Ensures (write (some i) changes expected) e
      (fun _ e' => e.store.kind.accept changes = .ok () ∧ e' = { e with store := e'.store })
      (fun f e' => e' = e ∧ e.store.kind.accept changes = .error f) := by
  obtain ⟨t, ht⟩ := hu.dated
  have hscript : e.faults.script = none := by rw [hu.faults]; rfl
  apply Ensures.bind
  apply Ensures.bind
  apply Ensures.get
  rw [ht]
  apply Ensures.pure
  apply Ensures.bind
  apply Ensures.get
  apply Ensures.bind
  rw [hscript]
  cases haccept : e.store.kind.accept changes with
  | ok _ =>
    obtain ⟨v, s, hupdated⟩ := hs.update_accepted hu.connected hr haccept hf hv hb t
    rw [hupdated]
    apply Ensures.pure
    apply Ensures.bind
    exact Ensures.set ⟨rfl, rfl⟩
  | error f =>
    rw [Store.update_refused hu.connected hr haccept hf hv hb t]
    exact Ensures.throw ⟨rfl, rfl⟩

/-- A guarded write takes the next race, if one is to come; others take none. -/
theorem update_contested (hu : Contested lost e) (ho : e.others = []) (id : Option String)
    (changes : List Context.Change) (expected : Option Int) : update id changes expected e =
      match expected, lost with
      | some version, true :: rest => .error (.stale id expected (version + 1)) (losing rest e)
      | some _, false :: rest => write id changes expected (losing rest e)
      | _, _ => write id changes expected e := by
  obtain ⟨hf, -, -⟩ := hu
  cases e
  cases ho
  cases hf
  cases id <;> cases expected <;> rcases lost with _ | ⟨⟨⟩, rest⟩ <;> rfl

/-- What an update leaves of a contested engine: the store and the races to come are all that may have
changed. -/
theorem update_contests (hu : Contested lost e) (ho : e.others = []) (hs : e.store.Sound)
    (hr : e.store.row? i = some r) (hf : Context.unknownFields changes = []) {expected : Option Int}
    (hv : ∀ n, expected = some n → n = r.version)
    (hb : e.store.kind = .rows → Store.Rows.checkExpected expected = .ok ()) :
    Ensures (update (some i) changes expected) e
      (fun _ e' => e.store.kind.accept changes = .ok () ∧
        ∃ rest, Spent 0 lost rest ∧ e' = { losing rest e with store := e'.store })
      (fun f e' => ∃ rest, e' = losing rest e ∧
        (expected ≠ none ∧ f.isStale = true ∧ Spent 1 lost rest ∨
          e.store.kind.accept changes = .error f ∧ Spent 0 lost rest)) := by
  have hwrite {rest : List Bool} (hspent : Spent 0 lost rest) :
      Ensures (write (some i) changes expected) (losing rest e)
        (fun _ e' => e.store.kind.accept changes = .ok () ∧
          ∃ rest, Spent 0 lost rest ∧ e' = { losing rest e with store := e'.store })
        (fun f e' => ∃ rest, e' = losing rest e ∧
          (expected ≠ none ∧ f.isStale = true ∧ Spent 1 lost rest ∨
            e.store.kind.accept changes = .error f ∧ Spent 0 lost rest)) := by
    have hrest : Contested rest (losing rest e) := by
      refine ⟨?_, hu.connected, hu.dated⟩
      simp only [losing, hu.faults]
    have hsound : (losing rest e).store.Sound := hs
    refine (write_contested hrest hsound hr hf hv hb).mono ?_ ?_
    · rintro _ e' ⟨haccept, he'⟩
      exact ⟨haccept, rest, hspent, he'⟩
    · rintro f e' ⟨rfl, haccept⟩
      exact ⟨rest, rfl, .inr ⟨haccept, hspent⟩⟩
  have hcalm := hwrite .refl
  rw [hu.losing_self] at hcalm
  unfold Ensures
  rw [update_contested hu ho]
  rcases expected with _ | version
  · exact hcalm
  · rcases lost with _ | ⟨_ | _, rest⟩
    · exact hcalm
    · exact hwrite ⟨[false], rfl, rfl⟩
    · exact ⟨rest, rfl, .inl ⟨Option.some_ne_none _, rfl, [true], rfl, rfl⟩⟩

/-- A write through a copy at the version of its row, or through any copy of it for a write that is not
guarded, loses the next race or writes what the store accepts. -/
theorem writeHeld_spends (hu : Contested lost e) (ho : e.others = []) (hs : e.store.Sound)
    (hid : c.id = some i) (hr : e.store.row? i = some r) (hf : Context.unknownFields changes = [])
    (hv : guarded = true → c.version = r.version ∧ Expectable e.store r) :
    Ensures (writeHeld changes guarded) ⟨e, c⟩
      (fun _ g => e.store.kind.accept changes = .ok () ∧ ∃ rest, Spent 0 lost rest ∧
        g.state = { losing rest e with store := g.state.store })
      (fun f g => ∃ rest, g = ⟨losing rest e, c⟩ ∧
        (guarded = true ∧ f.isStale = true ∧ Spent 1 lost rest ∨
          e.store.kind.accept changes = .error f ∧ Spent 0 lost rest)) := by
  have hexpected : (if guarded then some c.version else none) =
      if guarded then some r.version else none := by
    cases guarded with
    | true => rw [(hv rfl).1]
    | false => rfl
  unfold writeHeld
  apply Ensures.bind
  apply Ensures.held
  apply Ensures.bind
  apply Ensures.beside
  rw [hid, hexpected]
  refine (update_contests hu ho hs hr hf ?_ ?_).mono ?_ ?_
  · intro n hn
    cases guarded with
    | true => exact (Option.some.inj hn).symm
    | false => cases hn
  · intro hk
    cases guarded with
    | true => exact (hv rfl).2 hk
    | false => rfl
  · rintro v e₁ ⟨haccept, rest, hspent, he₁⟩
    have hdated : e₁.IsDated := by
      obtain ⟨t, ht⟩ := hu.dated
      rw [he₁]
      exact ⟨t, ht⟩
    apply Ensures.bind
    apply Ensures.beside
    refine (now_ensures hdated).mono ?_ fun _ _ h => h.elim
    rintro _ _ rfl
    exact Ensures.alter ⟨haccept, rest, hspent, he₁⟩
  · rintro f e₁ ⟨rest, rfl, hlost | hrefused⟩
    · refine ⟨rest, rfl, .inl ⟨?_, hlost.2⟩⟩
      cases guarded with
      | true => rfl
      | false => exact absurd rfl hlost.1
    · exact ⟨rest, rfl, .inr hrefused⟩

/-- The same of an engine that is ready, with what the write has changed. -/
theorem writeHeld_contests (hu : Contested lost e) (he : e.Ready) (hid : c.id = some i)
    (hr : e.store.row? i = some r) (hf : Context.unknownFields changes = [])
    (hv : guarded = true → c.version = r.version ∧ Expectable e.store r) :
    Ensures (writeHeld changes guarded) ⟨e, c⟩
      (fun _ g => e.store.kind.accept changes = .ok () ∧ ∃ rest time updated, Spent 0 lost rest ∧
        g.state.Ready ∧ g.state = { losing rest e with store := g.state.store } ∧
        Store.SameFlows e.store g.state.store ∧ Changed e.store i changes time r g.state.store ∧
        g.held = { c.applyAll changes with version := r.version + 1, updated })
      (fun f g => ∃ rest, g = ⟨losing rest e, c⟩ ∧
        (guarded = true ∧ f.isStale = true ∧ Spent 1 lost rest ∨
          e.store.kind.accept changes = .error f ∧ Spent 0 lost rest)) := by
  have hspends := writeHeld_spends hu he.alone he.sound hid hr hf hv
  have hwrites := writeHeld_ensures (c := c) he changes guarded
  have hspares := writeHeld_heldSpares changes guarded e c
  refine ((hspends.and hwrites).and hspares).mono ?_ fun _ _ h => h.1.1
  rintro _ g ⟨⟨⟨haccept, rest, hs, hstate⟩, hready, j, r', time, updated, hj, hch, -, hheld⟩, hspared⟩
  rw [hid] at hj
  cases hj
  cases hr.symm.trans hch.found
  exact ⟨haccept, rest, time, updated, hs, hready, hstate, hspared.flows he.alone, hch, hheld⟩

end Engine
end DurableFlow
