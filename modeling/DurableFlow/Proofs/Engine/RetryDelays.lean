import DurableFlow.Proofs.Engine.StoreWrites

/-! Delays between tries: what a policy gives, and how the time goes by while they are waited for. -/
namespace DurableFlow

/-! ## Policies -/

/-- Where a whole number lies. -/
theorem Amount.place?_of_whole {a : Amount} {n : Int} (h : a.whole? = some n) :
    a.place? = some (.exactly (n : Rat)) := by
  cases a with
  | flag b => cases b <;> cases h <;> rfl
  | int m =>
    cases h
    rfl
  | double d => cases h

namespace RetryPolicy
variable {p : RetryPolicy}

def Delays (p : RetryPolicy) (delays : List Int) : Prop :=
  ∀ k ms, delays[k]? = some ms → p.delayAfter (k + 1 : Nat) = .ok (some ms)

theorem Delays.append {delays : List Int} {ms : Int} (h : p.Delays delays)
    (hms : p.delayAfter (delays.length + 1 : Nat) = .ok (some ms)) : p.Delays (delays ++ [ms]) := by
  intro k x hx
  by_cases hk : k < delays.length
  · rw [List.getElem?_append_left hk] at hx
    exact h k x hx
  · rw [List.getElem?_append_right (by omega)] at hx
    obtain ⟨hk', rfl⟩ := List.getElem?_eq_some_iff.mp hx
    have hlength : k = delays.length := by
      simp at hk'
      omega
    subst hlength
    simpa using hms

/-- There is no delay after the last try. -/
theorem delayAfter_last {n : Nat} (h : p.maxAttempts.whole? = some (n : Int)) :
    p.delayAfter n = .ok none := by
  have hlast : (Amount.int n).atLeast p.maxAttempts = true := by
    simp [Amount.atLeast, Amount.place?_of_whole h, Amount.place?_of_whole (a := .int n) rfl,
      Binary64.Place.lt]
  unfold delayAfter
  rw [if_pos hlast]

theorem tries_of_whole {n : Nat} (h : p.maxAttempts.whole? = some (n : Int)) : p.tries? = some n := by
  simp only [tries?, Amount.place?_of_whole h, Rat.ceil_intCast, Int.toNat_natCast]

end RetryPolicy

/-! ## Waiting -/

namespace Engine
variable {e e' : Engine}

/-- A pause only moves the clock on and is noted, by as much in every engine. -/
theorem pause_elapses {ms : Int} (h : pause ms e = .ok () e') : ∃ micros noted, ∀ f : Engine,
    pause ms f = .ok () { f with clock := f.clock + micros, pauses := f.pauses ++ [noted] } := by
  by_cases hexact : isExactPause ms = true
  · exact ⟨ms * 1000, ms, fun f => by unfold pause; rw [if_pos hexact]; rfl⟩
  · have hslow (f : Engine) : pause ms f = (do
        let seconds := (← Action.ofExcept (Amount.doubleOf ms)).div 1000
        elapse seconds
        let noted ← Action.ofExcept (Amount.nearestInteger (seconds.mul (Binary64.ofRat 1000)))
        modify fun e => { e with pauses := e.pauses ++ [noted] } : Run Unit) f := by
      unfold pause
      rw [if_neg hexact]
    simp only [hslow, elapse, bind_assoc] at h ⊢
    obtain ⟨d, _, hd, h⟩ := Action.exists_of_bind h
    replace hd := Action.eq_ok_of_ofExcept hd
    obtain ⟨micros, _, hm, h⟩ := Action.exists_of_bind h
    replace hm := Action.eq_ok_of_ofExcept hm
    obtain ⟨_, _, -, h⟩ := Action.exists_of_bind h
    obtain ⟨noted, _, hn, -⟩ := Action.exists_of_bind h
    replace hn := Action.eq_ok_of_ofExcept hn
    refine ⟨micros, noted, fun f => ?_⟩
    rw [Action.bind_of_ok (Action.ofExcept_of_ok hd), Action.bind_of_ok (Action.ofExcept_of_ok hm)]
    exact Action.bind_of_ok (Action.ofExcept_of_ok hn)

def Waited (e : Engine) (delays : List Int) (f : Engine) : Prop :=
  ∃ e', delays.forM pause e = .ok ⟨⟩ e' ∧ f.clock = e'.clock ∧ f.pauses = e'.pauses

theorem Waited.pause {f : Engine} {delays : List Int} {ms : Int} (h : Waited e delays f)
    (hp : (delays ++ [ms]).forM pause e = .ok ⟨⟩ e') :
    Engine.pause ms f = .ok () { f with clock := e'.clock, pauses := e'.pauses } := by
  obtain ⟨e₁, h₁, hclock, hpauses⟩ := h
  have happend : (delays ++ [ms]).forM Engine.pause = (do
      delays.forM Engine.pause
      Engine.pause ms) := by simp
  rw [happend, Action.bind_of_ok h₁] at hp
  obtain ⟨micros, noted, hall⟩ := pause_elapses hp
  rw [hall e₁] at hp
  cases hp
  rw [hall f, hclock, hpauses]

/-- Whether a number of tries can be made: the policy gives the delays between them, and the clock shows
a date after every one of these. -/
structure Patient (e : Engine) (n : Nat) : Prop where
  delays : ∀ a, 1 ≤ a → a < n → ∃ ms, e.policy.delayAfter (a : Nat) = .ok (some ms)
  waits : ∀ delays, e.policy.Delays delays → delays.length < n →
    ∃ e', delays.forM pause e = .ok ⟨⟩ e' ∧ e'.IsDated

end Engine
end DurableFlow
