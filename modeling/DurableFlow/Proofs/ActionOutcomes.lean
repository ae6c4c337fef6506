import DurableFlow.Action

/-! What holds after a step, whether it succeeds or fails. One rule for each way of building steps;
no rule looks into a step that it is given. -/
namespace DurableFlow.Action
variable {σ τ κ α β : Type}

/-- After a step that succeeds the next one goes on from where it ended. -/
theorem bind_of_ok {act : Action σ α} {next : α → Action σ β} {s t : σ} {a : α}
    (h : act s = .ok a t) : (act >>= next) s = next a t := by
  change EStateM.bind act next s = next a t
  unfold EStateM.bind
  rw [h]

/-- After a step that fails no next one is taken. -/
theorem bind_of_error {act : Action σ α} {next : α → Action σ β} {s t : σ} {f : Failure}
    (h : act s = .error f t) : (act >>= next) s = .error f t := by
  change EStateM.bind act next s = .error f t
  unfold EStateM.bind
  rw [h]

/-- Steps that succeed one after the other succeed each. -/
theorem exists_of_bind {act : Action σ α} {next : α → Action σ β} {s u : σ} {b : β}
    (h : (act >>= next) s = .ok b u) : ∃ a t, act s = .ok a t ∧ next a t = .ok b u := by
  change EStateM.bind act next s = .ok b u at h
  unfold EStateM.bind at h
  cases ha : act s with
  | ok a t =>
    rw [ha] at h
    exact ⟨a, t, rfl, h⟩
  | error f t =>
    rw [ha] at h
    cases h

theorem eq_ok_of_ofExcept {r : Except Failure α} {s t : σ} {a : α} (h : ofExcept r s = .ok a t) :
    r = .ok a := by
  cases r with
  | ok b =>
    cases h
    rfl
  | error f => cases h

theorem ofExcept_of_ok {r : Except Failure α} {s : σ} {a : α} (h : r = .ok a) :
    ofExcept r s = .ok a s := by
  rw [h]
  rfl

theorem attempt_of_ok {act : Action σ α} {s t : σ} {a : α} (h : act s = .ok a t) :
    attempt act s = .ok (.ok a) t := by
  rw [attempt, h]

theorem attempt_of_error {act : Action σ α} {s t : σ} {f : Failure} (h : act s = .error f t) :
    attempt act s = .ok (.error f) t := by
  rw [attempt, h]

theorem attempt_returns (act : Action σ α) (s : σ) : ∃ r t, attempt act s = .ok r t := by
  unfold attempt
  split
  · exact ⟨_, _, rfl⟩
  · exact ⟨_, _, rfl⟩

theorem ok_of_attempt {act : Action σ α} {s t : σ} {a : α} (h : attempt act s = .ok (.ok a) t) :
    act s = .ok a t := by
  unfold attempt at h
  split at h
  · rename_i hact
    cases h
    exact hact
  · cases h

theorem error_of_attempt {act : Action σ α} {s t : σ} {f : Failure}
    (h : attempt act s = .ok (.error f) t) : act s = .error f t := by
  unfold attempt at h
  split at h
  · cases h
  · rename_i hact
    cases h
    exact hact

theorem attempt_ofExcept (r : Except Failure α) (s : σ) : attempt (ofExcept r) s = .ok r s := by
  cases r <;> rfl

def Ensures (act : Action σ α) (s : σ) (post : α → σ → Prop) (fails : Failure → σ → Prop) : Prop :=
  match act s with
  | .ok a t => post a t
  | .error f t => fails f t

namespace Ensures
variable {act : Action σ α} {s : σ} {post : α → σ → Prop} {fails : Failure → σ → Prop}

theorem of_eq_ok {a : α} {t : σ} (h : Ensures act s post fails) (he : act s = .ok a t) :
    post a t := by
  simpa only [Ensures, he] using h

theorem of_eq_error {f : Failure} {t : σ} (h : Ensures act s post fails)
    (he : act s = .error f t) : fails f t := by
  simpa only [Ensures, he] using h

theorem of_run {a : α} {t : σ} (he : act s = .ok a t) (h : post a t) : Ensures act s post fails := by
  unfold Ensures
  rw [he]
  exact h

theorem mono {post' : α → σ → Prop} {fails' : Failure → σ → Prop} (h : Ensures act s post fails)
    (hp : ∀ a t, post a t → post' a t) (hf : ∀ f t, fails f t → fails' f t) :
    Ensures act s post' fails' := by
  unfold Ensures at h ⊢
  split
  · rename_i a t he
    rw [he] at h
    exact hp a t h
  · rename_i f t he
    rw [he] at h
    exact hf f t h

/-- Two accounts of one step hold together. -/
protected theorem and {post' : α → σ → Prop} {fails' : Failure → σ → Prop}
    (h : Ensures act s post fails) (h' : Ensures act s post' fails') :
    Ensures act s (fun a t => post a t ∧ post' a t) (fun f t => fails f t ∧ fails' f t) := by
  unfold Ensures at *
  split
  · rename_i a t he
    rw [he] at h h'
    exact ⟨h, h'⟩
  · rename_i f t he
    rw [he] at h h'
    exact ⟨h, h'⟩

/-- A step ends as it does. -/
theorem itself : Ensures act s (fun a t => act s = .ok a t) (fun f t => act s = .error f t) := by
  unfold Ensures
  split
  · assumption
  · assumption

theorem always (hp : ∀ a t, post a t) (hf : ∀ f t, fails f t) : Ensures act s post fails := by
  unfold Ensures
  split
  · exact hp _ _
  · exact hf _ _

protected theorem bind {next : α → Action σ β} {post' : β → σ → Prop}
    (h : Ensures act s (fun a t => Ensures (next a) t post' fails) fails) :
    Ensures (act >>= next) s post' fails := by
  unfold Ensures at h ⊢
  change match EStateM.bind act next s with | .ok a t => post' a t | .error f t => fails f t
  unfold EStateM.bind
  cases he : act s with
  | ok a t =>
    rw [he] at h
    exact h
  | error f t =>
    rw [he] at h
    exact h

protected theorem pure {a : α} (h : post a s) : Ensures (pure a) s post fails := h

protected theorem throw {f : Failure} (h : fails f s) :
    Ensures (throw f : Action σ α) s post fails := h

protected theorem get {post : σ → σ → Prop} (h : post s s) :
    Ensures (get : Action σ σ) s post fails := h

protected theorem set {t : σ} {post : PUnit → σ → Prop} (h : post ⟨⟩ t) :
    Ensures (set t : Action σ PUnit) s post fails := h

protected theorem modify {f : σ → σ} {post : PUnit → σ → Prop} (h : post ⟨⟩ (f s)) :
    Ensures (modify f : Action σ PUnit) s post fails := h

protected theorem ofExcept {r : Except Failure α} (hp : ∀ a, r = .ok a → post a s)
    (hf : ∀ f, r = .error f → fails f s) : Ensures (ofExcept r) s post fails := by
  cases r with
  | ok a => exact hp a rfl
  | error f => exact hf f rfl

protected theorem attempt {post : Except Failure α → σ → Prop}
    (h : Ensures act s (fun a t => post (.ok a) t) (fun f t => post (.error f) t)) :
    Ensures (attempt act) s post fails := by
  unfold Ensures attempt at *
  cases he : act s with
  | ok a t =>
    rw [he] at h
    exact h
  | error f t =>
    rw [he] at h
    exact h

protected theorem discard {post : PUnit → σ → Prop}
    (h : Ensures act s (fun _ t => post ⟨⟩ t) fails) : Ensures (discard act) s post fails := by
  have hd : discard act s = EStateM.map (fun _ => PUnit.unit) act s := rfl
  unfold Ensures at h ⊢
  rw [hd]
  unfold EStateM.map
  cases he : act s with
  | ok a t =>
    rw [he] at h
    exact h
  | error f t =>
    rw [he] at h
    exact h

end Ensures

section Held
variable {s : σ} {c : κ} {act : Action σ α} {post : α → Holding σ κ → Prop}
  {fails : Failure → Holding σ κ → Prop}

theorem Ensures.held {post : κ → Holding σ κ → Prop} (h : post c ⟨s, c⟩) :
    Ensures held ⟨s, c⟩ post fails := h

theorem Ensures.alter {f : κ → κ} {post : Unit → Holding σ κ → Prop} (h : post () ⟨s, f c⟩) :
    Ensures (alter f) ⟨s, c⟩ post fails := h

/-- A step beside a held record leaves the record alone. -/
theorem Ensures.beside
    (h : Ensures act s (fun a t => post a ⟨t, c⟩) (fun f t => fails f ⟨t, c⟩)) :
    Ensures (beside act) ⟨s, c⟩ post fails := by
  unfold Ensures Action.beside onPart at *
  cases he : act s with
  | ok a t =>
    rw [he] at h
    exact h
  | error f t =>
    rw [he] at h
    exact h

/-- A step on a record of its own hands the record back when it succeeds. -/
theorem Ensures.holding {act : Action (Holding σ κ) α} {post : α × κ → σ → Prop}
    {fails : Failure → σ → Prop}
    (h : Ensures act ⟨s, c⟩ (fun a g => post (a, g.held) g.state) (fun f g => fails f g.state)) :
    Ensures (holding c act) s post fails := by
  unfold Ensures Action.holding at *
  cases he : act ⟨s, c⟩ with
  | ok a g =>
    rw [he] at h
    exact h
  | error f g =>
    rw [he] at h
    exact h

end Held

end DurableFlow.Action
