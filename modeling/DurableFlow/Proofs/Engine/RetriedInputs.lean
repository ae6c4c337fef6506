import DurableFlow.Proofs.Engine.LosingTries
import DurableFlow.Proofs.Engine.RetryDelays

/-! Inputs that are tried again. Whichever races are lost, an input ends as it would have without them,
if only the policy gives enough tries; all that a lost race costs is a try and a wait. -/
namespace DurableFlow.Engine
open DurableFlow.Action (Ensures)
open DurableFlow.Flow (NodeIndex)
open Store (Kind Roomy)
variable {e e' e₀ : Engine} {i : String} {index : NodeIndex} {lost rest : List Bool} {m n waits : Nat}
  {r r' : Context} {choice given : Json}

/-- An engine after some lost races and the first waits, racing for what has become of the row. -/
def Delivered (e₀ : Engine) (i : String) (index : NodeIndex) (lost : List Bool) (m waits : Nat)
    (r' : Context) (e' : Engine) : Prop :=
  ∃ rest delays, Spent m lost rest ∧ Racing i index rest r' e' ∧ e₀.policy.Delays delays ∧
    delays.length = waits ∧ Waited e₀ delays e'

theorem Delivered.after (hs : Spent 1 lost rest) (h : Delivered e₀ i index rest m waits r' e') :
    Delivered e₀ i index lost (m + 1) waits r' e' := by
  obtain ⟨rest', delays, hs', hr, hd, hw, hwaited⟩ := h
  exact ⟨rest', delays, Nat.add_comm 1 m ▸ hs.trans hs', hr, hd, hw, hwaited⟩

theorem Waited.steady {delays : List Int} (h : Waited e₀ delays e) (hs : Steady e e') :
    Waited e₀ delays e' := by
  obtain ⟨e₁, h₁, hclock, hpauses⟩ := h
  exact ⟨e₁, h₁, hs.clock.trans hclock, hs.pauses.trans hpauses⟩

theorem Racing.pause (h : Racing i index lost r e) (hd : e'.IsDated) :
    Racing i index lost r { e with clock := e'.clock, pauses := e'.pauses } := by
  obtain ⟨hready, hcontested, hrow, hreads, hprovides⟩ := h
  exact ⟨⟨hready.alone, hready.unraced, hready.sound, hready.drawn⟩,
    ⟨hcontested.faults, hcontested.connected, hd⟩, hrow, hreads, hprovides⟩

/-- What an input fails with whose last try has lost its race: with that loss if the policy allows no other
try, else as the policy fails to give a delay. -/
def Quits (p : RetryPolicy) (n : Nat) (f : Failure) : Prop :=
  p.delayAfter n = .ok none ∧ f.isStale = true ∨ p.delayAfter n = .error f

private def Settles (e₀ : Engine) (i : String) (index : NodeIndex) (n : Nat) (lost : List Bool)
    (waits : Nat) (course : Course) (answer : Except Failure Context) (e' : Engine) : Prop :=
  ∃ m r', waits + m < n ∧ Delivered e₀ i index lost m (waits + m) r' e' ∧
    course = ⟨answer, r'.timeless⟩

private def Exhausts (e₀ : Engine) (i : String) (index : NodeIndex) (n : Nat) (lost : List Bool)
    (waits : Nat) (f : Failure) (e' : Engine) : Prop :=
  ∃ m r', waits + m = n ∧ Delivered e₀ i index lost m (n - 1) r' e' ∧ Quits e₀.policy n f

private theorem Settles.after {course : Course} {answer : Except Failure Context} {waits' : Nat}
    (h : Settles e₀ i index n rest waits' course answer e') (hs : Spent 1 lost rest)
    (hw : waits' = waits + 1) : Settles e₀ i index n lost waits course answer e' := by
  subst hw
  obtain ⟨m, r', hm, hdelivered, hcourse⟩ := h
  rw [Nat.add_assoc, Nat.add_comm 1 m] at hm hdelivered
  exact ⟨m + 1, r', hm, hdelivered.after hs, hcourse⟩

private theorem Exhausts.after {f : Failure} {waits' : Nat}
    (h : Exhausts e₀ i index n rest waits' f e') (hs : Spent 1 lost rest) (hw : waits' = waits + 1) :
    Exhausts e₀ i index n lost waits f e' := by
  subst hw
  obtain ⟨m, r', hm, hdelivered, hquits⟩ := h
  exact ⟨m + 1, r', by omega, hdelivered.after hs, hquits⟩

private theorem Concludes.settles {delays : List Int} {course : Course}
    {answer : Except Failure Context} (h : Concludes i index lost e course answer e')
    (hd : e₀.policy.Delays delays) (hw : Waited e₀ delays e) (hlt : delays.length < n) :
    Settles e₀ i index n lost delays.length course answer e' := by
  obtain ⟨r', ⟨rest, hs, hr, hst⟩, hcourse⟩ := h
  exact ⟨0, r', hlt, ⟨rest, delays, hs, hr, hd, rfl, hw.steady hst⟩, hcourse⟩

def Escapes (lost : List Bool) (e' : Engine) : Prop := (∀ b ∈ lost, b = true) → e'.faults.lost = []

private theorem Concludes.escapes {course : Course} {answer : Except Failure Context}
    (h : Concludes i index lost e course answer e') (hwins : lost.head? ≠ some true) : Escapes lost e' := by
  intro hall
  obtain ⟨r', ⟨rest, hs, hr, -⟩, -⟩ := h
  cases lost with
  | nil => exact (congrArg Faults.lost hr.contested.faults).trans hs.eq_zero.2
  | cons b _ => exact absurd (congrArg some (hall b (List.mem_cons_self ..))) hwins

private theorem Escapes.after (h : Escapes rest e') (hs : Spent m lost rest) : Escapes lost e' := by
  obtain ⟨past, rfl, -⟩ := hs
  exact fun hall => h fun b hb => hall b (List.mem_append_right past hb)

private theorem deliverFrom_delivers (hpat : Patient e₀ n)
    (hend : ∀ ms, e₀.policy.delayAfter n ≠ .ok (some ms)) (choice given : Json) (more : Nat)
    {delays : List Int} (h : Racing i index lost r e) (ho : r.completed = none) (hp : e.policy = e₀.policy)
    (hk : e.store.kind = e₀.store.kind) (hb : Roomy e₀.store.kind r (2 * (n - delays.length)))
    (hd : e₀.policy.Delays delays) (hw : Waited e₀ delays e) (hlt : delays.length < n)
    (hmore : n ≤ delays.length + more) :
    Ensures (deliverFrom (some i) choice given (delays.length + 1 : Nat) more) e
      (fun c e' => Settles e₀ i index n lost delays.length
        (course e₀.store.kind index choice given r.timeless) (.ok c.timeless) e' ∧ Escapes lost e')
      (fun f e' => Settles e₀ i index n lost delays.length
          (course e₀.store.kind index choice given r.timeless) (.error f) e' ∨
        Exhausts e₀ i index n lost delays.length f e') := by
  induction more generalizing e lost r delays with
  | zero => omega
  | succ more ih =>
    have htry := tryInput_reaches choice given h ho (hk ▸ hb.mono (Int.le_refl _) (by omega))
    rw [hk] at htry
    unfold deliverFrom
    apply Ensures.bind
    refine (htry.and (tryInput_wins choice given h)).mono ?_ fun f e₁ hends => .inl (hends.1.settles hd hw hlt)
    rintro result e₁ ⟨hresult, hwins⟩
    cases result with
    | ok c => exact Ensures.pure ⟨Concludes.settles hresult hd hw hlt, Concludes.escapes hresult (hwins c rfl)⟩
    | error f =>
      obtain ⟨hstale, r', ⟨rest, hs, hr, hst⟩, hresumes⟩ := hresult
      have hp₁ : e₁.policy = e₀.policy := hst.policy.trans hp
      have hw₁ : Waited e₀ delays e₁ := hw.steady hst
      apply Ensures.bind
      apply Ensures.get
      apply Ensures.bind
      rw [hp₁]
      by_cases hlast : delays.length + 1 = n
      · have hwaits : delays.length = n - 1 := by omega
        rw [hlast]
        refine Ensures.ofExcept (fun delay hdelay => ?_) fun x hx => .inr ?_
        · cases delay with
          | none =>
            apply Ensures.bind
            apply Ensures.modify
            refine Ensures.throw (.inr ⟨1, r', hlast, ?_, .inl ⟨hdelay, hstale⟩⟩)
            exact ⟨rest, delays, hs, hr.noted _, hd, hwaits, hw₁⟩
          | some ms => exact absurd hdelay (hend ms)
        · exact ⟨1, r', hlast, ⟨rest, delays, hs, hr, hd, hwaits, hw₁⟩, .inr hx⟩
      · obtain ⟨ms, hms⟩ := hpat.delays (delays.length + 1) (by omega) (by omega)
        have hd' : e₀.policy.Delays (delays ++ [ms]) := hd.append hms
        have hlength : (delays ++ [ms]).length = delays.length + 1 := by simp
        obtain ⟨e₂, he₂, hdated⟩ := hpat.waits (delays ++ [ms]) hd' (by omega)
        rw [hms]
        apply Ensures.pure
        apply Ensures.bind
        apply Ensures.modify
        apply Ensures.bind
        refine Ensures.of_run (Waited.pause hw₁ he₂) ?_
        have hattempt : ((delays.length + 1 : Nat) : Int) + 1 = ((delays ++ [ms]).length + 1 : Nat) := by
          rw [hlength]
          rfl
        have hroom : Roomy e₀.store.kind r' (2 * (n - (delays ++ [ms]).length)) :=
          hb.mono hresumes.lower (by have := hresumes.upper; omega)
        rw [hattempt, ← hresumes.course]
        refine (ih ((hr.noted _).pause hdated) hresumes.opened hp₁ (hst.kind.trans hk) hroom hd'
          ⟨e₂, he₂, rfl, rfl⟩ (by omega) (by omega)).mono ?_ ?_
        · exact fun _ _ hends => ⟨hends.1.after hs hlength, hends.2.after hs⟩
        · rintro f' e' (hends | hexhausts)
          · exact .inl (hends.after hs hlength)
          · exact .inr (hexhausts.after hs hlength)

/-! ## Ends -/

abbrev Outcome := EStateM.Result Failure Engine Context

namespace Outcome

def engine : Outcome → Engine
  | .ok _ e | .error _ e => e

def answer : Outcome → Except Failure Context
  | .ok c _ => .ok c.timeless
  | .error f _ => .error f

/-- Two ends of an input that differ in nothing but versions and times of writes. -/
structure Agrees (i : String) (o o' : Outcome) : Prop where
  answer : o.answer = o'.answer
  row : ∃ r r', o.engine.store.row? i = some r ∧ o'.engine.store.row? i = some r' ∧
    r.timeless = r'.timeless

def GaveUp (o : Outcome) : Prop := ∃ f e, o = .error f e ∧ f.isStale = true

end Outcome

/-- What becomes of an input that loses some races while so many tries can be made: the races that it took
and lost are told off, it has waited after each try that it lost but for the last one, and it ends in `ends`
if a try was left and in `quits` if none was. -/
def Tried (e : Engine) (lost : List Bool) (n : Nat) (ends quits : Outcome → Prop) (o : Outcome) : Prop :=
  ∃ m rest delays, Spent m lost rest ∧ o.engine.faults.lost = rest ∧ m ≤ n ∧
    e.policy.Delays delays ∧ delays.length = min m (n - 1) ∧ Waited e delays o.engine ∧
    (m < n → ends o) ∧ (m = n → quits o)

def Retried (e : Engine) (lost : List Bool) (n : Nat) (ends : Outcome → Prop) (o : Outcome) : Prop :=
  Tried e lost n ends Outcome.GaveUp o

theorem Tried.mono {ends ends' quits quits' : Outcome → Prop} {o : Outcome} (h : Tried e lost n ends quits o)
    (hends : ends o → ends' o) (hquits : quits o → quits' o) : Tried e lost n ends' quits' o := by
  obtain ⟨m, rest, delays, hs, hrest, hm, hd, hlength, hw, hwon, hlost⟩ := h
  exact ⟨m, rest, delays, hs, hrest, hm, hd, hlength, hw, fun hlt => hends (hwon hlt),
    fun hlast => hquits (hlost hlast)⟩

/-- An outcome that is well only with no race left, if all the races to come are lost. -/
def Outcome.Escapes (lost : List Bool) (o : Outcome) : Prop :=
  ∀ c e', o = .ok c e' → Engine.Escapes lost e'

/-- What is going to lose as many races as tries can be made, and would end well with a try left, quits. -/
theorem Tried.quits {ends quits : Outcome → Prop} {o : Outcome} (h : Tried e lost n ends quits o)
    (hall : ∀ b ∈ lost, b = true) (hlong : n ≤ lost.length)
    (hends : ends o → (∃ c e', o = .ok c e') ∧ o.Escapes lost) : quits o := by
  obtain ⟨m, rest, delays, ⟨past, hpast, hcount⟩, hrest, hm, -, -, -, hwon, hlost⟩ := h
  refine hlost (Nat.le_antisymm hm (not_lt.mp fun hless => ?_))
  obtain ⟨⟨c, e', rfl⟩, hescapes⟩ := hends (hwon hless)
  have hnone : rest = [] := hrest.symm.trans (hescapes c e' rfl hall)
  have hlength : past.count true = past.length := List.count_eq_length.mpr fun b hb =>
    (hall b (hpast ▸ List.mem_append_left _ hb)).symm
  rw [hpast, hnone, List.append_nil, ← hlength, hcount] at hlong
  omega

structure Outcome.Ends (i : String) (course : Course) (o : Outcome) : Prop where
  answer : o.answer = course.answer
  row : ∃ r, o.engine.store.row? i = some r ∧ r.timeless = course.row

theorem Outcome.Ends.agrees {course : Course} {o o' : Outcome} (h : o.Ends i course)
    (h' : o'.Ends i course) : o.Agrees i o' := by
  obtain ⟨hanswer, r, hr, hcourse⟩ := h
  obtain ⟨hanswer', r', hr', hcourse'⟩ := h'
  exact ⟨hanswer.trans hanswer'.symm, r, r', hr, hr', hcourse.trans hcourse'.symm⟩

private theorem Settles.tried {course : Course} {quits : Outcome → Prop} {o : Outcome}
    (h : Settles e i index n lost 0 course o.answer o.engine) (hescapes : o.Escapes lost) :
    Tried e lost n (fun o => o.Ends i course ∧ o.Escapes lost) quits o := by
  obtain ⟨m, r', hm, ⟨rest, delays, hs, hr, hd, hlength, hwaited⟩, hcourse⟩ := h
  have hfaults := hr.contested.faults
  refine ⟨m, rest, delays, hs, congrArg Faults.lost hfaults, by omega, hd, by omega, hwaited, fun _ => ?_,
    fun hlast => by omega⟩
  exact ⟨⟨congrArg Course.answer hcourse.symm, r', hr.row, congrArg Course.row hcourse.symm⟩, hescapes⟩

private theorem Exhausts.tried {f : Failure} {ends : Outcome → Prop} (hpos : 1 ≤ n)
    (h : Exhausts e i index n lost 0 f e') :
    Tried e lost n ends (fun o => ∃ f e', o = .error f e' ∧ Quits e.policy n f) (.error f e') := by
  obtain ⟨m, r', hm, ⟨rest, delays, hs, hr, hd, hlength, hwaited⟩, hquits⟩ := h
  have hfaults := hr.contested.faults
  exact ⟨m, rest, delays, hs, congrArg Faults.lost hfaults, by omega, hd, by omega, hwaited,
    fun hlt => by omega, fun _ => ⟨f, e', rfl, hquits⟩⟩

/-- An input of a row that can be loaded follows the course of the row, until the policy gives no delay. -/
theorem deliverFrom_tried (hpat : Patient e n) (hend : ∀ ms, e.policy.delayAfter n ≠ .ok (some ms))
    (hpos : 1 ≤ n) (choice given : Json) {f : Engine} (h : Racing i index lost r f)
    (ho : r.completed = none) (hp : f.policy = e.policy) (hk : f.store.kind = e.store.kind)
    (hb : Roomy e.store.kind r (2 * n)) (hw : Waited e [] f) {bound : Nat} (hbound : n ≤ bound) :
    Tried e lost n
      (fun o => o.Ends i (course e.store.kind index choice given r.timeless) ∧ o.Escapes lost)
      (fun o => ∃ f e', o = .error f e' ∧ Quits e.policy n f)
      (deliverFrom (some i) choice given 1 bound f) := by
  have hnil : e.policy.Delays [] := fun k ms hms => by simp at hms
  have hroom : Roomy e.store.kind r (2 * (n - ([] : List Int).length)) := hb
  have hends := deliverFrom_delivers hpat hend choice given bound h ho hp hk hroom hnil hw hpos
    (by simpa using hbound)
  have hone : ((([] : List Int).length + 1 : Nat) : Int) = 1 := rfl
  rw [hone] at hends
  cases hout : deliverFrom (some i) choice given 1 bound f with
  | ok c e' =>
    obtain ⟨hsettles, hescapes⟩ := hends.of_eq_ok hout
    exact Settles.tried hsettles fun _ _ hok => by cases hok; exact hescapes
  | error x e' =>
    rcases hends.of_eq_error hout with hsettles | hexhausts
    · exact hsettles.tried fun _ _ hok => by cases hok
    · exact hexhausts.tried hpos

private theorem deliverFrom_of_load {f : Failure} (h : load (some i) e = .error f e')
    (attempt : Int) (more : Nat) :
    deliverFrom (some i) choice given attempt more e = .error f e' := by
  have htry : tryInput (some i) choice given e = .error f e' := Action.bind_of_error h
  cases more with
  | zero => exact Action.bind_of_error htry
  | succ more => exact Action.bind_of_error htry

private theorem deliverFrom_unloadable {quits : Outcome → Prop} (he : e.Ready) (hu : Contested lost e)
    (hr : e.store.row? i = some r) (hpos : 1 ≤ n) (hloads : ¬ ∃ c, LoadsAs e i c) {bound bound' : Nat} :
    Tried e lost n (fun o => o.Agrees i (deliverFrom (some i) choice given 1 bound' (losing [] e)) ∧
      o.Escapes lost) quits (deliverFrom (some i) choice given 1 bound e) := by
  have hready : (losing [] e).Ready := ⟨he.alone, he.unraced, he.sound, he.drawn⟩
  have hfaults : (losing [] e).faults = .none := by simp only [losing, hu.faults, Faults.none]
  have hloading := load_loadsAs hready.alone hready.sound hfaults i
  cases hload : load (some i) (losing [] e) with
  | ok c e' => exact absurd ⟨c, (hloading.of_eq_ok hload).1⟩ hloads
  | error f e' =>
    obtain ⟨-, hc⟩ := hloading.of_eq_error hload
    have hload' : load (some i) e = .error f (losing lost e') := by
      have hself : losing lost (losing [] e) = e := hu.losing_self
      have hoverlooks := load_overlooks lost (some i) (losing [] e)
      rw [hself, hload] at hoverlooks
      exact hoverlooks
    rw [deliverFrom_of_load hload', deliverFrom_of_load hload]
    have hrow : e'.store.row? i = some r := hc.store ▸ hr
    exact ⟨0, lost, [], .refl, rfl, Nat.zero_le n, fun k ms hms => by simp at hms, by simp,
      ⟨e, rfl, hc.clock, hc.pauses⟩, fun _ => ⟨⟨rfl, r, r, hrow, hrow, rfl⟩, fun _ _ hok => by cases hok⟩,
      fun hlast => by omega⟩

/-- An input on any open row ends as it would have with no race lost, if a try is left, and quits with the
last try if none is. -/
theorem deliverFrom_absorbs (he : e.Ready) (hu : Contested lost e) (hr : e.store.row? i = some r)
    (ho : r.completed = none) (hpat : Patient e n) (hend : ∀ ms, e.policy.delayAfter n ≠ .ok (some ms))
    (hpos : 1 ≤ n) (hb : Roomy e.store.kind r (2 * n)) (choice given : Json) {bound bound' : Nat}
    (hbound : n ≤ bound) (hbound' : n ≤ bound') :
    Tried e lost n (fun o => o.Agrees i (deliverFrom (some i) choice given 1 bound' (losing [] e)) ∧
      o.Escapes lost) (fun o => ∃ f e', o = .error f e' ∧ Quits e.policy n f)
      (deliverFrom (some i) choice given 1 bound e) := by
  by_cases hloads : ∃ c, LoadsAs e i c
  · obtain ⟨c, hc⟩ := hloads
    obtain ⟨r', index, hracing, -⟩ := Racing.of_loadsAs he hu hc
    cases hr.symm.trans hracing.row
    have hcalmly := deliverFrom_tried hpat hend hpos choice given (hracing.lose []) ho rfl rfl hb
      ⟨e, rfl, rfl, rfl⟩ hbound'
    obtain ⟨m, _, _, hs, -, -, -, -, -, hwon, -⟩ := hcalmly
    have hzero : m = 0 := hs.eq_zero.1
    have htried := deliverFrom_tried hpat hend hpos choice given hracing ho rfl rfl hb
      ⟨e, rfl, rfl, rfl⟩ hbound
    exact htried.mono (fun hends => ⟨hends.1.agrees (hwon (by omega)).1, hends.2⟩) id
  · exact deliverFrom_unloadable he hu hr hpos hloads

/-- A whole number of tries bounds them. -/
theorem deliver_eq (hn : e.policy.maxAttempts.whole? = some (n : Int)) :
    deliver (some i) choice given e = deliverFrom (some i) choice given 1 n e := by
  change deliverFrom (some i) choice given 1 (e.policy.tries?.getD _) e = _
  rw [RetryPolicy.tries_of_whole hn]
  rfl

/-- Whichever of its guarded writes are rejected as stale, an input with a results object or without, on
any open row, ends as it would have without the rejections if there are fewer of them than tries: it returns
the same copy or raises the same failure, and leaves the row with the same node, wakeup time, results and
state. Otherwise it gives up on the last one allowed. Either way it has waited for the delays that the
policy gives after the first tries, one for each try that was followed by another, and for nothing else.
No bound of that many tries or more is what ends it. -/
theorem input_absorbs_lost_races (he : e.Ready) (hu : Contested lost e)
    (hr : e.store.row? i = some r) (ho : r.completed = none)
    (hn : e.policy.maxAttempts.whole? = some (n : Int)) (hpos : 1 ≤ n) (hpat : Patient e n)
    (hb : Roomy e.store.kind r (2 * n)) (choice given : Json) :
    deliver (some i) choice given e = deliverFrom (some i) choice given 1 n e ∧
    ∀ bound, n ≤ bound →
      Retried e lost n (·.Agrees i (deliver (some i) choice given { e with faults := .none }))
        (deliverFrom (some i) choice given 1 bound e) := by
  have hcalm : ({ e with faults := .none } : Engine) = losing [] e := by
    simp only [losing, hu.faults, Faults.none]
  have hdeliver {f : Engine} (hp : f.policy = e.policy) :
      deliver (some i) choice given f = deliverFrom (some i) choice given 1 n f :=
    deliver_eq (hp ▸ hn)
  refine ⟨hdeliver rfl, fun bound hbound => ?_⟩
  rw [hcalm, hdeliver (f := losing [] e) rfl]
  have hnone := RetryPolicy.delayAfter_last hn
  have hend (ms : Int) : e.policy.delayAfter n ≠ .ok (some ms) := by simp [hnone]
  have htried := deliverFrom_absorbs he hu hr ho hpat hend hpos hb choice given hbound (Nat.le_refl n)
  refine htried.mono (fun hends => hends.1) ?_
  rintro ⟨f, e', hf, ⟨-, hstale⟩ | herror⟩
  · exact ⟨f, e', hf, hstale⟩
  · cases hnone.symm.trans herror

/-! ## A waiting row -/

def twoNodes : Flow.Graph where
  id := some 1
  uuid := none
  shortcode := none
  name := none
  language := .null
  kind := .message
  format := none
  index := ⟨[⟨.string "n1", [], [⟨.string "e1", some (.string "n2")⟩], none⟩,
    ⟨.string "n2", [], [], none⟩]⟩
  localization := ⟨[], [], .null⟩
  checksum := 0

def waiting (policy : RetryPolicy) (lost : List Bool) : Engine :=
  let t := Moment.utc 0
  let row : Context := ⟨some (freshId 1), .int 7, 1, none, .string "n1", none, some (Moment.utc 9000000),
    none, .object [], 1, t, t, none⟩
  let e := Engine.ofStore (.memory { Store.Memory.empty with contexts := [(freshId 1, row)] }) policy (.int 10) 0
  { e with drawn := 1, registry := Registry.empty.insert ⟨0, twoNodes⟩, faults := { Faults.none with lost } }

theorem ready_waiting (policy : RetryPolicy) (lost : List Bool) :
    (waiting policy lost).Ready := ready_of_single rfl rfl rfl rfl rfl (Nat.le_refl 1)

private def brief : RetryPolicy := ⟨.int 3, .int 5, .int 200, .int 2⟩

private theorem patient_waiting (lost : List Bool) : Patient (waiting brief lost) 3 := by
  have hfirst : brief.delayAfter 1 = .ok (some 5) := by decide
  have hsecond : brief.delayAfter 2 = .ok (some 10) := by decide
  refine ⟨?_, ?_⟩
  · intro a hlow hhigh
    obtain rfl | rfl : a = 1 ∨ a = 2 := by omega
    · exact ⟨5, hfirst⟩
    · exact ⟨10, hsecond⟩
  · intro delays hd hlength
    rcases delays with _ | ⟨x, _ | ⟨y, _ | ⟨z, rest⟩⟩⟩
    · exact ⟨_, rfl, _, rfl⟩
    · cases hfirst.symm.trans (hd 0 x rfl)
      exact ⟨_, rfl, _, rfl⟩
    · cases hfirst.symm.trans (hd 0 x rfl)
      cases hsecond.symm.trans (hd 1 y rfl)
      exact ⟨_, rfl, _, rfl⟩
    · simp at hlength
      omega

/-- The wait is ended, the recording of a result is rejected, and the second try moves on. -/
theorem input_absorbs_rejected_recording :
    let e := waiting brief [false, true]
    let given := Json.object [("a", .int 1)]
    ∃ r, e.Ready ∧ Contested [false, true] e ∧ e.store.row? (freshId 1) = some r ∧
      r.completed = none ∧ e.policy.maxAttempts.whole? = some (3 : Nat) ∧ 1 ≤ 3 ∧ Patient e 3 ∧
      Roomy e.store.kind r (2 * 3) ∧
      deliver (some (freshId 1)) (.int 0) given e =
        deliverFrom (some (freshId 1)) (.int 0) given 1 3 e ∧
      Retried e [false, true] 3
        (·.Agrees (freshId 1) (deliver (some (freshId 1)) (.int 0) given { e with faults := .none }))
        (deliverFrom (some (freshId 1)) (.int 0) given 1 3 e) := by
  intro e given
  have hu : Contested [false, true] e := ⟨rfl, rfl, _, rfl⟩
  have hb : ∀ r, Roomy e.store.kind r (2 * 3) := fun r hk => by cases hk
  obtain ⟨hdeliver, hall⟩ := input_absorbs_lost_races (i := freshId 1) (ready_waiting _ _) hu rfl rfl rfl
    (by decide) (patient_waiting _) (hb _) (.int 0) given
  exact ⟨_, ready_waiting _ _, hu, rfl, rfl, rfl, by decide, patient_waiting _, hb _, hdeliver,
    hall 3 (Nat.le_refl 3)⟩

private def endless : RetryPolicy := ⟨.int 3, .int (10 ^ 400), .int (10 ^ 400), .int 2⟩

/-- Two tries are left after the race that is lost, with a delay before either, and yet the input ends with
a failure that it would not have ended with. -/
theorem endless_delay_ends_input :
    let e := waiting endless [true]
    let deliverZero := deliver (some (freshId 1)) (.int 0) (.object [])
    e.Ready ∧ Contested [true] e ∧ (∃ r, e.store.row? (freshId 1) = some r ∧ r.completed = none) ∧
      e.policy.maxAttempts.whole? = some (3 : Nat) ∧
      (∀ a : Nat, 1 ≤ a → a < 3 → e.policy.delayAfter a = .ok (some (10 ^ 400))) ∧
      Outcome.answer (deliverZero e) = .error (.tooLarge .double) ∧
      (∃ c, Outcome.answer (deliverZero { e with faults := .none }) = .ok c) ∧
      ¬ Outcome.Agrees (freshId 1) (deliverZero e) (deliverZero { e with faults := .none }) := by
  intro e deliverZero
  have hfails : Outcome.answer (deliverZero e) = .error (.tooLarge .double) := by decide +kernel
  have hends : ∃ c, Outcome.answer (deliverZero { e with faults := .none }) = .ok c := by
    have hok : (Outcome.answer (deliverZero { e with faults := .none })).isOk = true := by decide +kernel
    cases hcalm : Outcome.answer (deliverZero { e with faults := .none }) with
    | ok c => exact ⟨c, rfl⟩
    | error f =>
      rw [hcalm] at hok
      cases hok
  refine ⟨ready_waiting _ _, ⟨rfl, rfl, _, rfl⟩, ⟨_, rfl, rfl⟩, rfl, ?_, hfails, hends, ?_⟩
  · intro a hlow hhigh
    obtain rfl | rfl : a = 1 ∨ a = 2 := by omega
    · decide +kernel
    · decide +kernel
  · intro hagrees
    obtain ⟨c, hc⟩ := hends
    have habsurd := hfails.symm.trans (hagrees.answer.trans hc)
    cases habsurd

end DurableFlow.Engine
