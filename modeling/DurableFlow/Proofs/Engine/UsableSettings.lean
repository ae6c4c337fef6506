import DurableFlow.Proofs.Engine.UsualDelays
import DurableFlow.Proofs.Engine.WorkerDelays
import DurableFlow.Proofs.Text.DecimalNumerals

/-! Settings that an environment gives. They are refused just when a numeric variable is set to a text that
is no numeral of a suitable number, and those that are accepted can be used, but for an interval that is no
number. -/
namespace DurableFlow
open Text (DenotesInteger DenotesNumber)

/-! ## Positive numbers -/

def Binary64.IsPositive (d : Binary64) : Prop := d = .infinite false ∨ ∃ q, d.value? = some q ∧ 0 < q

namespace Amount
variable {d : Binary64} {n : Int}

/-- An amount is taken for positive when it is above zero, and also when it is no number. -/
theorem notPositive_double : (double d).notPositive = false ↔ d.IsPositive ∨ d = .nan := by
  unfold notPositive atLeast Binary64.IsPositive
  cases d with
  | nan => simp [place?, toJson, Json.place?, Binary64.place?]
  | infinite s =>
    cases s <;> simp [place?, toJson, Json.place?, Binary64.place?, Binary64.Place.lt, Binary64.value?]
  | finite s m e =>
    simp only [place?, toJson, Json.place?, Binary64.place?, Binary64.value?, Option.map_some,
      Binary64.Place.lt, Bool.not_eq_false', decide_eq_true_eq, reduceCtorEq, false_or, or_false,
      Option.some.injEq, exists_eq_left', Int.cast_zero]

theorem notPositive_int : (int n).notPositive = false ↔ 1 ≤ n := by
  have hcast : (0 : Rat) < n ↔ 1 ≤ n := by
    rw [← Int.cast_zero, Int.cast_lt]
    omega
  simp [notPositive, atLeast, place?, toJson, Json.place?, Binary64.Place.lt, hcast]

end Amount

namespace Binary64

/-- A positive number stays positive when a small one is added. -/
theorem add_positive {d : Binary64} {n : Nat} {f : Int} (h : d.IsPositive)
    (hlow : (2 : Rat) ^ (-1022 : Int) ≤ n * (2 : Rat) ^ f) : (d.add (.finite false n f)).IsPositive := by
  have hsmall : (0 : Rat) < n * (2 : Rat) ^ f := lt_of_lt_of_le (by positivity) hlow
  rcases h with rfl | ⟨q, hq, hpos⟩
  · exact .inl rfl
  · cases d with
    | nan => cases hq
    | infinite s => cases hq
    | finite s m e =>
      obtain ⟨k, g, hk, -, -, -, hnearest⟩ :=
        nearest_error (q := q + n * (2 : Rat) ^ f) (by linarith) false
      have hadd : (finite s m e).add (.finite false n f) = nearest false (q + n * (2 : Rat) ^ f) := by
        unfold add
        dsimp only
        rw [hq, value?_positive, Option.getD_some, Option.getD_some, if_neg (by linarith : ¬ _ = (0 : Rat)),
          ofRat, if_neg (by linarith)]
      rw [hadd, hnearest]
      split
      · exact .inl rfl
      · have hmantissa : (0 : Rat) < k := by exact_mod_cast Nat.lt_of_lt_of_le (by decide) hk
        exact .inr ⟨_, value?_positive k g, by positivity⟩

end Binary64

namespace Settings
variable {env : List (String × String)}

/-! ## Numeric variables -/

def Chosen (env : List (String × String)) (name raw : String) : Prop :=
  Table.find? (variableName name) env = some raw ∧ raw.toList.all Text.isBlank = false

def Unsuitable (env : List (String × String)) (name : String) (suits : String → Prop) : Prop :=
  ∃ raw, Chosen env name raw ∧ ¬ suits raw

/-- A numeric variable is refused just when it is unsuitable; otherwise it gives the default or what its text
is read as. -/
theorem number_outcome {α : Type} (env : List (String × String)) (name kind : String) {read : String → Option α}
    {amount : α → Amount} (default : α) {suits : String → Prop}
    (hsuits : ∀ raw, suits raw ↔ ∃ v, read raw = some v ∧ (amount v).notPositive = false) :
    match number env name kind read amount default with
    | .error f => (∃ m, f = .setting m) ∧ Unsuitable env name suits
    | .ok v => ¬ Unsuitable env name suits ∧
        (v = default ∨ ∃ raw, Chosen env name raw ∧ read raw = some v ∧ (amount v).notPositive = false) := by
  have hunchosen (h : ∀ raw, ¬ Chosen env name raw) : ¬ Unsuitable env name suits :=
    fun ⟨raw, hchosen, _⟩ => h raw hchosen
  unfold number
  cases hfind : Table.find? (variableName name) env with
  | none => exact ⟨hunchosen fun raw h => (nomatch hfind.symm.trans h.1), .inl rfl⟩
  | some raw =>
    have honly {raw' : String} (h : Chosen env name raw') : raw' = raw :=
      Option.some.inj (h.1.symm.trans hfind)
    dsimp only
    cases hblank : raw.toList.all Text.isBlank with
    | true =>
      rw [if_pos rfl]
      refine ⟨hunchosen fun raw' h => ?_, .inl rfl⟩
      cases honly h
      cases hblank.symm.trans h.2
    | false =>
      rw [if_neg Bool.false_ne_true]
      have hchosen : Chosen env name raw := ⟨hfind, hblank⟩
      cases hread : read raw with
      | none =>
        refine ⟨⟨_, rfl⟩, raw, hchosen, fun hs => ?_⟩
        obtain ⟨v, hv, -⟩ := (hsuits raw).mp hs
        cases hread.symm.trans hv
      | some v =>
        dsimp only
        cases hpositive : (amount v).notPositive with
        | true =>
          rw [if_pos rfl]
          refine ⟨⟨_, rfl⟩, raw, hchosen, fun hs => ?_⟩
          obtain ⟨v', hv, hpositive'⟩ := (hsuits raw).mp hs
          cases hread.symm.trans hv
          cases hpositive.symm.trans hpositive'
        | false =>
          rw [if_neg Bool.false_ne_true]
          refine ⟨?_, .inr ⟨raw, hchosen, hread, hpositive⟩⟩
          rintro ⟨raw', h, hnot⟩
          cases honly h
          exact hnot ((hsuits raw).mpr ⟨v, hread, hpositive⟩)

/-! ## All settings -/

def SuitsInterval (raw : String) : Prop := ∃ d, DenotesNumber raw d ∧ (d.IsPositive ∨ d = .nan)

def SuitsCount (raw : String) : Prop := ∃ n, DenotesInteger raw n ∧ 1 ≤ n

/-- One of the numeric variables is set to a text that is neither blank nor suitable. -/
def Refused (env : List (String × String)) : Prop :=
  Unsuitable env "TICK_INTERVAL" SuitsInterval ∨ Unsuitable env "BATCH_SIZE" SuitsCount ∨
    Unsuitable env "STALE_RETRIES" SuitsCount

private theorem suitsCount_iff (raw : String) :
    SuitsCount raw ↔ ∃ n, Text.readInteger raw = some n ∧ (Amount.int n).notPositive = false := by
  simp only [SuitsCount, Text.readInteger_eq_some, Amount.notPositive_int]

private theorem suitsInterval_iff (raw : String) : SuitsInterval raw ↔
    ∃ a, (Text.readBinary64 raw).map Amount.double = some a ∧ (id a).notPositive = false := by
  constructor
  · rintro ⟨d, hd, hsuits⟩
    exact ⟨.double d, by rw [Text.readBinary64_eq_some.mpr hd]; rfl, Amount.notPositive_double.mpr hsuits⟩
  · rintro ⟨a, ha, hsuits⟩
    obtain ⟨d, hd, rfl⟩ := Option.map_eq_some_iff.mp ha
    exact ⟨d, Text.readBinary64_eq_some.mp hd, Amount.notPositive_double.mp hsuits⟩

private theorem withSettings_interval {s : Settings} {d : Binary64} (htick : s.tickInterval = .double d)
    (hd : d.IsPositive ∨ d = .nan) (hbatch : 1 ≤ s.batchSize) (w : Worker) :
    ∃ w' longest, w.withSettings s = .ok w' ∧ w'.interval = .ok longest ∧
      (d.IsPositive → longest.IsPositive) := by
  have htaken : w.withSettings s = .ok { w with tickInterval := .double d, batchSize := .int s.batchSize } := by
    simp only [Worker.withSettings, Worker.withTickInterval, Worker.withBatchSize, htick,
      Amount.notPositive_double.mpr hd, Amount.notPositive_int.mpr hbatch]
    rfl
  obtain ⟨n, f, hjitter, hlow, -⟩ := w.jitter_small
  refine ⟨_, d.add w.jitter, htaken, rfl, fun hpositive => ?_⟩
  rw [hjitter]
  exact Binary64.add_positive hpositive hlow

private theorem count_outcome (env : List (String × String)) (name : String) (default : Int)
    (hdefault : 1 ≤ default) :
    match number env name "int" Text.readInteger Amount.int default with
    | .error f => (∃ m, f = .setting m) ∧ Unsuitable env name SuitsCount
    | .ok n => ¬ Unsuitable env name SuitsCount ∧ 1 ≤ n := by
  have houtcome := number_outcome env name "int" default suitsCount_iff
  split at houtcome
  · rename_i hnumber
    rw [hnumber]
    exact houtcome
  · rename_i n hnumber
    rw [hnumber]
    refine ⟨houtcome.1, ?_⟩
    obtain rfl | ⟨raw, -, -, hpositive⟩ := houtcome.2
    · exact hdefault
    · exact Amount.notPositive_int.mp hpositive

private theorem interval_outcome (env : List (String × String)) :
    match number env "TICK_INTERVAL" "float" (fun s => (Text.readBinary64 s).map Amount.double) id
      defaults.tickInterval with
    | .error f => (∃ m, f = .setting m) ∧ Unsuitable env "TICK_INTERVAL" SuitsInterval
    | .ok a => ¬ Unsuitable env "TICK_INTERVAL" SuitsInterval ∧ ∃ d, a = .double d ∧
        (d.IsPositive ∨ d = .nan ∧ ∃ raw, Chosen env "TICK_INTERVAL" raw ∧ DenotesNumber raw .nan) := by
  have houtcome := number_outcome env "TICK_INTERVAL" "float" defaults.tickInterval suitsInterval_iff
  split at houtcome
  · rename_i hnumber
    rw [hnumber]
    exact houtcome
  · rename_i a hnumber
    rw [hnumber]
    refine ⟨houtcome.1, ?_⟩
    obtain rfl | ⟨raw, hchosen, hread, hpositive⟩ := houtcome.2
    · exact ⟨_, rfl, .inl (.inr ⟨1, by decide +kernel, by norm_num⟩)⟩
    · obtain ⟨d, hd, rfl⟩ := Option.map_eq_some_iff.mp hread
      refine ⟨d, rfl, (Amount.notPositive_double.mp hpositive).imp_right ?_⟩
      rintro rfl
      exact ⟨rfl, raw, hchosen, Text.readBinary64_eq_some.mp hd⟩

/-- An environment is refused, with a failure that names a setting, just when one of its numeric variables
is set to a text that is neither blank nor suitable. Otherwise its settings can be used: they have batches
and tries of one or more, a retry policy and workers, and the interval and the longest wait of every worker
are above zero, unless the interval is spelled as no number. -/
theorem refused_or_usable (env : List (String × String)) :
    match ofEnv env with
    | .error f => (∃ m, f = .setting m) ∧ Refused env
    | .ok s => ¬ Refused env ∧ 1 ≤ s.batchSize ∧ 1 ≤ s.staleRetries ∧ (∃ p, s.retryPolicy = .ok p) ∧
        ∃ d, s.tickInterval = .double d ∧
          (d.IsPositive ∨ d = .nan ∧ ∃ raw, Chosen env "TICK_INTERVAL" raw ∧ DenotesNumber raw .nan) ∧
          ∀ w : Worker, ∃ w' longest, w.withSettings s = .ok w' ∧ w'.interval = .ok longest ∧
            (d.IsPositive → longest.IsPositive) := by
  have hinterval := interval_outcome env
  have hbatch := count_outcome env "BATCH_SIZE" defaults.batchSize (by decide)
  have hretries := count_outcome env "STALE_RETRIES" defaults.staleRetries (by decide)
  unfold ofEnv Refused
  cases htick : number env "TICK_INTERVAL" "float" (fun s => (Text.readBinary64 s).map Amount.double) id
      defaults.tickInterval with
  | error f =>
    rw [htick] at hinterval
    exact ⟨hinterval.1, .inl hinterval.2⟩
  | ok interval =>
    rw [htick] at hinterval
    obtain ⟨hsuits, d, rfl, hd⟩ := hinterval
    cases hsize : number env "BATCH_SIZE" "int" Text.readInteger Amount.int defaults.batchSize with
    | error f =>
      rw [hsize] at hbatch
      exact ⟨hbatch.1, .inr (.inl hbatch.2)⟩
    | ok batch =>
      rw [hsize] at hbatch
      cases htries : number env "STALE_RETRIES" "int" Text.readInteger Amount.int defaults.staleRetries with
      | error f =>
        rw [htries] at hretries
        exact ⟨hretries.1, .inr (.inr hretries.2)⟩
      | ok retries =>
        rw [htries] at hretries
        obtain ⟨n, rfl⟩ := Int.eq_ofNat_of_zero_le (show 0 ≤ retries by omega)
        refine ⟨?_, hbatch.2, hretries.2, ⟨_, RetryPolicy.withMaxAttempts_eq_usual (n := n) (by omega)⟩, d, rfl,
          hd, withSettings_interval rfl (hd.imp_right And.left) hbatch.2⟩
        rintro (h | h | h)
        · exact hsuits h
        · exact hbatch.1 h
        · exact hretries.1 h

/-- An interval that is spelled as no number is accepted, though it is not above zero, and the longest wait
is then no number either. -/
theorem nan_interval_accepted :
    let s := { defaults with tickInterval := .double .nan }
    ofEnv [("PYRHOE_TICK_INTERVAL", "nan")] = .ok s ∧ (Amount.int 0).lt s.tickInterval = false ∧
      ((Worker.named "w").withSettings s).bind Worker.interval = .ok .nan := by
  decide +kernel

end Settings
end DurableFlow
