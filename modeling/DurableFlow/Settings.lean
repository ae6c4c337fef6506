import DurableFlow.Retry

/-! Settings read from named texts. -/
namespace DurableFlow

structure Settings where
  storeUrl : String
  ns : String
  tickInterval : Amount
  batchSize : Int
  staleRetries : Int
  deriving DecidableEq

namespace Settings

def defaults : Settings :=
  ⟨"memory://", "pyrhoe", .double (Binary64.nearest false 1), 100, 3⟩

def variableName (name : String) : String := "PYRHOE_" ++ name

/-- A numeric variable: a blank or missing one keeps the default, and what does not read as a
positive number is refused. -/
def number {α : Type} (env : List (String × String)) (name kind : String)
    (read : String → Option α) (amount : α → Amount) (default : α) : Except Failure α :=
  match Table.find? (variableName name) env with
  | none => .ok default
  | some raw =>
    if raw.toList.all Text.isBlank then .ok default
    else match read raw with
      | none => .error (.setting (.notANumber (variableName name) raw kind))
      | some v =>
        if (amount v).notPositive then .error (.setting (.notPositive (variableName name) raw))
        else .ok v

def ofEnv (env : List (String × String)) : Except Failure Settings := do
  let interval ← number env "TICK_INTERVAL" "float"
    (fun s => (Text.readBinary64 s).map Amount.double) id defaults.tickInterval
  let batch ← number env "BATCH_SIZE" "int" Text.readInteger .int defaults.batchSize
  let retries ← number env "STALE_RETRIES" "int" Text.readInteger .int defaults.staleRetries
  return {
    storeUrl := (Table.find? (variableName "STORE_URL") env).getD defaults.storeUrl
    ns := (Table.find? (variableName "NAMESPACE") env).getD defaults.ns
    tickInterval := interval
    batchSize := batch
    staleRetries := retries }

def retryPolicy (s : Settings) : Except Failure RetryPolicy :=
  RetryPolicy.withMaxAttempts (.int s.staleRetries)

end Settings

end DurableFlow
