import Mathlib.Data.List.Basic

/-! Machines over a log that calls can only extend.

A call may leave one entry behind, and which one is decided by the call alone.
Everything a later call can find in the log then follows from the calls before it.
-/

set_option autoImplicit false

namespace BitcoinWasm.Semantics

structure AppendLog (Entry Call Reply : Type) where
  step : List Entry → Call → Reply × List Entry
  /-- What a call leaves in the log, whatever the log holds. -/
  added : Call → Option Entry
  step_log : ∀ log call, (step log call).2 = log ++ (added call).toList

namespace AppendLog

variable {Entry Call Reply : Type} (machine : AppendLog Entry Call Reply)

/-- The replies to a sequence of calls, and the log behind them. -/
def run (log : List Entry) : List Call → List Reply × List Entry
  | [] => ([], log)
  | call :: rest =>
    let stepped := machine.step log call
    let ran := run stepped.2 rest
    (stepped.1 :: ran.1, ran.2)

end AppendLog

end BitcoinWasm.Semantics
