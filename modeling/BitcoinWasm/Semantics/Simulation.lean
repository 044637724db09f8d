import BitcoinWasm.Semantics.AppendLog

/-! A machine that carries out a log.

Its state holds the log and whatever else its answers refer to. An answer stands
for a reply in a state, and goes on to stand for it in later states.
-/

set_option autoImplicit false

namespace BitcoinWasm.Semantics

structure Simulation {Entry Call Reply : Type} (machine : AppendLog Entry Call Reply) (State Answer : Type) where
  step : State → Call → Option (Answer × State)
  log : State → List Entry
  Stands : State → Answer → Reply → Prop
  Later : State → State → Prop
  /-- The machine has what it needs for these calls. -/
  Admits : State → List Call → Prop
  later_refl : ∀ state, Later state state
  later_trans : ∀ {first second third}, Later first second → Later second third → Later first third
  stands_later : ∀ {before after answer reply}, Later before after → Stands before answer reply →
    Stands after answer reply
  step_spec : ∀ {state call rest}, Admits state (call :: rest) → ∃ answer after,
    step state call = some (answer, after) ∧ log after = (machine.step (log state) call).2 ∧
      Stands after answer (machine.step (log state) call).1 ∧ Later state after ∧ Admits after rest

namespace Simulation

variable {Entry Call Reply State Answer : Type} {machine : AppendLog Entry Call Reply}
  (simulation : Simulation machine State Answer)

/-- The answers to a sequence of calls, unless one of them gets stuck. -/
def run (state : State) : List Call → Option (List Answer × State)
  | [] => some ([], state)
  | call :: rest => do
    let (answer, state) ← simulation.step state call
    let (answers, state) ← run state rest
    return (answer :: answers, state)

/-- A run does not get stuck, and at its end every answer stands for its reply. -/
theorem run_spec (calls : List Call) (state : State) (admits : simulation.Admits state calls) :
    ∃ answers after, simulation.run state calls = some (answers, after) ∧
      simulation.log after = (machine.run (simulation.log state) calls).2 ∧
      List.Forall₂ (simulation.Stands after) answers (machine.run (simulation.log state) calls).1 ∧
      simulation.Later state after := by
  induction calls generalizing state with
  | nil => exact ⟨[], state, rfl, rfl, .nil, simulation.later_refl state⟩
  | cons call rest ih =>
    obtain ⟨answer, next, stepped, logged, stands, later, restAdmits⟩ := simulation.step_spec admits
    obtain ⟨answers, after, ran, restLogged, restStand, restLater⟩ := ih next restAdmits
    -- The first answer was given in an earlier state than the one at the end.
    rw [logged] at restLogged restStand
    refine ⟨answer :: answers, after, ?_, restLogged, ?_, simulation.later_trans later restLater⟩
    · rw [run, stepped]
      change (simulation.run next rest).bind _ = _
      rw [ran]
      rfl
    · exact .cons (simulation.stands_later restLater stands) restStand

end Simulation

end BitcoinWasm.Semantics
