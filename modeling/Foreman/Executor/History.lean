import Foreman.Executor.World

/-! Reading the history of a call. -/

namespace Foreman.Executor

/-- The nodes of a call in the order in which their actions ended. -/
def endedNodes (history : List Happening) (call : Nat) : List Nat :=
  history.filterMap fun
    | .ended other node => if other = call then some node else none
    | _ => none

/-- How many actions of a call run after each happening, the last first. -/
def runningCounts (history : List Happening) (call : Nat) : List Nat :=
  history.foldl (fun counts happening =>
    let running := counts.headD 0
    match happening with
    | .started other _ => (if other = call then running + 1 else running) :: counts
    | .ended other _ => (if other = call then running - 1 else running) :: counts
    | _ => counts) []

def peakRunning (history : List Happening) (call : Nat) : Nat :=
  (runningCounts history call).foldl max 0

namespace World

/-- The ids of the nodes of a call in the order in which their actions ended. -/
def order (world : World) (index : Nat) : List String :=
  match world.calls[index]?.bind fun call => world.plans[call.plan]? with
  | none => []
  | some driven => driven.plan.ids (endedNodes world.history index)

def peak (world : World) (index : Nat) : Nat := peakRunning world.history index

/-- The fault that a call that has ended raised. -/
def fault? (world : World) (index : Nat) : Option Fault :=
  world.calls[index]?.bind fun call =>
    match call.stage with
    | .gone fault => fault
    | _ => none

end World
end Foreman.Executor
