import Foreman.Executor.Step
import Foreman.Proofs.PlanHandling

/-! Schedules of steps, and what is assumed where they start. Any thread may make
the next step, and requests for cancellation may come at any time. -/

namespace Foreman

/-- A plan of its own accord raises faults only in place of enumerating, selecting
and completing, and otherwise keeps its rules. -/
structure Hooks.Throwing (hooks : Hooks) : Prop where
  cancel : ∀ tally, hooks.cancel tally = none
  collect : ∀ tally, hooks.collect tally = none
  locksFirst : hooks.locksFirst = false
  completesAtOnce : ∀ node, hooks.completesAtOnce node = false
  withholds : ∀ tally, hooks.withholds tally = false

theorem Hooks.Throwing.default : Hooks.Throwing {} :=
  ⟨fun _ => rfl, fun _ => rfl, rfl, fun _ => rfl, fun _ => rfl⟩

namespace Executor

def Sink.Raises (sink : Option Sink) : Prop :=
  ∃ present, sink = some present ∧ ∃ count event fault, present count event = some fault

def Quiet (executor : Executor) : Prop := ¬ Sink.Raises executor.sink

namespace Phase

def lease? : Phase → Option Lease
  | .hired | .gone _ => none
  | .choosing lease _ | .chosen lease _ | .acting lease .. | .completing lease _ | .retiring lease
  | .failing lease .. => some lease

def node? : Phase → Option Nat
  | .chosen _ node | .acting _ node _ _ | .completing _ node => some node
  | .failing _ node _ => node
  | .hired | .choosing .. | .retiring _ | .gone _ => none

theorem lease_of_node {phase : Phase} {node : Nat} (owns : phase.node? = some node) :
    ∃ lease, phase.lease? = some lease := by
  cases phase with
  | hired | gone => cases owns
  | choosing | chosen | acting | completing | retiring | failing => exact ⟨_, rfl⟩

end Phase

structure Call.Unmade (call : Call) : Prop where
  stage : call.stage = .arriving
  workers : call.workers = []
  jobs : call.pool.jobs = []
  failure : call.pool.failure = none
  unfailed : call.workerFailed = false

namespace World

def phase? (world : World) (index worker : Nat) : Option Phase :=
  world.calls[index]?.bind (·.workers[worker]?)

/-- Makes the steps of a schedule one after the other. Each of them is told whether
it misses a request for cancellation. There is no world after a step that cannot
be made. -/
def play (world : World) : List (Bool × Move) → Option World
  | [] => some world
  | (missed, move) :: rest => (world.step missed move).bind (·.play rest)

theorem play_append (world : World) (earlier later : List (Bool × Move)) :
    world.play (earlier ++ later) = (world.play earlier).bind (·.play later) := by
  induction earlier generalizing world with
  | nil => rfl
  | cons first rest ih =>
    simp only [List.cons_append, play]
    cases world.step first.1 first.2 with
    | none => rfl
    | some next => exact ih next

section

variable {start middle world after : World} {earlier moves : List (Bool × Move)} {missed : Bool}
  {move : Move} (played : start.play earlier = some middle)
include played

theorem play_trans (ran : middle.play moves = some world) :
    start.play (earlier ++ moves) = some world := by
  rw [play_append, played]
  exact ran

theorem play_concat (stepped : middle.step missed move = some after) :
    start.play (earlier ++ [(missed, move)]) = some after := by
  apply play_trans played
  simp only [play, stepped, Option.bind_some]

theorem play_rest (stepped : middle.step missed move = some after)
    (ran : start.play (earlier ++ (missed, move) :: moves) = some world) :
    after.play moves = some world := by
  rw [play_append, played, Option.bind_some] at ran
  simpa only [play, stepped, Option.bind_some] using ran

end

theorem play_last {start world : World} {earlier : List (Bool × Move)} {missed : Bool} {move : Move}
    (ran : start.play (earlier ++ [(missed, move)]) = some world) :
    ∃ before, start.play earlier = some before ∧ before.step missed move = some world := by
  rw [play_append] at ran
  obtain ⟨before, played, stepped⟩ := Option.bind_eq_some_iff.mp ran
  exact ⟨before, played, by simpa only [play, Option.bind_fun_some] using stepped⟩

/-- What holds at the start and is kept by every step holds after every schedule. -/
theorem play_induction {start world : World} {moves : List (Bool × Move)} (Kept : World → Prop)
    (ran : start.play moves = some world) (initial : Kept start)
    (step : ∀ before after missed move, Kept before → before.step missed move = some after →
      Kept after) : Kept world := by
  induction moves generalizing start with
  | nil =>
    cases ran
    exact initial
  | cons first rest ih =>
    obtain ⟨next, stepped, ran⟩ := Option.bind_eq_some_iff.mp ran
    exact ih ran (step start next _ _ initial stepped)

/-- Calls that are still to be made, on plans that nobody works on. The lock table
may have any history. -/
structure Start (world : World) : Prop where
  table : ∃ commands, world.locks = (Desk.run {} commands).locks
  reached : ∀ (place : Nat) (driven : Driven), world.plans[place]? = some driven →
    driven.plan.Reached
  idle : ∀ (place : Nat) (driven : Driven), world.plans[place]? = some driven →
    ∀ position, driven.plan.state? position ≠ some .executing
  throwing : ∀ (place : Nat) (driven : Driven), world.plans[place]? = some driven →
    driven.hooks.Throwing
  unmade : ∀ (index : Nat) (call : Call), world.calls[index]? = some call → call.Unmade
  planned : ∀ (index : Nat) (call : Call), world.calls[index]? = some call →
    ∃ driven, world.plans[call.plan]? = some driven
  rooted : ∀ (index : Nat) (call : Call), world.calls[index]? = some call →
    ∃ tree, world.locks.tree? call.executor.root = some tree
  history : world.history = []

/-- Calls on plans of their own by executors that share one tree of leases. Each
job is a plan, its action and the number of workers. -/
def opening (budget : Nat) (jobs : List (Plan × Action × Nat)) : World :=
  { locks := (Desk.run {} [.createTree "leases" budget]).locks
    plans := jobs.map fun job => { plan := job.1 }
    calls := jobs.mapIdx fun index job =>
      { executor := { workers := job.2.2, root := { tree := 0, place := 0 }, gate := 0 }
        plan := index
        action := some job.2.1 } }

theorem opening_tree {budget : Nat} (positive : 0 < budget) (jobs : List (Plan × Action × Nat)) :
    (opening budget jobs).locks.trees = [{ name := "leases", budget }] := by
  have allowed : ¬ (budget : Int) < 1 := by omega
  simp [opening, Desk.run, Desk.perform, Locks.createTree, LeaseTree.create, allowed, bind,
    Except.bind, pure, Except.pure]

theorem opening_unlocked {budget : Nat} (positive : 0 < budget)
    (jobs : List (Plan × Action × Nat)) (lock : Lock) : ¬ (opening budget jobs).locks.isLocked lock := by
  cases lock with
  | lease lease =>
    rw [Locks.isLocked_lease]
    intro locked
    obtain ⟨tree, found, locked⟩ := locked
    rw [Locks.tree?, opening_tree positive] at found
    have same := List.mem_singleton.mp (List.mem_of_getElem? found)
    have inside := List.mem_of_getElem? (LeaseTree.isLocked_iff.mp locked)
    simp [same] at inside
  | resource scope name =>
    have none : (opening budget jobs).locks.resources = [] := by
      have allowed : ¬ (budget : Int) < 1 := by omega
      simp [opening, Desk.run, Desk.perform, Locks.createTree, LeaseTree.create, allowed, bind,
        Except.bind, pure, Except.pure]
    simp [Locks.isLocked, none]

theorem opening_call {budget index : Nat} {jobs : List (Plan × Action × Nat)} {call : Call}
    (found : (opening budget jobs).calls[index]? = some call) :
    ∃ job, jobs[index]? = some job ∧ call =
      { executor := { workers := job.2.2, root := { tree := 0, place := 0 }, gate := 0 }
        plan := index
        action := some job.2.1 } := by
  simp only [opening, List.getElem?_mapIdx, Option.map_eq_some_iff] at found
  obtain ⟨job, present, rfl⟩ := found
  exact ⟨job, present, rfl⟩

theorem opening_plan {budget place : Nat} {jobs : List (Plan × Action × Nat)} {driven : Driven}
    (found : (opening budget jobs).plans[place]? = some driven) :
    ∃ job, jobs[place]? = some job ∧ driven = { plan := job.1 } := by
  simp only [opening, List.getElem?_map, Option.map_eq_some_iff] at found
  obtain ⟨job, present, rfl⟩ := found
  exact ⟨job, present, rfl⟩

theorem opening_start {budget : Nat} (positive : 0 < budget) {jobs : List (Plan × Action × Nat)}
    (built : ∀ job ∈ jobs, job.1.Built) : (opening budget jobs).Start := by
  refine ⟨⟨_, rfl⟩, ?_, ?_, ?_, ?_, ?_, ?_, rfl⟩
  · intro place driven found
    obtain ⟨job, present, rfl⟩ := opening_plan found
    exact .built (built job (List.mem_of_getElem? present))
  · intro place driven found position executing
    obtain ⟨job, present, rfl⟩ := opening_plan found
    obtain ⟨entry, there, state⟩ := Plan.entry_of_state? executing
    have idle := (built job (List.mem_of_getElem? present)).valid.2
    simp [(idle.untouched position entry there).1] at state
  · intro place driven found
    obtain ⟨job, present, rfl⟩ := opening_plan found
    exact .default
  · intro index call found
    obtain ⟨job, present, rfl⟩ := opening_call found
    exact ⟨rfl, rfl, rfl, rfl, rfl⟩
  · intro index call found
    obtain ⟨job, present, rfl⟩ := opening_call found
    exact ⟨{ plan := job.1 }, by simp [opening, present]⟩
  · intro index call found
    obtain ⟨job, present, rfl⟩ := opening_call found
    exact ⟨{ name := "leases", budget }, by simp [Locks.tree?, opening_tree positive]⟩

end World
end Executor
end Foreman
