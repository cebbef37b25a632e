import Foreman.Executor.History
import Foreman.Proofs.GateHolding

/-! What a call leaves behind. When it has ended, by returning or by raising a fault
wherever that came from, its workers are gone, and with them everything that they
had locked: their leases, the resources of the plan and the gate. -/

namespace Foreman.Executor

namespace World

variable {start world : World} {moves : List (Bool × Move)} {index worker place node scope : Nat}
  {call : Call} {driven : Driven} {phase : Phase} {lease : Lease} {lock : Lock}

/-- No worker of the call is at work, since none was started or all have ended. -/
def Vacant (world : World) (index : Nat) : Prop :=
  ∀ worker place phase, world.At index worker place phase → phase.IsGone

theorem Vacant.unleased (vacant : world.Vacant index) : ¬ world.Leases index worker lease := by
  intro leases
  obtain ⟨place, phase, there, has⟩ := leases
  obtain ⟨fault, rfl⟩ := vacant worker place phase there
  cases has

theorem Owned.vacant (owned : world.Owned) (found : world.calls[index]? = some call)
    (ended : call.Ended) : world.Vacant index := by
  intro worker place phase there
  obtain ⟨other, present, _, there⟩ := there
  cases Option.some.inj (found.symm.trans present)
  obtain ⟨fault, gone⟩ := ended
  exact (owned.staffed index call found).emptied fault gone phase (List.mem_of_getElem? there)

/-- A lock that was not locked at the start is locked for a node that a worker owns:
it is the worker's lease or a resource of the plan. -/
theorem Start.engaged (fresh : start.Start) (ran : start.play moves = some world)
    (free : ¬ start.locks.isLocked lock) (locked : world.locks.isLocked lock) :
    ∃ index worker lease place node driven, world.Owns index worker lease place node ∧
      world.plans[place]? = some driven ∧
      (lock = .lease lease ∨ ∃ name, lock = driven.plan.resourceLock name) := by
  have owned := (fresh.play ran).1
  obtain ⟨place, known, planned, node, entry, found, member⟩ :=
    (fresh.accounted ran lock locked).resolve_left free
  obtain ⟨index, worker, lease, owns⟩ :=
    owned.kept place node entry ((entryAt_eq planned node).trans found) (List.ne_nil_of_mem member)
  obtain ⟨driven, other, planned', present, engages⟩ := owned.engaged _ _ _ _ _ owns
  cases Option.some.inj (planned.symm.trans planned')
  cases Option.some.inj (found.symm.trans present)
  refine ⟨index, worker, lease, place, node, known, owns, planned, ?_⟩
  rw [engages.held] at member
  rcases List.mem_cons.mp member with own | resource
  · exact Or.inl own
  · obtain ⟨name, _, same⟩ := List.mem_map.mp resource
    exact Or.inr ⟨name, same.symm⟩

/-- A locked lease that was not locked at the start is that of a worker. -/
theorem Start.lessee (fresh : start.Start) (ran : start.play moves = some world)
    (free : ¬ start.locks.isLocked (.lease lease)) (locked : world.locks.isLocked (.lease lease)) :
    ∃ index worker, world.Leases index worker lease := by
  obtain ⟨index, worker, mine, place, node, driven, owns, _, cause⟩ := fresh.engaged ran free locked
  rcases cause with same | ⟨name, same⟩
  · cases same
    exact ⟨index, worker, owns.leases⟩
  · cases same

/-- A lease that a worker had once is unlocked when no worker of its call is at work. -/
theorem Start.relinquished {earlier later : List (Bool × Move)} {middle : World}
    (fresh : start.Start) (ran : start.play moves = some world)
    (before : start.play earlier = some middle) (onward : middle.play later = some world)
    (mine : middle.Leases index worker lease) (vacant : world.Vacant index) :
    ¬ world.locks.isLocked (.lease lease) := by
  intro locked
  have unknown := (fresh.spares before).unleased index worker lease mine
  have free : ¬ start.locks.isLocked (.lease lease) := fun early => unknown (.of_locked early)
  obtain ⟨other, rival, leases⟩ := fresh.lessee ran free locked
  obtain ⟨rfl, _⟩ := (fresh.play before).1.lasting onward mine leases
  exact vacant.unleased leases

/-- Only that call works on a plan with resources of the scope, and they are free. -/
structure Reserved (world : World) (index scope : Nat) : Prop where
  alone : ∀ (other : Nat) (call : Call) (driven : Driven), world.calls[other]? = some call →
    world.plans[call.plan]? = some driven → driven.plan.scope = scope → other = index
  free : ∀ name, ¬ world.locks.isLocked (.resource scope name)

/-- A locked resource of the scope is locked for a node that a worker of the call owns. -/
theorem Reserved.owned (reserved : start.Reserved index scope) (fresh : start.Start)
    (ran : start.play moves = some world) {name : String}
    (locked : world.locks.isLocked (.resource scope name)) :
    ∃ worker lease place node, world.Owns index worker lease place node := by
  obtain ⟨other, worker, lease, place, node, driven, owns, planned, cause⟩ :=
    fresh.engaged ran (reserved.free name) locked
  rcases cause with same | ⟨title, same⟩
  · cases same
  cases same
  have holds := owns
  obtain ⟨_, ⟨call, found, rfl, _⟩, _⟩ := owns
  obtain ⟨earlier, present, _, plan, _⟩ := (fresh.play ran).2.origins other call found
  obtain ⟨known, there⟩ := fresh.planned other earlier present
  obtain ⟨later, planned', _, keeps⟩ := (fresh.play ran).2.plans _ known there
  rw [← plan] at planned'
  cases Option.some.inj (planned.symm.trans planned')
  cases reserved.alone other earlier known present there keeps.scope.symm
  exact ⟨worker, lease, _, node, holds⟩

theorem Reserved.unlocked (reserved : start.Reserved index scope) (fresh : start.Start)
    (ran : start.play moves = some world) (vacant : world.Vacant index) (name : String) :
    ¬ world.locks.isLocked (.resource scope name) := by
  intro locked
  obtain ⟨worker, lease, place, node, owns⟩ := reserved.owned fresh ran locked
  exact vacant.unleased owns.leases

/-- Once no worker with a lease of the tree is at work, as many of its leases are
locked as at the start. -/
theorem Start.recounted {root : Lease} {before : LeaseTree} (fresh : start.Start)
    (ran : start.play moves = some world) (found : start.locks.tree? root = some before)
    (vacant : ∀ other rival, world.calls[other]? = some rival →
      rival.executor.root.tree = root.tree → world.Vacant other) :
    ∃ after, world.locks.tree? root = some after ∧ after.locked = before.locked := by
  obtain ⟨owned, follows⟩ := fresh.play ran
  obtain ⟨after, present, _⟩ := follows.grows.trees _ before found
  refine ⟨after, present, LeaseTree.locked_congr (fresh.owned.sound.trees _ _ found)
    (owned.sound.trees _ _ present) ?_⟩
  intro place
  let lease : Lease := { tree := root.tree, place }
  have start_ : start.locks.isLocked (.lease lease) ↔ before.isLocked place :=
    Locks.isLocked_tree found
  have now : world.locks.isLocked (.lease lease) ↔ after.isLocked place := Locks.isLocked_tree present
  rw [← start_, ← now]
  constructor
  · intro locked
    apply Decidable.of_not_not
    intro free
    obtain ⟨other, worker, leases⟩ := fresh.lessee ran free locked
    obtain ⟨_, _, call, known, tree⟩ := owned.leased _ _ _ leases
    exact (vacant other call known tree.symm).unleased leases
  · exact (fresh.spares ran).locked lease

end World

namespace Gated

/-- Some worker of the call had the lease at some time of the run. -/
def Leased (start : Gated) (acts : List Act) (index : Nat) (lease : Lease) : Prop :=
  ∃ earlier later worker middle, acts = earlier ++ later ∧ start.play earlier = some middle ∧
    middle.world.Leases index worker lease

variable {start : World} {acts : List Act} {last : Gated} {index : Nat} {call : Call} {lease : Lease}

theorem Leased.unlocked (leased : Gated.Leased { world := start } acts index lease)
    (fresh : start.Start) (ran : Gated.play { world := start } acts = some last)
    (vacant : last.world.Vacant index) : ¬ last.world.locks.isLocked (.lease lease) := by
  obtain ⟨earlier, later, worker, middle, rfl, before, mine⟩ := leased
  have whole := play_world ran
  rw [play_append, before, Option.bind_some] at ran
  exact fresh.relinquished whole (play_world before) (play_world ran) mine vacant

/-- However a call ends, whatever its plan, its log and its actions raise, whenever
cancellation is requested and in whatever order the threads take turns: its workers
are gone, no lease that it made is locked, the resources of its plan are free, nobody
but a thread of a call that goes on is inside the gate, and with no other user of the
tree as many leases are locked as before the call. -/
theorem nothing_left_locked (fresh : start.Start)
    (ran : Gated.play { world := start } acts = some last)
    (found : last.world.calls[index]? = some call) (ended : call.Ended) :
    (∀ phase ∈ call.workers, phase.IsGone) ∧
      (∀ lease, Leased { world := start } acts index lease →
        ¬ last.world.locks.isLocked (.lease lease)) ∧
      (∀ driven, last.world.plans[call.plan]? = some driven →
        start.Reserved index driven.plan.scope →
        ∀ name, ¬ last.world.locks.isLocked (driven.plan.resourceLock name)) ∧
      (∀ move, last.inside = some move → ∃ other rival, move.call? = some other ∧
        last.world.calls[other]? = some rival ∧ ¬ rival.Ended) ∧
      ∀ before, start.locks.tree? call.executor.root = some before →
        (∀ other rival, other ≠ index → last.world.calls[other]? = some rival →
          rival.executor.root.tree = call.executor.root.tree → last.world.Vacant other) →
        ∃ after, last.world.locks.tree? call.executor.root = some after ∧
          after.locked = before.locked := by
  have played := play_world ran
  have owned := (fresh.play played).1
  have vacant := owned.vacant found ended
  have guarded : last.Guarded := Guarded.play (by intro move inside; cases inside) fresh.owned ran
  refine ⟨?_, ?_, ?_, fun move inside => guarded.insider owned inside, ?_⟩
  · obtain ⟨fault, gone⟩ := ended
    exact (owned.staffed index call found).emptied fault gone
  · exact fun lease leased => leased.unlocked fresh ran vacant
  · exact fun driven _ reserved name => reserved.unlocked fresh played vacant name
  · intro before tree others
    apply fresh.recounted played tree
    intro other rival present same
    by_cases mine : other = index
    · exact mine ▸ vacant
    · exact others other rival mine present same

private def pouring : Plan := (Plan.empty "pouring" 0 true).attach "pour" [] ["cup"]

/-- The plan raises a fault instead of completing its node, and so does the log when
the run is aborted for that. -/
private def spill : World :=
  { World.opening 1 [(pouring, fun _ => [], 1)] with
    plans := [{ plan := pouring, hooks := { complete := fun _ _ => some (.runtime "spilt") } }]
    calls :=
      [{ executor :=
          { workers := 1
            root := { tree := 0, place := 0 }
            gate := 0
            sink := some fun _ event =>
              if event.name = "plan_aborted" then some (.runtime "no log") else none }
         plan := 0
         action := some fun _ => [] }] }

private theorem spill_start : spill.Start := by
  have built : pouring.Built :=
    .add (.empty "pouring" 0 true) (show Plan.add _ "pour" [] ["cup"] = .ok pouring from rfl)
  have start : (World.opening 1 [(pouring, fun _ => [], 1)]).Start := by
    apply World.opening_start (by decide)
    intro job member
    rw [List.mem_singleton.mp member]
    exact built
  have plan {place : Nat} {driven : Driven} (found : spill.plans[place]? = some driven) :
      (World.opening 1 [(pouring, fun _ => [], 1)]).plans[place]? = some { plan := driven.plan } ∧
        driven.hooks.Throwing := by
    match place, found with
    | 0, rfl => exact ⟨rfl, fun _ => rfl, fun _ => rfl, rfl, fun _ => rfl, fun _ => rfl⟩
  have call {index : Nat} {call : Call} (found : spill.calls[index]? = some call) :
      call.Unmade ∧ call.plan = 0 ∧ call.executor.root = { tree := 0, place := 0 } := by
    match index, found with
    | 0, rfl => exact ⟨⟨rfl, rfl, rfl, rfl, rfl⟩, rfl, rfl⟩
  refine ⟨start.table, ?_, ?_, ?_, ?_, ?_, ?_, rfl⟩
  · exact fun place driven found => start.reached place { plan := driven.plan } (plan found).1
  · exact fun place driven found => start.idle place { plan := driven.plan } (plan found).1
  · exact fun place driven found => (plan found).2
  · exact fun index value found => (call found).1
  · intro index value found
    rw [(call found).2.1]
    exact ⟨_, rfl⟩
  · intro index value found
    rw [(call found).2.2]
    exact ⟨_, by rw [Locks.tree?, spill, World.opening_tree (by decide)]; rfl⟩

private def toil : List Act :=
  let caller (count : Nat) : List Act := List.replicate count (.go false (.caller 0))
  let worker (count : Nat) : List Act := List.replicate count (.go false (.worker 0 0))
  caller 2 ++ [.enter (.caller 0)] ++ caller 2 ++ worker 1 ++ [.enter (.worker 0 0)] ++ worker 3 ++
    [.enter (.worker 0 0)] ++ worker 1 ++ [.enter (.worker 0 0)] ++ worker 1 ++
    [.enter (.caller 0)] ++ caller 2

theorem spill_leaves_nothing : ∃ last, Gated.play { world := spill } toil = some last ∧
    last.world.fault? 0 = some (.runtime "no log") ∧
    Leased { world := spill } toil 0 { tree := 0, place := 1 } ∧
    ¬ last.world.locks.isLocked (.lease { tree := 0, place := 1 }) ∧
    ¬ last.world.locks.isLocked (.resource 0 "cup") ∧ last.inside = none ∧
    ∃ tree, last.world.locks.tree? { tree := 0, place := 0 } = some tree ∧ tree.locked = 0 := by
  have runs : (Gated.play { world := spill } toil).map
      (fun last => (last.inside, last.world.fault? 0)) = some (none, some (.runtime "no log")) := by
    decide +kernel
  have hires : ((Gated.play { world := spill } (toil.take 6)).bind
      fun middle => (middle.world.phase? 0 0).bind (·.lease?)) = some { tree := 0, place := 1 } := by
    decide +kernel
  obtain ⟨last, ran, shown⟩ := Option.map_eq_some_iff.mp runs
  obtain ⟨outside, raised⟩ := Prod.mk.inj shown
  obtain ⟨call, found, gone⟩ := Option.bind_eq_some_iff.mp raised
  have ended : call.Ended := by
    cases stage : call.stage with
    | gone fault => exact ⟨fault, stage⟩
    | arriving | launching | queueing | reporting | awaiting | aborting | joining =>
      rw [stage] at gone
      cases gone
  obtain ⟨middle, before, has⟩ := Option.bind_eq_some_iff.mp hires
  obtain ⟨phase, there, has⟩ := Option.bind_eq_some_iff.mp has
  obtain ⟨active, present, there⟩ := Option.bind_eq_some_iff.mp there
  have leased : Leased { world := spill } toil 0 { tree := 0, place := 1 } :=
    ⟨toil.take 6, toil.drop 6, 0, middle, (List.take_append_drop 6 toil).symm, before, active.plan,
      phase, ⟨active, present, rfl, there⟩, has⟩
  obtain ⟨_, leases, resources, _, counted⟩ := nothing_left_locked spill_start ran found ended
  obtain ⟨_, follows⟩ := spill_start.play (play_world ran)
  obtain ⟨earlier, known, executor, place, _⟩ := follows.origins 0 call found
  cases known
  obtain ⟨driven, planned, _, keeps⟩ := follows.plans 0 _ rfl
  have only {other : Nat} {rival : Call} (found : spill.calls[other]? = some rival) : other = 0 := by
    match other, found with
    | 0, _ => rfl
  have reserved : spill.Reserved 0 0 :=
    ⟨fun other rival _ found _ _ => only found,
      fun name => World.opening_unlocked (by decide) [(pouring, fun _ => [], 1)] (.resource 0 name)⟩
  refine ⟨last, ran, raised, leased, leases _ leased, ?_, outside, ?_⟩
  · have scope : driven.plan.scope = 0 := keeps.scope
    have free := resources driven (by rw [place]; exact planned) (scope ▸ reserved) "cup"
    rwa [Plan.resourceLock, scope] at free
  · rw [executor] at counted
    apply counted { name := "leases", budget := 1 }
    · exact congrArg (·[0]?) (World.opening_tree (by decide) [(pouring, fun _ => [], 1)])
    · intro other rival apart present
      obtain ⟨first, present, _⟩ := follows.origins other rival present
      exact absurd (only present) apart

end Gated
end Foreman.Executor
