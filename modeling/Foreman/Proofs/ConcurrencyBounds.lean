import Foreman.Proofs.OwnershipTurns

/-! How much runs at once. All actions that run have leases of their own in the
shared tree, so its budget bounds them, and actions of one plan that run at the
same time belong to nodes without a common resource. -/

namespace Foreman.Executor

/-- An action that runs: its call and worker, its node and the worker's lease. -/
structure Running where
  call : Nat
  worker : Nat
  place : Nat
  node : Nat
  lease : Lease
  deriving DecidableEq

namespace World

variable {world start : World} {moves : List (Bool × Move)} {index worker : Nat} {action : Running}

def running? (world : World) (index worker : Nat) : Option Running :=
  world.calls[index]?.bind fun call =>
    match call.workers[worker]? with
    | some (.acting lease node _ _) => some { call := index, worker, place := call.plan, node, lease }
    | _ => none

def crew (world : World) (index : Nat) : Nat :=
  (world.calls[index]?.map (·.workers.length)).getD 0

def running (world : World) : List Running :=
  (List.range world.calls.length).flatMap fun index =>
    (List.range (world.crew index)).filterMap (world.running? index)

theorem running?_some (ran : world.running? index worker = some action) :
    action.call = index ∧ action.worker = worker ∧ ∃ rest request,
      world.At index worker action.place (.acting action.lease action.node rest request) := by
  obtain ⟨call, found, shown⟩ := Option.bind_eq_some_iff.mp ran
  split at shown
  next lease node rest request there =>
    cases shown
    exact ⟨rfl, rfl, rest, request, call, found, rfl, there⟩
  · cases shown

theorem mem_running (member : action ∈ world.running) :
    world.running? action.call action.worker = some action ∧ action.worker < world.crew action.call := by
  obtain ⟨index, _, member⟩ := List.mem_flatMap.mp member
  obtain ⟨worker, inside, ran⟩ := List.mem_filterMap.mp member
  obtain ⟨rfl, rfl, _⟩ := running?_some ran
  exact ⟨ran, List.mem_range.mp inside⟩

theorem running_owns (member : action ∈ world.running) :
    world.Owns action.call action.worker action.lease action.place action.node := by
  obtain ⟨_, _, rest, request, there⟩ := running?_some (mem_running member).1
  exact ⟨_, there, rfl, rfl⟩

theorem running_pairwise (world : World) :
    world.running.Pairwise fun action other =>
      action.call ≠ other.call ∨ action.worker ≠ other.worker := by
  rw [running, List.pairwise_flatMap]
  constructor
  · intro index _
    rw [List.pairwise_filterMap]
    apply List.pairwise_lt_range.imp
    intro first second before action ran other ran'
    obtain ⟨_, rfl, _⟩ := running?_some ran
    obtain ⟨_, rfl, _⟩ := running?_some ran'
    exact Or.inr (Nat.ne_of_lt before)
  · apply List.pairwise_lt_range.imp
    intro first second before action member other member'
    obtain ⟨_, _, ran⟩ := List.mem_filterMap.mp member
    obtain ⟨_, _, ran'⟩ := List.mem_filterMap.mp member'
    obtain ⟨rfl, _⟩ := running?_some ran
    obtain ⟨rfl, _⟩ := running?_some ran'
    exact Or.inl (Nat.ne_of_lt before)

theorem Owned.leases_distinct (owned : world.Owned) : (world.running.map (·.lease)).Nodup := by
  rw [List.Nodup, List.pairwise_map]
  apply (running_pairwise world).imp_of_mem
  intro action other member member' apart same
  obtain ⟨call, worker⟩ := owned.apart _ _ _ _ _ (running_owns member).leases
    (same ▸ (running_owns member').leases)
  exact apart.elim (absurd call.symm) (absurd worker.symm)

/-- The node of a running action keeps the lease of its worker, locked. -/
theorem Owned.running_held (owned : world.Owned) (member : action ∈ world.running) :
    ∃ entry, world.entryAt action.place action.node = some entry ∧ entry.node.state = .executing ∧
      .lease action.lease ∈ entry.node.held ∧ ∀ lock ∈ entry.node.held, world.locks.isLocked lock := by
  obtain ⟨driven, entry, planned, present, engages⟩ :=
    owned.engaged _ _ _ _ _ (running_owns member)
  have found := (entryAt_eq planned action.node).trans present
  refine ⟨entry, found, engages.executing, ?_, owned.locked _ _ entry found⟩
  rw [engages.held]
  exact List.mem_cons_self

/-- As many actions run as there are locked leases for them. -/
theorem Owned.running_le (owned : world.Owned) {tree : Nat} {leases : LeaseTree}
    (found : world.locks.trees[tree]? = some leases)
    (within : ∀ action ∈ world.running, action.lease.tree = tree) :
    world.running.length ≤ leases.budget := by
  have sound := owned.sound.trees tree leases found
  have distinct : (world.running.map (·.lease.place)).Nodup := by
    have apart := owned.leases_distinct
    rw [List.Nodup, List.pairwise_map] at apart ⊢
    refine apart.imp_of_mem fun {action other} member member' different same => ?_
    have trees := (within action member).trans (within other member').symm
    cases left : action.lease with
    | mk one place =>
      cases right : other.lease with
      | mk two position =>
        rw [left, right] at different trees same
        cases trees
        cases same
        exact different rfl
  have locked : ∀ place ∈ world.running.map (·.lease.place), leases.isLocked place := by
    intro place member
    obtain ⟨action, running, rfl⟩ := List.mem_map.mp member
    obtain ⟨entry, _, _, held, locked⟩ := owned.running_held running
    have tree? : world.locks.tree? action.lease = some leases := by
      rw [Locks.tree?, within action running, found]
    exact (Locks.isLocked_tree tree?).mp (locked _ held)
  have counted := LeaseTree.length_le_locked sound distinct locked
  rw [List.length_map] at counted
  exact Nat.le_trans counted sound.within

theorem Owned.running_of_call (owned : world.Owned) {call : Call}
    (found : world.calls[index]? = some call) :
    (world.running.filter (·.call = index)).length ≤ call.executor.workers := by
  have distinct : ((world.running.filter (·.call = index)).map (·.worker)).Nodup := by
    rw [List.Nodup, List.pairwise_map]
    apply ((running_pairwise world).filter _).imp_of_mem
    intro action other member member' apart same
    have here := (List.mem_filter.mp member).2
    have there := (List.mem_filter.mp member').2
    simp only [decide_eq_true_eq] at here there
    exact apart.elim (absurd (here.trans there.symm)) (absurd same)
  have inside : ∀ worker ∈ (world.running.filter (·.call = index)).map (·.worker),
      worker ∈ List.range call.workers.length := by
    intro worker member
    obtain ⟨action, running, rfl⟩ := List.mem_map.mp member
    obtain ⟨running, here⟩ := List.mem_filter.mp running
    have place := (mem_running running).2
    simp only [decide_eq_true_eq] at here
    rw [here, crew, found] at place
    exact List.mem_range.mpr place
  have counted := distinct.length_le_of_subset inside
  rw [List.length_map, List.length_range] at counted
  rcases (owned.staffed index call found).crew with none | crew
  · rw [none] at counted
    exact Nat.le_trans counted (Nat.zero_le _)
  · exact crew ▸ counted

/-- Two running actions of a plan need different resources. -/
theorem Owned.running_resources (owned : world.Owned) {other : Running} {entry rival : Entry}
    (member : action ∈ world.running) (member' : other ∈ world.running) (different : action ≠ other)
    (same : action.place = other.place) (found : world.entryAt action.place action.node = some entry)
    (found' : world.entryAt other.place other.node = some rival) :
    ∀ name ∈ entry.node.resources, name ∉ rival.node.resources := by
  intro name needed shared
  obtain ⟨driven, entry', planned, present, engages⟩ :=
    owned.engaged _ _ _ _ _ (running_owns member)
  obtain ⟨driven', rival', planned', present', engages'⟩ :=
    owned.engaged _ _ _ _ _ (running_owns member')
  cases Option.some.inj (((entryAt_eq planned _).trans present).symm.trans found)
  cases Option.some.inj (((entryAt_eq planned' _).trans present').symm.trans found')
  have plans : driven' = driven := Option.some.inj (planned'.symm.trans (same ▸ planned))
  have held : driven.plan.resourceLock name ∈ entry.node.held := by
    rw [engages.held]
    exact List.mem_cons_of_mem _ (List.mem_map_of_mem needed)
  have held' : driven.plan.resourceLock name ∈ rival.node.held := by
    rw [engages'.held, plans]
    exact List.mem_cons_of_mem _ (List.mem_map_of_mem shared)
  obtain ⟨_, nodes⟩ := owned.disjoint _ _ _ _ _ _ found found' _ held held'
  have owns := running_owns member'
  rw [← same, nodes] at owns
  obtain ⟨call, worker⟩ := owned.sole (running_owns member) owns
  have ran := (mem_running member).1
  have ran' := (mem_running member').1
  rw [call, worker] at ran'
  exact different (Option.some.inj (ran.symm.trans ran'))

/-- However the threads of any calls on one tree of leases take turns, whatever their
actions, their logs and requests for cancellation do: no more actions run than the
budget allows, and in one call no more than it has workers; each of them has a lease
of its own locked; and no two of one plan need a common resource. -/
theorem concurrency_within_bounds {tree : Nat} (fresh : start.Start)
    (shared : ∀ (index : Nat) (call : Call), start.calls[index]? = some call →
      call.executor.root.tree = tree)
    (ran : start.play moves = some world) :
    (∀ leases, start.locks.trees[tree]? = some leases → world.running.length ≤ leases.budget) ∧
      (∀ index call, start.calls[index]? = some call →
        (world.running.filter (·.call = index)).length ≤ call.executor.workers) ∧
      (∀ action ∈ world.running, action.lease.tree = tree ∧ action.lease.place ≠ 0 ∧
        world.locks.isLocked (.lease action.lease) ∧
        ∃ entry, world.entryAt action.place action.node = some entry ∧
          entry.node.state = .executing ∧ .lease action.lease ∈ entry.node.held) ∧
      (world.running.map (·.lease)).Nodup ∧
      ∀ action ∈ world.running, ∀ other ∈ world.running, action ≠ other →
        action.place = other.place → ∀ entry rival,
        world.entryAt action.place action.node = some entry →
        world.entryAt other.place other.node = some rival →
        ∀ name ∈ entry.node.resources, name ∉ rival.node.resources := by
  obtain ⟨owned, follows⟩ := fresh.play ran
  have leased (action : Running) (member : action ∈ world.running) :
      action.lease.tree = tree ∧ action.lease.place ≠ 0 := by
    obtain ⟨_, child, call, found, same⟩ := owned.leased _ _ _ (running_owns member).leases
    obtain ⟨earlier, present, executor, _⟩ := follows.origins _ call found
    exact ⟨same.trans (executor ▸ shared _ earlier present), child⟩
  refine ⟨?_, ?_, ?_, owned.leases_distinct, ?_⟩
  · intro leases found
    obtain ⟨later, present, budget, _⟩ := follows.grows.trees tree leases found
    rw [← budget]
    exact owned.running_le present fun action member => (leased action member).1
  · intro index call found
    obtain ⟨later, present, executor, _⟩ := follows.calls index call found
    rw [← executor]
    exact owned.running_of_call present
  · intro action member
    obtain ⟨entry, found, executing, held, locked⟩ := owned.running_held member
    exact ⟨(leased action member).1, (leased action member).2, locked _ held, entry, found,
      executing, held⟩
  · intro action member other member' different same entry rival found found'
    exact owned.running_resources member member' different same found found'

private def copying : Plan :=
  ((Plan.empty "copying" 0 true).attach "a" [] ["disk"]).attach "b" [] ["disk"]

private def noting : Plan := (Plan.empty "noting" 1 true).attach "c" [] []

private theorem copying_built : copying.Built := by
  have first : (Plan.empty "copying" 0 true).add "a" [] ["disk"] =
      .ok ((Plan.empty "copying" 0 true).attach "a" [] ["disk"]) := rfl
  have second : ((Plan.empty "copying" 0 true).attach "a" [] ["disk"]).add "b" [] ["disk"] =
      .ok copying := rfl
  exact .add (.add (.empty "copying" 0 true) first) second

private theorem noting_built : noting.Built :=
  .add (.empty "noting" 1 true) (show Plan.add _ "c" [] [] = .ok noting from rfl)

private def jobs : List (Plan × Action × Nat) :=
  [(copying, fun _ => [], 2), (noting, fun _ => [], 1)]

/-- Every thread makes steps until it acts or has to wait. -/
private def turns : List (Bool × Move) :=
  ([.caller 0, .caller 0, .caller 0, .caller 1, .caller 1, .caller 1, .worker 0 0, .worker 0 0,
    .worker 0 0, .worker 0 1, .worker 0 1, .worker 1 0, .worker 1 0, .worker 1 0] : List Move).map
    (false, ·)

/-- Of three workers two act, since the third would need the same disk. -/
theorem concurrency_of_two_calls : ∃ world, (opening 2 jobs).play turns = some world ∧
    world.running.length = 2 ∧ world.running.length ≤ 2 ∧
    (world.running.filter (·.call = 0)).length ≤ 2 ∧ (world.running.map (·.lease)).Nodup := by
  have start : (opening 2 jobs).Start := by
    apply opening_start (by decide)
    intro job member
    rcases List.mem_cons.mp member with rfl | member
    · exact copying_built
    · rw [List.mem_singleton.mp member]
      exact noting_built
  have shared (index : Nat) (call : Call) (found : (opening 2 jobs).calls[index]? = some call) :
      call.executor.root.tree = 0 := by
    obtain ⟨job, _, rfl⟩ := opening_call found
    rfl
  have runs : ((opening 2 jobs).play turns).map (·.running.length) = some 2 := by decide +kernel
  obtain ⟨world, ran, two⟩ := Option.map_eq_some_iff.mp runs
  have bounds := concurrency_within_bounds start shared ran
  exact ⟨world, ran, two, bounds.1 _ (by rw [opening_tree (by decide)]; rfl),
    bounds.2.1 0 _ rfl, bounds.2.2.2.1⟩

end World
end Foreman.Executor
