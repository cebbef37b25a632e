import Foreman.Proofs.LockAccounts

/-! What a parked thread waits for, and that it hears of it. A step that changes
something of that kind moves the generation of the gate on, so while the generation
stays, a parked thread has nothing to find. -/

namespace Foreman.Executor

variable {index worker : Nat} {before polled later : Corner} {phase next : Phase} {stage : Stage}
  {events : List Happening}

namespace Corner

/-- Nothing came to be that a parked thread waits for. -/
structure Hushes (before later : Corner) : Prop where
  failed : later.call.workerFailed = before.call.workerFailed
  remaining : later.plan.remaining = before.plan.remaining
  queue : before.plan.queue = [] → later.plan.queue = []
  locked : ∀ lock, before.locks.isLocked lock → later.locks.isLocked lock

theorem Hushes.refl (corner : Corner) : corner.Hushes corner := ⟨rfl, rfl, id, fun _ => id⟩

/-- Failed runs and stopped plans remain so, and what is not hushed is signalled. -/
structure Onward (before later : Corner) : Prop where
  failed : before.call.workerFailed = true → later.call.workerFailed = true
  stopped : before.plan.Stopped → later.plan.Stopped
  silent : later.generation = before.generation → before.Hushes later

theorem Onward.refl (corner : Corner) : corner.Onward corner := ⟨id, id, fun _ => .refl corner⟩

/-- A step that signals has nothing to hush. -/
theorem Onward.signals (failed : before.call.workerFailed = true → later.call.workerFailed = true)
    (stopped : before.plan.Stopped → later.plan.Stopped)
    (signals : later.generation = before.generation + 1) : before.Onward later :=
  ⟨failed, stopped, fun same => absurd (signals.symm.trans same) (Nat.succ_ne_self _)⟩

theorem Polls.onward (polls : before.Polls polled) : before.Onward polled := by
  have drifts := polls.drifts
  cases polls with
  | unseen => exact .refl before
  | seen canceled =>
    refine ⟨id, fun stopped => stopped.drift drifts, fun same => ?_⟩
    have unchanged : before.plan.cancel.1 = false := by
      cases changed : before.plan.cancel.1 with
      | false => rfl
      | true =>
        simp only [changed, if_true] at same
        exact absurd same (Nat.succ_ne_self _)
    obtain ⟨queue, remaining⟩ := Plan.cancel_unchanged unchanged
    exact ⟨rfl, remaining, fun _ => queue, fun _ => id⟩

end Corner

theorem WorkerDeed.onward (deed : WorkerDeed index worker before phase events later)
    (valid : before.plan.Valid) (rooted : ∃ tree, before.locks.tree? before.call.executor.root = some tree)
    (busy : ∀ node, phase.node? = some node → before.plan.state? node = some .executing) :
    before.Onward later := by
  have unchanged := Corner.Onward.refl before
  cases deed with
  | settle =>
    obtain ⟨tree, root⟩ := rooted
    exact ⟨id, id, fun _ => ⟨rfl, rfl, id, fun lock =>
      (Locks.isLocked_createChild root lock).mpr⟩⟩
  | halt polls =>
    have onward := polls.onward
    exact ⟨onward.failed, onward.stopped, fun same => { onward.silent same with }⟩
  | breakdown polls => exact .signals id (fun _ => Plan.abort_stopped _ _) rfl
  | select polls unfailed table selects =>
    have onward := polls.onward
    refine ⟨onward.failed, fun stopped => ?_, fun same => ?_⟩
    · have settled := onward.stopped stopped _ _ selects.found
      simp [selects.ready, State.isUnscheduled] at settled
    · have hushes := onward.silent same
      refine ⟨hushes.failed, hushes.remaining, fun empty => ?_, fun lock locked => ?_⟩
      · simp [Corner.withPhase, Plan.hand, hushes.queue empty]
      · exact (selects.locked lock).mpr (Or.inr (Or.inr (table ▸ locked)))
  | park polls unfailed remaining starved alike steady =>
    have onward := polls.onward
    exact ⟨onward.failed, onward.stopped, fun same =>
      { onward.silent same with locked := fun lock => (alike lock).mpr }⟩
  | start | drop | retire | stumble =>
    exact ⟨id, id, fun _ => { Corner.Hushes.refl before with }⟩
  | request => exact ⟨id, id, fun _ => { Corner.Hushes.refl before with }⟩
  | refuse | instruct | finish =>
    refine ⟨id, fun stopped => stopped.failAll _ _, fun _ => ⟨rfl, ?_, fun empty => ?_, fun _ => id⟩⟩
    · exact (Plan.failAll_counts _ _ _).2.1
    · exact (Plan.failAll_counts _ _ _).1.trans empty
  | @complete lease node =>
    obtain ⟨entry, found, executing⟩ := Plan.entry_of_state? (busy node rfl)
    have ends := (Plan.complete_executing valid found executing before.locks).2
    exact .signals id (fun stopped => stopped.ends ends) rfl
  | fail => exact .signals (fun _ => rfl) (fun _ => Plan.abort_stopped _ _) rfl

theorem CallerDeed.onward (deed : CallerDeed before stage later) (valid : before.plan.Valid) :
    before.Onward later := by
  cases deed with
  | register | launch | giveUp | report | wait | depart =>
    exact ⟨id, id, fun _ => { Corner.Hushes.refl before with }⟩
  | queue polls =>
    exact .signals id (fun stopped => stopped.drift
      (polls.drifts.trans (polls.valid valid).populate.2.1)) rfl
  | collapse polls => exact .signals id (fun _ => Plan.abort_stopped _ _) rfl
  | collect =>
    have counts : before.plan.collect.2.remaining = before.plan.remaining ∧
        before.plan.collect.2.queue = before.plan.queue := by
      simp only [Plan.collect]
      split <;> exact ⟨rfl, rfl⟩
    exact ⟨id, fun stopped => stopped.drift (Plan.collect_drifts _), fun _ =>
      ⟨rfl, counts.1, counts.2.trans, fun _ => id⟩⟩
  | abort => exact .signals id (fun _ => Plan.abort_stopped _ _) rfl

/-! What holds of a call at any time. -/

def Corner.Contended (corner : Corner) : Prop :=
  (∃ lease : Lease, lease.tree = corner.call.executor.root.tree ∧
    corner.locks.isLocked (.lease lease)) ∨
  ∃ name, corner.locks.isLocked (corner.plan.resourceLock name)

/-- Since the generation that a thread has seen, the run is not over. -/
structure Corner.Pending (corner : Corner) (seen : Nat) : Prop where
  known : seen ≤ corner.generation
  unfailed : seen = corner.generation → corner.call.workerFailed = false
  remaining : seen = corner.generation → corner.plan.remaining ≠ 0

def Corner.Fits (corner : Corner) : Phase → Prop
  | .choosing _ (some seen) =>
    corner.Pending seen ∧ (seen = corner.generation → corner.plan.queue = [] ∨ corner.Contended)
  | .acting _ _ rest _ => ∃ action id, corner.call.action = some action ∧ rest ⊆ action id
  | .retiring _ | .gone _ => corner.call.workerFailed = true ∨ corner.plan.Stopped
  | .hired | .choosing _ none | .chosen .. | .completing .. | .failing .. => True

def Corner.Manned (corner : Corner) : Prop :=
  corner.call.workers.length = corner.call.executor.workers

def Corner.Looked (corner : Corner) : Prop :=
  ∀ (position : Nat) (entry : Entry), corner.plan.entries[position]? = some entry →
    entry.enumerated = true

def Corner.Suits (corner : Corner) : Stage → Prop
  | .queueing parked => corner.Manned ∧ parked = none
  | .reporting | .awaiting none => corner.Manned ∧ corner.Looked
  | .awaiting (some seen) => corner.Manned ∧ corner.Looked ∧ corner.Pending seen
  | .joining _ => corner.Looked
  | .arriving | .launching | .aborting _ | .gone _ => True

/-- Only a failed run leaves a node behind in the middle of its execution. -/
def Corner.Minded (corner : Corner) : Prop :=
  ∀ (position : Nat) (entry : Entry), corner.plan.entries[position]? = some entry →
    entry.node.state = .executing → entry.node.held = [] → corner.call.workerFailed = true

structure Corner.Alert (corner : Corner) : Prop where
  stage : corner.Suits corner.call.stage
  crew : ∀ phase ∈ corner.call.workers, corner.Fits phase
  /-- No node needs a resource twice. -/
  single : ∀ (position : Nat) (entry : Entry), corner.plan.entries[position]? = some entry →
    entry.node.resources.Nodup
  minded : corner.Minded

section
variable (kept : before.Kept later) (onward : before.Onward later)
include kept onward

private theorem Corner.Pending.lasts {seen : Nat} (pending : before.Pending seen) :
    later.Pending seen := by
  have settled (same : seen = later.generation) :
      seen = before.generation ∧ later.generation = before.generation := by
    have seen := pending.known
    have further := kept.generation
    omega
  refine ⟨Nat.le_trans pending.known kept.generation, fun same => ?_, fun same => ?_⟩
  · rw [(onward.silent (settled same).2).failed]
    exact pending.unfailed (settled same).1
  · rw [(onward.silent (settled same).2).remaining]
    exact pending.remaining (settled same).1

theorem Corner.Fits.lasts (fits : before.Fits phase) : later.Fits phase := by
  have ended : before.call.workerFailed = true ∨ before.plan.Stopped →
      later.call.workerFailed = true ∨ later.plan.Stopped := Or.imp onward.failed onward.stopped
  cases phase with
  | hired | chosen | completing | failing => trivial
  | acting lease node rest request =>
    obtain ⟨action, id, given, within⟩ := fits
    exact ⟨action, id, kept.action.trans given, within⟩
  | retiring | gone => exact ended fits
  | choosing lease parked =>
    cases parked with
    | none => trivial
    | some seen =>
      obtain ⟨pending, starved⟩ := fits
      refine ⟨pending.lasts kept onward, fun same => ?_⟩
      have further := kept.generation
      have early := pending.known
      have silent := onward.silent (by omega)
      apply (starved (by omega)).imp silent.queue
      intro contended
      rcases contended with ⟨lease, tree, locked⟩ | ⟨name, locked⟩
      · exact Or.inl ⟨lease, kept.executor ▸ tree, silent.locked _ locked⟩
      · exact Or.inr ⟨name, kept.keeps.resourceLock ▸ silent.locked _ locked⟩

omit onward in
theorem Corner.Looked.lasts (looked : before.Looked) : later.Looked := by
  intro position entry found
  obtain ⟨earlier, present, links⟩ := kept.keeps.back found
  exact links.enumerated (looked position earlier present)

theorem Corner.Suits.lasts (suits : before.Suits stage)
    (crew : later.call.workers.length = before.call.workers.length) : later.Suits stage := by
  have manned (manned : before.Manned) : later.Manned :=
    crew.trans (manned.trans (congrArg (·.workers) kept.executor.symm))
  have looked (looked : before.Looked) : later.Looked := looked.lasts kept
  cases stage with
  | arriving | launching | aborting | gone => trivial
  | queueing parked => exact ⟨manned suits.1, suits.2⟩
  | reporting => exact ⟨manned suits.1, looked suits.2⟩
  | joining => exact looked suits
  | awaiting parked =>
    cases parked with
    | none => exact ⟨manned suits.1, looked suits.2⟩
    | some seen => exact ⟨manned suits.1, looked suits.2.1, suits.2.2.lasts kept onward⟩

end

private theorem minded_handles {node : Option Nat} (minded : before.Minded)
    (handles : before.plan.Handles node later.plan)
    (failed : before.call.workerFailed = true → later.call.workerFailed = true)
    (own : ∀ position entry, node = some position → later.plan.entries[position]? = some entry →
      entry.node.state = .executing → entry.node.held ≠ []) : later.Minded := by
  intro position entry found executing free
  by_cases mine : node = some position
  · exact absurd free (own position entry mine found executing)
  · obtain ⟨earlier, present, _⟩ := handles.keeps.back found
    obtain ⟨held, busy⟩ := handles.others position earlier entry mine present found
    exact failed (minded position earlier present (busy.mp executing) (held ▸ free))

private theorem minded_calm (minded : before.Minded) (calm : before.plan.Calm later.plan)
    (failed : before.call.workerFailed = true → later.call.workerFailed = true) : later.Minded :=
  minded_handles minded (calm.handles (Plan.disown_handles _ none)) failed
    fun _ _ none => by cases none

/-- A worker that gets no node finds the queue empty, or something that it needs taken. -/
private theorem starved_contended (before : Corner) {lease : Lease} (valid : before.plan.Valid)
    (single : ∀ (position : Nat) (entry : Entry), before.plan.entries[position]? = some entry →
      entry.node.resources.Nodup)
    (sound : before.locks.Sound) (has : before.locks.Has lease)
    (tree : lease.tree = before.call.executor.root.tree)
    (starved : before.plan.Starved lease before.locks) :
    before.plan.queue = [] ∨ before.Contended := by
  rcases starved with empty | refused | blocked
  · exact Or.inl empty
  · obtain ⟨rival, same, locked⟩ := has.rival sound refused
    exact Or.inr (Or.inl ⟨rival, same.trans tree, locked⟩)
  · cases queue : before.plan.queue with
    | nil => exact Or.inl rfl
    | cons first rest =>
      have member : first ∈ before.plan.queue := queue ▸ List.mem_cons_self
      obtain ⟨entry, found, _⟩ := Plan.entry_of_state? ((valid.coherent.queued first).mp member)
      have wanted := Plan.wanted_eq found
      rcases blocked first member with twice | ⟨lock, needed, locked⟩
      · refine absurd ?_ twice
        rw [wanted, List.Nodup, List.pairwise_map]
        refine (single first entry found).imp fun apart same => apart ?_
        simpa [Plan.resourceLock] using same
      · rw [wanted] at needed
        obtain ⟨name, _, rfl⟩ := List.mem_map.mp needed
        exact Or.inr (Or.inr ⟨name, locked⟩)

theorem WorkerDeed.alert (deed : WorkerDeed index worker before phase events later)
    (there : before.call.workers[worker]? = some phase) (alert : before.Alert)
    (valid : before.plan.Valid) (sound : before.locks.Sound)
    (rooted : ∃ tree, before.locks.tree? before.call.executor.root = some tree)
    (leased : ∀ lease, phase.lease? = some lease → before.locks.Has lease ∧
      lease.tree = before.call.executor.root.tree)
    (busy : ∀ node, phase.node? = some node → before.plan.state? node = some .executing) :
    later.Alert := by
  have kept := deed.kept valid
  have onward := deed.onward valid rooted busy
  have here := alert.crew phase (List.mem_of_getElem? there)
  have goes {next : Phase} (workers : later.call.workers = before.call.workers.set worker next)
      (stage : later.call.stage = before.call.stage) (minded : later.Minded)
      (fits : later.Fits next) : later.Alert := by
    refine ⟨?_, ?_, ?_, minded⟩
    · rw [stage]
      exact alert.stage.lasts kept onward (by rw [workers, List.length_set])
    · intro other member
      rw [workers] at member
      rcases List.mem_or_eq_of_mem_set member with old | rfl
      · exact (alert.crew other old).lasts kept onward
      · exact fits
    · intro position entry found
      obtain ⟨earlier, present, links⟩ := kept.keeps.back found
      exact links.resources ▸ alert.single position earlier present
  have calm (calm : before.plan.Calm later.plan) : later.Minded :=
    minded_calm alert.minded calm onward.failed
  cases deed with
  | settle => exact goes rfl rfl (calm (.refl _)) trivial
  | halt polls reason =>
    have finished := reason.imp id fun none => ((polls.valid valid).coherent.finished none).stopped
    have drifts := polls.drifts
    cases polls <;> exact goes rfl rfl (calm drifts.calm) finished
  | breakdown polls hooked next =>
    have calm := calm (polls.drifts.trans (Plan.abort_drifts _ _)).calm
    rcases next with rfl | ⟨_, fault, rfl⟩
    · exact goes rfl rfl calm (Or.inr (Plan.abort_stopped _ _))
    · exact goes rfl rfl calm trivial
  | @select lease parked polled node entry pass final polls unfailed table selects =>
    have handed := (Plan.Replaces.hand (polls.valid valid).coherent lease selects.found
      selects.ready).lookup node
    rw [if_pos rfl] at handed
    have minded := minded_handles alert.minded (polls.drifts.calm.handles
      (show polled.plan.Handles (some node) (polled.plan.hand lease node entry) from
        Plan.hand_handles (polls.valid valid) selects.found selects.ready))
      onward.failed fun position other mine found _ => by
        cases mine
        cases Option.some.inj (handed.symm.trans found)
        exact List.cons_ne_nil _ _
    cases polls <;> exact goes rfl rfl minded trivial
  | @park lease parked polled locks polls unfailed remaining starved alike steady =>
    obtain ⟨has, tree⟩ := leased lease rfl
    have contended := starved_contended { polled with locks := before.locks }
      (polls.valid valid) (fun position entry found => by
        obtain ⟨earlier, present, links⟩ := polls.drifts.keeps.back found
        exact links.resources ▸ alert.single position earlier present)
      sound has (by cases polls <;> exact tree) starved
    have fits : (({ polled with locks } : Corner).withPhase worker
        (.choosing lease (some polled.generation))).Fits (.choosing lease (some polled.generation)) := by
      refine ⟨⟨Nat.le_refl _, fun _ => ?_, fun _ => remaining⟩, fun _ => contended.imp id ?_⟩
      · cases polls <;> exact unfailed
      · intro contended
        rcases contended with ⟨lease, tree, locked⟩ | ⟨name, locked⟩
        · exact Or.inl ⟨lease, tree, (alike _).mpr locked⟩
        · exact Or.inr ⟨name, (alike _).mpr locked⟩
    have drifts := polls.drifts
    cases polls <;> exact goes rfl rfl (calm drifts.calm) fits
  | @start lease node entry action found given =>
    exact goes rfl rfl (calm (.refl _)) ⟨action, _, given, fun _ => id⟩
  | request => exact goes rfl rfl (calm (.refl _)) here
  | instruct =>
    obtain ⟨action, id, given, within⟩ := here
    exact goes rfl rfl (calm (Plan.failAll_calm _ _ _))
      ⟨action, id, given, fun _ member => within (List.mem_cons_of_mem _ member)⟩
  | refuse | finish => exact goes rfl rfl (calm (Plan.failAll_calm _ _ _)) trivial
  | @complete lease node =>
    obtain ⟨entry, found, executing⟩ := Plan.entry_of_state? (busy node rfl)
    have ends := (Plan.complete_executing valid found executing before.locks).2
    refine goes rfl rfl (minded_handles alert.minded ends.handles onward.failed ?_) trivial
    intro position other mine found' executing'
    cases mine
    obtain ⟨closed, present, _, _, state⟩ := ends.own
    cases Option.some.inj (present.symm.trans found')
    rw [state] at executing'
    split at executing' <;> cases executing'
  | drop | stumble => exact goes rfl rfl (calm (.refl _)) trivial
  | retire => exact goes rfl rfl (calm (.refl _)) here
  | fail => exact goes rfl rfl (fun _ _ _ _ _ => rfl) (Or.inl rfl)

theorem CallerDeed.alert (deed : CallerDeed before before.call.stage later) (alert : before.Alert)
    (valid : before.plan.Valid) : later.Alert := by
  have kept := deed.kept valid
  have onward := deed.onward valid
  have suits := alert.stage
  have goes (workers : later.call.workers = before.call.workers)
      (calm : before.plan.Calm later.plan) (suits : later.Suits later.call.stage) : later.Alert := by
    refine ⟨suits, ?_, ?_, minded_calm alert.minded calm onward.failed⟩
    · intro phase member
      exact (alert.crew phase (workers ▸ member)).lasts kept onward
    · intro position entry found
      obtain ⟨earlier, present, links⟩ := kept.keeps.back found
      exact links.resources ▸ alert.single position earlier present
  generalize here : before.call.stage = stage at deed suits
  cases deed with
  | register | giveUp => exact goes rfl (.refl _) trivial
  | depart => exact goes rfl (.refl _) trivial
  | launch =>
    refine ⟨⟨List.length_replicate .., rfl⟩, ?_, alert.single, alert.minded⟩
    intro phase member
    rw [(List.mem_replicate.mp member).2]
    trivial
  | queue polls =>
    obtain ⟨_, drifts, begun⟩ := (polls.valid valid).populate
    exact goes rfl (polls.drifts.trans drifts).calm ⟨suits.1, begun.enumerated⟩
  | @collapse parked polled failure next polls hooked follows =>
    have calm := (polls.drifts.trans (Plan.abort_drifts polled.plan failure)).calm
    rcases follows with rfl | ⟨_, fault, rfl⟩
    · exact goes rfl calm ⟨suits.1, fun _ _ => Plan.abort_enumerated _⟩
    · exact goes rfl calm trivial
  | report => exact goes rfl (.refl _) suits
  | @wait parked unfailed remaining =>
    have looked : before.Manned ∧ before.Looked := by
      cases parked with
      | none => exact suits
      | some seen => exact ⟨suits.1, suits.2.1⟩
    exact goes rfl (.refl _)
      ⟨looked.1, looked.2, Nat.le_refl _, fun _ => unfailed, fun _ => remaining⟩
  | @collect parked done =>
    have looked : before.Looked := by
      cases parked with
      | none => exact suits.2
      | some seen => exact suits.2.1
    exact goes rfl (Plan.collect_drifts _).calm (looked.lasts kept)
  | abort => exact goes rfl (Plan.abort_drifts _ _).calm fun _ _ => Plan.abort_enumerated _

end Foreman.Executor
