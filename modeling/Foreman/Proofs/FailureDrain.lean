import Foreman.Proofs.LastingStop
import Foreman.Proofs.NodeLives
import Foreman.Proofs.PlanFailures

/-! Handing out the failures of a plan, whatever was called on it. The first collection
hands out the failures of the nodes that have failed, in the order of addition, and then
what aborts and cancellations have noted, in the order of these calls. Later collections
hand out nothing, and once all nodes have ended there is nothing more to hand out. -/

namespace Foreman.Plan

variable {position : Nat}

def Operation.collects : Operation → Bool
  | .collect => true
  | _ => false

/-- The failures of a caller who puts what a reply hands out behind those that it has. -/
def Reply.joined (held : List Failure) : Reply → List Failure
  | .collected failures => held ++ failures
  | _ => held

/-- The later plan has the nodes of one that was over, which have ended as they had then. -/
structure Rests (before after : Plan) : Prop where
  begun : after.Begun
  finished : after.Over
  caused : after.Caused
  size : after.size = before.size
  state : ∀ node, after.state? node = before.state? node
  failure : ∀ node ∈ before.failedNodes, after.failure? node = before.failure? node

namespace Session

variable {session start : Session} {call : Operation} {calls : List Operation} {old new : Entry}
  {name : String} {told : Bool}

/-! What is noted for the plan as a whole. -/

/-- What these calls note for a plan of this name, in order. An abort notes the failure
that it is given, which names the plan then, and a cancellation notes itself if it finds
a node that nobody has selected and none was `told` of before. -/
def notices (name : String) (told : Bool) : List (Session × Operation) → List Failure
  | [] => []
  | (session, call) :: rest =>
    match call with
    | .abort failure => failure.withDetail "plan" name :: notices name told rest
    | .cancel =>
      if session.finds .cancel && !told then
        Failure.ofCancellation name :: notices name true rest
      else notices name told rest
    | _ => notices name told rest

def foundBy (steps : List (Session × Operation)) : Bool := steps.any fun step => step.1.finds step.2

theorem notices_append (name : String) (told : Bool) (steps later : List (Session × Operation)) :
    notices name told (steps ++ later) =
      notices name told steps ++ notices name (told || foundBy steps) later := by
  induction steps generalizing told with
  | nil => simp [notices, foundBy]
  | cons step rest ih =>
    obtain ⟨session, call⟩ := step
    cases call with
    | cancel =>
      cases told <;> cases finds : session.finds .cancel <;>
        simp [notices, foundBy, finds, ih]
    | abort failure => simp [notices, foundBy, finds, ih]
    | add _ _ _ | populate | select _ _ | complete _ | fail _ _ | collect | locks _ | move _ _
    | force _ _ => simp [notices, foundBy, finds, ih]

/-- A call that is no collection notes what it has to note, and nothing else. -/
theorem Enters.noted {after : Plan} (enters : session.Enters call after)
    (other : call.collects = false) : after.books =
      (session.plan.cancelRecorded || session.finds call, session.plan.collected,
        session.plan.failures ++
          notices session.plan.name session.plan.cancelRecorded [(session, call)]) := by
  cases enters with
  | nothing unfound unhanded same =>
    rw [same, books, unfound, Bool.or_false]
    cases call with
    | abort failure => cases unhanded
    | cancel => simp [notices, unfound]
    | add _ _ _ | populate | select _ _ | complete _ | fail _ _ | collect | locks _ | move _ _
    | force _ _ => simp [notices]
  | drained own =>
    rw [own] at other
    cases other
  | canceled own noted =>
    subst own
    have finds : session.finds .cancel = session.plan.hasUnscheduled := rfl
    rw [noted, cancel_books, ← finds]
    rfl
  | aborted failure own noted =>
    subst own
    rw [noted]
    exact Prod.ext (Bool.or_false _).symm rfl

theorem Enters.collected {after : Plan} (enters : session.Enters call after)
    (earlier : session.plan.collected = true) : after.collected = true := by
  cases enters with
  | nothing _ _ same => exact (congrArg (·.2.1) same).trans earlier
  | drained _ empty => exact congrArg (·.2.1) empty
  | canceled _ noted =>
    exact (congrArg (·.2.1) noted).trans ((cancel_collected _).trans earlier)
  | aborted _ _ noted => exact (congrArg (·.2.1) noted).trans earlier

structure Undrained (start : Session) (calls : List Operation) : Prop where
  name : (start.run calls).plan.name = start.plan.name
  books : (start.run calls).plan.books = (foundBy (start.chronicle calls), false,
    notices start.plan.name false (start.chronicle calls))

theorem Undrained.concat (undrained : start.Undrained calls)
    (valid : (start.run calls).plan.Valid) (orderly : call.isOrderly = true)
    (other : call.collects = false) : start.Undrained (calls ++ [call]) := by
  have recorded : (start.run calls).plan.cancelRecorded = foundBy (start.chronicle calls) :=
    congrArg (·.1) undrained.books
  have collected : (start.run calls).plan.collected = false := congrArg (·.2.1) undrained.books
  have failures : (start.run calls).plan.failures =
      notices start.plan.name false (start.chronicle calls) := congrArg (·.2.2) undrained.books
  have noted := (perform_enters valid orderly).noted other
  rw [recorded, collected, failures, undrained.name] at noted
  constructor
  · rw [run_concat]
    exact (perform_settings valid orderly).1.trans undrained.name
  · rw [run_concat, noted, chronicle_concat, notices_append, Bool.false_or]
    simp [foundBy]

theorem run_undrained (valid : start.plan.Valid) (fresh : start.plan.books = (false, false, []))
    (orderly : ∀ call ∈ calls, call.isOrderly = true)
    (others : ∀ call ∈ calls, call.collects = false) : start.Undrained calls := by
  apply run_keeps (motive := fun calls =>
    (∀ call ∈ calls, call.collects = false) → start.Undrained calls) valid _ _ orderly others
  · exact fun _ => ⟨rfl, fresh⟩
  · intro calls call valid orderly undrained others
    exact (undrained fun other member => others other (List.mem_append_left _ member)).concat valid
      orderly (others call (by simp))

/-! The failures of nodes. -/

theorem perform_caused (valid : session.plan.Valid) (orderly : call.isOrderly = true)
    (caused : session.plan.Caused) : (session.perform call).2.plan.Caused := by
  intro position new present failed
  cases found : session.plan.entries[position]? with
  | none =>
    have idle := (perform_born valid orderly found present).1
    simp [idle] at failed
  | some old =>
    obtain ⟨new', there, _, fate⟩ := perform_fate valid orderly found
    cases Option.some.inj (present.symm.trans there)
    have earlier := caused position old found
    cases fate with
    | drifts drift =>
      rw [drift.failure]
      rcases drift.state with same | ⟨_, ready | skipped⟩
      · exact earlier (same.symm.trans failed)
      · simp [ready] at failed
      · simp [skipped] at failed
    | handed _ executing => simp [executing] at failed
    | noted failure _ same => simp [same, Node.fail, Option.orElse_eq_or]
    | idled _ _ same =>
      rw [same] at failed ⊢
      exact earlier failed
    | ended _ _ failure state =>
      rw [failure]
      rw [state] at failed
      split at failed
      next reason => exact reason
      · cases failed

theorem run_caused (valid : start.plan.Valid) (caused : start.plan.Caused)
    (orderly : ∀ call ∈ calls, call.isOrderly = true) : (start.run calls).plan.Caused := by
  apply run_keeps valid caused _ orderly
  intro calls call valid orderly caused
  rw [run_concat]
  exact perform_caused valid orderly caused

theorem perform_failure (valid : session.plan.Valid) (orderly : call.isOrderly = true)
    (noted : (session.plan.failure? position).isSome = true) :
    (session.perform call).2.plan.failure? position = session.plan.failure? position := by
  cases found : session.plan.entries[position]? with
  | none => simp [failure?, node?, found] at noted
  | some old =>
    obtain ⟨new, present, _, fate⟩ := perform_fate valid orderly found
    rw [failure?_eq found] at noted ⊢
    rw [failure?_eq present, fate.failure, Option.or_of_isSome noted]

theorem perform_rests {before : Plan} (rests : before.Rests session.plan)
    (valid : session.plan.Valid) (orderly : call.isOrderly = true) :
    before.Rests (session.perform call).2.plan := by
  have idle (node : Nat) : session.plan.state? node ≠ some .executing := by
    intro executing
    obtain ⟨entry, found, state⟩ := entry_of_state? executing
    have terminal := rests.finished node entry found
    simp [state, State.isTerminal] at terminal
  have same (node : Nat) :
      (session.perform call).2.plan.state? node = session.plan.state? node :=
    (perform_settled valid rests.begun rests.finished.stopped orderly node).resolve_right
      fun moved => idle node moved.2.1
  refine ⟨perform_begun valid orderly rests.begun, ?_, perform_caused valid orderly rests.caused,
    ?_, fun node => (same node).trans (rests.state node), ?_⟩
  · intro node entry found
    have state := (same node).symm.trans (state?_eq found)
    obtain ⟨earlier, present, ended⟩ := entry_of_state? state
    rw [← ended]
    exact rests.finished node earlier present
  · rcases perform_keeps valid orderly with ⟨id, deps, resources, rfl⟩ | keeps
    · simp only [Session.perform, Plan.add, rests.begun.started, if_true]
      exact rests.size
    · exact keeps.size.trans rests.size
  · intro node failed
    have state := (rests.state node).trans (mem_failedNodes.mp failed)
    obtain ⟨entry, found, ended⟩ := entry_of_state? state
    have noted := rests.caused node entry found ended
    rw [← failure?_eq found] at noted
    exact (perform_failure valid orderly noted).trans (rests.failure node failed)

theorem run_rests (valid : start.plan.Valid) (begun : start.plan.Begun)
    (finished : start.plan.Over) (caused : start.plan.Caused)
    (orderly : ∀ call ∈ calls, call.isOrderly = true) : start.plan.Rests (start.run calls).plan := by
  apply run_keeps valid _ _ orderly
  · exact ⟨begun, finished, caused, rfl, fun _ => rfl, fun _ _ => rfl⟩
  · intro calls call valid orderly rests
    rw [run_concat]
    exact perform_rests rests valid orderly

/-! The drain. -/

theorem run_collected (valid : start.plan.Valid) (collected : start.plan.collected = true)
    (orderly : ∀ call ∈ calls, call.isOrderly = true) : (start.run calls).plan.collected = true := by
  apply run_keeps valid collected _ orderly
  intro calls call valid orderly collected
  rw [run_concat]
  exact (perform_enters valid orderly).collected collected

theorem collect_again (collected : session.plan.collected = true) :
    session.perform .collect = (.collected [], session) := by
  simp [perform, collect, collected]

theorem collect_first (uncollected : session.plan.collected = false) :
    session.perform .collect = (.collected (session.plan.nodeFailures ++ session.plan.failures),
      { session with plan := { session.plan with collected := true, failures := [] } }) := by
  simp [perform, collect, uncollected]

/-- Whatever is called on a fresh plan and on the locks: the first collection puts behind
the failures that the caller has one for each node that has failed, which is the failure
of that node, in the order of addition; then one for each abort, which is the given one
with a detail that names the plan unless it had one, and one for the first cancellation
that found a node to skip, in the order of these calls. It changes nothing else about the
plan and its locks. Every later collection puts nothing there. If all nodes had ended by
then, and the plan gets no more, they stay as they ended, so nothing was missed. -/
theorem failures_drained_once (name : String) (scope : Nat) (rule : Bool) (desk : Desk)
    (past later : List Operation)
    (orderly : ∀ call ∈ past ++ .collect :: later, call.isOrderly = true)
    (first : ∀ call ∈ past, call.collects = false) :
    let start : Session := { plan := empty name scope rule, desk }
    let before := start.run past
    let after := (before.perform .collect).2
    (∃ reported, (∀ held, (before.perform .collect).1.joined held =
        held ++ (reported ++ notices name false (start.chronicle past))) ∧
      reported.map some = before.plan.failedNodes.map before.plan.failure?) ∧
    (∀ failure : Failure, failure.Detailed "plan" name (failure.withDetail "plan" name)) ∧
    (Failure.ofCancellation name).Cancels name ∧
    after = { before with plan := { before.plan with collected := true, failures := [] } } ∧
    (∀ step ∈ after.chronicle later, step.2 = .collect →
      ∀ held, (step.1.perform step.2).1.joined held = held) ∧
    (before.plan.started = true → before.plan.allComplete = true →
      (∀ node, (after.run later).plan.state? node = before.plan.state? node) ∧
      (after.run later).plan.failedNodes.map (after.run later).plan.failure? =
        before.plan.failedNodes.map before.plan.failure?) := by
  intro start before after
  have fresh : start.plan.Valid := (empty_valid name scope rule).1
  have earlier : ∀ call ∈ past, call.isOrderly = true := fun call member =>
    orderly call (List.mem_append_left _ member)
  have rest : ∀ call ∈ later, call.isOrderly = true := fun call member =>
    orderly call (List.mem_append_right _ (List.mem_cons_of_mem _ member))
  have valid : before.plan.Valid := run_valid fresh earlier
  have undrained : start.Undrained past := run_undrained fresh rfl earlier first
  have caused : before.plan.Caused :=
    run_caused fresh (by simp [Caused, start, empty]) earlier
  have failures : before.plan.failures = notices name false (start.chronicle past) :=
    congrArg (·.2.2) undrained.books
  have drained : before.perform .collect =
      (.collected (before.plan.nodeFailures ++ before.plan.failures),
        { before with plan := { before.plan with collected := true, failures := [] } }) :=
    collect_first (congrArg (·.2.1) undrained.books)
  have left : after = { before with plan := { before.plan with collected := true, failures := [] } } :=
    congrArg (·.2) drained
  have collected : after.plan.collected = true := by rw [left]
  have drains : Operation.collect.isOrderly = true := rfl
  have ordered : after.plan.Valid := (perform_orderly valid drains).1
  refine ⟨⟨before.plan.nodeFailures, ?_, nodeFailures_map caused⟩, ?_,
    Failure.ofCancellation_cancels name, left, ?_, ?_⟩
  · intro held
    rw [drained, failures]
    rfl
  · exact fun failure => failure.withDetail_detailed "plan" name
  · rintro ⟨session, _⟩ member rfl held
    obtain ⟨calls, others, split, rfl⟩ := mem_chronicle member
    have orderly : ∀ call ∈ calls, call.isOrderly = true := fun call member =>
      rest call (split ▸ List.mem_append_left _ member)
    rw [collect_again (run_collected ordered collected orderly)]
    exact List.append_nil held
  · intro started complete
    have begun := valid.begun_of_started started
    have finished : before.plan.Over :=
      valid.coherent.finished (by simpa [allComplete] using complete)
    have rests : after.plan.Rests (after.run later).plan := by
      apply run_rests ordered (perform_begun valid drains begun) _
        (perform_caused valid drains caused) rest
      rw [left]
      exact finished
    have same := failedNodes_congr rests.size rests.state rests.failure
    have state := rests.state
    rw [left] at same state
    rw [left]
    exact ⟨state, same⟩

/-- Two nodes fail, the later one first. The cancellation skips what waits for them, and
the first abort names a plan of its own. -/
private def threshing : List Operation :=
  [ .add "mow" [] [], .add "thresh" ["mow"] [], .add "sack" ["thresh"] [], .add "sweep" [] [],
    .locks (.createTree "crew" 2), .locks (.createChild ⟨0, 0⟩), .locks (.createChild ⟨0, 0⟩),
    .populate, .select ⟨0, 1⟩ 0, .select ⟨0, 2⟩ 0, .fail 3 (.internal "broom lost"), .cancel,
    .abort { Failure.internal "storm" with details := [("plan", "county")] }, .complete 3,
    .fail 0 (.internal "rain"), .fail 0 (.internal "late"), .complete 0, .abort (.internal "night"),
    .cancel ]

private def nightfall : List Operation :=
  [ .fail 1 (.internal "dew"), .complete 0, .add "rake" [] [], .abort (.internal "over"), .collect,
    .cancel, .populate, .collect ]

private def farm : Session := { plan := empty "farm" 0 true, desk := { books := [{}] } }

theorem threshing_drained :
    ((farm.run threshing).perform .collect).1.joined [.execution "earlier"] =
      [.execution "earlier", (Failure.internal "rain").withDetail "node_id" "mow",
        (Failure.internal "broom lost").withDetail "node_id" "sweep", Failure.ofCancellation "farm",
        { Failure.internal "storm" with details := [("plan", "county")] },
        { Failure.internal "night" with details := [("plan", "farm")] }] ∧
    (((farm.run threshing).perform .collect).2.run nightfall).plan.failedNodes.map
      (((farm.run threshing).perform .collect).2.run nightfall).plan.failure? =
        [some ((Failure.internal "rain").withDetail "node_id" "mow"),
          some ((Failure.internal "broom lost").withDetail "node_id" "sweep")] := by
  obtain ⟨⟨reported, joined, own⟩, _, _, _, _, ended⟩ :=
    failures_drained_once "farm" 0 true { books := [{}] } threshing nightfall (by decide) (by decide)
  have failed : (farm.run threshing).plan.failedNodes.map (farm.run threshing).plan.failure? =
      [some ((Failure.internal "rain").withDetail "node_id" "mow"),
        some ((Failure.internal "broom lost").withDetail "node_id" "sweep")] := by decide +kernel
  have noted : notices "farm" false (farm.chronicle threshing) =
      [Failure.ofCancellation "farm",
        { Failure.internal "storm" with details := [("plan", "county")] },
        { Failure.internal "night" with details := [("plan", "farm")] }] := by decide +kernel
  have reports : reported = [(Failure.internal "rain").withDetail "node_id" "mow",
      (Failure.internal "broom lost").withDetail "node_id" "sweep"] :=
    (List.map_inj_right fun _ _ => Option.some.inj).mp (own.trans failed)
  refine ⟨(joined _).trans ?_, ?_⟩
  · rw [reports]
    exact congrArg _ (congrArg _ noted)
  · exact (ended (by decide +kernel) (by decide +kernel)).2.trans failed

end Session
end Foreman.Plan
