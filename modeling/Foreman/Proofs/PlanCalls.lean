import Foreman.Proofs.PlanRecords
import Mathlib.Data.List.Induction

/-! Histories of calls on a plan, and what each call is to one node. A node drifts until
a call selects it; from then on only a call that completes it can move it. Failures are
noted on a node by calls that name it. -/

namespace Foreman.Plan

variable {position : Nat}

def Operation.given? (position : Nat) : Operation → Option Failure
  | .fail other failure => if other = position then some failure else none
  | _ => none

namespace Session

variable {session start : Session} {call : Operation} {calls : List Operation} {old new : Entry}

/-! The history of a run. -/

/-- Each call together with the session that it found. -/
def chronicle (session : Session) : List Operation → List (Session × Operation)
  | [] => []
  | call :: rest => (session, call) :: (session.perform call).2.chronicle rest

theorem run_append (start : Session) (earlier later : List Operation) :
    start.run (earlier ++ later) = (start.run earlier).run later := List.foldl_append

theorem run_concat (start : Session) (calls : List Operation) (call : Operation) :
    start.run (calls ++ [call]) = ((start.run calls).perform call).2 := run_append start calls [call]

theorem chronicle_concat (start : Session) (calls : List Operation) (call : Operation) :
    start.chronicle (calls ++ [call]) = start.chronicle calls ++ [(start.run calls, call)] := by
  induction calls generalizing start with
  | nil => rfl
  | cons first rest ih => exact congrArg ((start, first) :: ·) (ih (start.perform first).2)

/-- A call in the history found what the calls before it had left. -/
theorem mem_chronicle {step : Session × Operation} (member : step ∈ start.chronicle calls) :
    ∃ past later, calls = past ++ step.2 :: later ∧ step.1 = start.run past := by
  induction calls generalizing start with
  | nil => cases member
  | cons first rest ih =>
    rcases List.mem_cons.mp member with rfl | member
    · exact ⟨[], rest, rfl, rfl⟩
    · obtain ⟨past, later, rfl, found⟩ := ih member
      exact ⟨first :: past, later, rfl, found⟩

/-- What every orderly call keeps of a plan in order holds after any of them. -/
theorem run_keeps {motive : List Operation → Prop} (valid : start.plan.Valid) (fresh : motive [])
    (kept : ∀ calls call, (start.run calls).plan.Valid → call.isOrderly = true → motive calls →
      motive (calls ++ [call]))
    (orderly : ∀ call ∈ calls, call.isOrderly = true) : motive calls := by
  induction calls using List.reverseRecOn with
  | nil => exact fresh
  | append_singleton calls call ih =>
    have earlier : ∀ other ∈ calls, other.isOrderly = true := fun other member =>
      orderly other (List.mem_append_left _ member)
    exact kept calls call (run_valid valid earlier) (orderly call (by simp)) (ih earlier)

/-! What one call is to one node. -/

def selected? (session : Session) (call : Operation) : Option Nat :=
  match (session.perform call).1 with
  | .selected (.ok node) => node
  | _ => none

/-- What a call makes of a node. -/
inductive Fate (session : Session) (call : Operation) (position : Nat) (old new : Node) : Prop
  | drifts (drift : old.Drifts new) (unselected : session.selected? call ≠ some position)
      (ungiven : call.given? position = none)
  | handed (ready : old.state = .ready) (executing : new.state = .executing)
      (failure : new.failure = old.failure) (selected : session.selected? call = some position)
      (ungiven : call.given? position = none)
  | noted (failure : Failure) (own : call = .fail position failure) (same : new = old.fail failure)
  /-- A node that is not being executed has no locks to give back, and nothing else happens. -/
  | idled (own : call = .complete position) (other : old.state ≠ .executing)
      (same : new = { old with held := [] })
  | ended (own : call = .complete position) (executing : old.state = .executing)
      (failure : new.failure = old.failure)
      (state : new.state = if old.failure.isSome then .failed else .succeeded)

theorem selected_ready (valid : session.plan.Valid)
    (selected : session.selected? call = some position) :
    ∃ entry, session.plan.entries[position]? = some entry ∧ entry.node.state = .ready := by
  cases call with
  | select lease book =>
    rcases perform_select valid lease book with ⟨reply, _⟩ | ⟨node, entry, found, ready, reply, _⟩
    · simp [selected?, reply] at selected
    · simp only [selected?, reply, Option.some.injEq] at selected
      exact ⟨entry, selected ▸ found, ready⟩
  | add id deps resources =>
    simp only [selected?, perform] at selected
    split at selected
    next reply node shown =>
      split at shown <;> cases shown
    · cases selected
  | move node target =>
    simp only [selected?, perform] at selected
    split at selected
    next reply node shown =>
      split at shown
      · cases shown
      · split at shown <;> cases shown
    · cases selected
  | populate | complete _ | fail _ _ | cancel | abort _ | collect | locks _ | force _ _ =>
    simp [selected?, perform] at selected

theorem perform_keeps (valid : session.plan.Valid) (orderly : call.isOrderly = true) :
    (∃ id deps resources, call = .add id deps resources) ∨
      session.plan.Keeps (session.perform call).2.plan := by
  cases call with
  | move _ _ | force _ _ => cases orderly
  | add id deps resources => exact Or.inl ⟨id, deps, resources, rfl⟩
  | populate => exact Or.inr valid.populate.2.1.keeps
  | complete position => exact Or.inr (complete_keeps valid position _)
  | fail position failure => exact Or.inr (failNode_keeps _ position failure)
  | cancel => exact Or.inr (cancel_drifts _).keeps
  | abort failure => exact Or.inr (abort_drifts _ failure).keeps
  | collect => exact Or.inr (collect_drifts _).keeps
  | locks command => exact Or.inr (.refl _)
  | select lease book =>
    apply Or.inr
    rcases perform_select valid lease book with ⟨_, same⟩ | ⟨node, entry, found, ready, _, hands⟩
    · rw [same]
      exact .refl _
    · rw [hands]
      exact (Replaces.hand valid.coherent lease found ready).keeps

theorem perform_settings (valid : session.plan.Valid) (orderly : call.isOrderly = true) :
    (session.perform call).2.plan.name = session.plan.name ∧
      (session.perform call).2.plan.scope = session.plan.scope ∧
      (session.perform call).2.plan.continueOnFailure = session.plan.continueOnFailure := by
  rcases perform_keeps valid orderly with ⟨id, deps, resources, rfl⟩ | keeps
  · simp only [perform]
    split
    next added =>
      obtain ⟨_, _, _, rfl⟩ := add_attached added
      exact ⟨rfl, rfl, rfl⟩
    · exact ⟨rfl, rfl, rfl⟩
  · exact ⟨keeps.name, keeps.scope, keeps.rule⟩

theorem perform_begun (valid : session.plan.Valid) (orderly : call.isOrderly = true)
    (begun : session.plan.Begun) : (session.perform call).2.plan.Begun := by
  apply (perform_orderly valid orderly).1.begun_of_started
  cases call with
  | move _ _ | force _ _ => cases orderly
  | locks command => exact begun.started
  | fail position failure => exact begun.started
  | populate => exact valid.populate.2.2.started
  | abort failure => rfl
  | cancel =>
    simp only [perform, cancel]
    split <;> rfl
  | collect =>
    simp only [perform, collect]
    split <;> exact begun.started
  | add id deps resources =>
    simp only [perform]
    split
    next added =>
      have fresh := (add_attached added).1
      simp [begun.started] at fresh
    · exact begun.started
  | select lease book =>
    rcases perform_select valid lease book with ⟨_, same⟩ | ⟨node, entry, _, _, _, hands⟩
    · rw [same]
      exact begun.started
    · rw [hands]
      exact begun.started
  | complete position =>
    simp only [perform]
    rcases complete_cases valid position session.desk.locks with
      ⟨entry, found, executing, later, ends⟩ | ⟨_, same⟩
    · exact (ends.begun later).started
    · rw [same]
      exact begun.started

theorem perform_born (valid : session.plan.Valid) (orderly : call.isOrderly = true)
    (absent : session.plan.entries[position]? = none)
    (present : (session.perform call).2.plan.entries[position]? = some new) :
    new.node.state = .notReady ∧ new.node.failure = none := by
  rcases perform_keeps valid orderly with ⟨id, deps, resources, rfl⟩ | keeps
  · simp only [perform] at present
    split at present
    next added =>
      obtain ⟨_, positions, _, rfl⟩ := add_attached added
      rw [attach_found] at present
      split at present
      · cases present
        exact ⟨rfl, rfl⟩
      · rw [absent] at present
        cases present
    · rw [absent] at present
      cases present
  · obtain ⟨earlier, found, _⟩ := keeps.back present
    rw [absent] at found
    cases found

/-- A node stays in the plan, whatever is called. -/
theorem perform_fate (valid : session.plan.Valid) (orderly : call.isOrderly = true)
    (found : session.plan.entries[position]? = some old) :
    ∃ new, (session.perform call).2.plan.entries[position]? = some new ∧
      new.node.id = old.node.id ∧ session.Fate call position old.node new.node := by
  have rests (unselected : session.selected? call ≠ some position)
      (ungiven : call.given? position = none) : session.Fate call position old.node old.node :=
    .drifts (.refl _) unselected ungiven
  have drifted {after : Plan} (drifts : session.plan.Drifts after)
      (unselected : session.selected? call ≠ some position)
      (ungiven : call.given? position = none) : ∃ new, after.entries[position]? = some new ∧
        new.node.id = old.node.id ∧ session.Fate call position old.node new.node := by
    obtain ⟨new, present, links, drift⟩ := drifts.ahead found
    exact ⟨new, present, links.id, .drifts drift unselected ungiven⟩
  cases call with
  | move _ _ | force _ _ => cases orderly
  | populate => exact drifted valid.populate.2.1 (by simp [selected?, perform]) rfl
  | cancel => exact drifted (cancel_drifts _) (by simp [selected?, perform]) rfl
  | abort failure => exact drifted (abort_drifts _ failure) (by simp [selected?, perform]) rfl
  | collect => exact drifted (collect_drifts _) (by simp [selected?, perform]) rfl
  | locks command => exact ⟨old, found, rfl, rests (by simp [selected?, perform]) rfl⟩
  | add id deps resources =>
    simp only [perform]
    split
    next after added =>
      obtain ⟨_, positions, _, rfl⟩ := add_attached added
      have inside : position ≠ session.plan.size :=
        Nat.ne_of_lt (List.getElem?_eq_some_iff.mp found).1
      rw [attach_found, if_neg inside, found]
      exact ⟨_, rfl, rfl, rests (by simp [selected?, perform, added]) rfl⟩
    next refused =>
      exact ⟨old, found, rfl, rests (by simp [selected?, perform, refused]) rfl⟩
  | select lease book =>
    rcases perform_select valid lease book with
      ⟨reply, same⟩ | ⟨node, entry, present, ready, reply, hands⟩
    · rw [same]
      exact ⟨old, found, rfl, rests (by simp [selected?, reply]) rfl⟩
    · have selected : session.selected? (.select lease book) = some node := by
        simp [selected?, reply]
      rw [hands, (Replaces.hand valid.coherent lease present ready).lookup]
      split
      next own =>
        subst own
        cases Option.some.inj (found.symm.trans present)
        exact ⟨_, rfl, rfl, .handed ready rfl rfl selected rfl⟩
      next other =>
        exact ⟨old, found, rfl, rests (by rw [selected]; simpa using Ne.symm other) rfl⟩
  | fail node failure =>
    simp only [perform, failNode_lookup, found, Option.map_some]
    split
    next own => exact ⟨_, rfl, rfl, .noted failure (own ▸ rfl) rfl⟩
    next other =>
      exact ⟨_, rfl, rfl, rests (by simp [selected?, perform]) (by simp [Operation.given?, other])⟩
  | complete node =>
    have unselected : session.selected? (.complete node) ≠ some position := by
      simp [selected?, perform]
    simp only [perform]
    rcases complete_cases valid node session.desk.locks with
      ⟨entry, there, executing, _, ends⟩ | ⟨other, same⟩
    · obtain ⟨new, present, links⟩ := ends.keeps.entry position old found
      refine ⟨new, present, links.id, ?_⟩
      by_cases own : position = node
      · subst own
        cases Option.some.inj (found.symm.trans there)
        obtain ⟨later, again, failure, _, state⟩ := ends.own
        cases Option.some.inj (present.symm.trans again)
        exact .ended rfl executing failure state
      · exact .drifts (ends.others position old new own found present) unselected rfl
    · rw [same]
      simp only [modifyNode, entries_modify, found]
      split
      next own =>
        subst own
        rw [state?_eq found] at other
        exact ⟨_, rfl, rfl, .idled rfl (fun executing => other (congrArg some executing)) rfl⟩
      · exact ⟨old, rfl, rfl, rests unselected rfl⟩

end Session
end Foreman.Plan
