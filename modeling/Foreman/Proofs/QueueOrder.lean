import Foreman.Proofs.Blame

/-! In which order nodes become ready. A node that succeeds puts the nodes that it
releases behind the queue, in the order of addition, and a node that fails puts nobody
there. -/

namespace Foreman.Plan

variable {plan : Plan} {position node other times : Nat} {entry : Entry} {owed : Nat → Nat}
  {stale : Nat → Prop}

/-- Work on nodes one after the other, each of which may go behind the queue. Whether
it does is not up to the others. -/
private theorem queue_foldl {f : Plan → Nat → Plan} {joins : Plan → Nat → Bool}
    (one : ∀ plan node, (f plan node).queue = plan.queue ++ if joins plan node then [node] else [])
    (apart : ∀ plan node other, other ≠ node → joins (f plan node) other = joins plan other)
    {nodes : List Nat} (distinct : nodes.Nodup) (plan : Plan) :
    (nodes.foldl f plan).queue = plan.queue ++ nodes.filter (joins plan) := by
  induction nodes generalizing plan with
  | nil => simp
  | cons head rest ih =>
    obtain ⟨absent, distinct⟩ := List.nodup_cons.mp distinct
    have same : rest.filter (joins (f plan head)) = rest.filter (joins plan) :=
      List.filter_congr fun other member =>
        apart plan head other fun same => absent (same ▸ member)
    rw [List.foldl_cons, ih distinct, one, same, List.append_assoc, List.filter_cons]
    split <;> rfl

/-! Dependents of a node that succeeded. -/

/-- The node waits, and at most so many mentions of what it waits for have not succeeded. -/
private def isDue (plan : Plan) (times node : Nat) : Bool :=
  plan.entries[node]?.any fun entry =>
    entry.enumerated && entry.node.state = .notReady && entry.unmet ≠ 0 && entry.unmet ≤ times

private theorem isDue_iff (found : plan.entries[node]? = some entry) :
    plan.isDue times node = true ↔ ((entry.enumerated = true ∧ entry.node.state = .notReady) ∧
      entry.unmet ≠ 0) ∧ entry.unmet ≤ times := by
  simp [isDue, found]

private theorem isDue_absent (absent : plan.entries[node]? = none) :
    plan.isDue times node = false := by
  simp [isDue, absent]

private theorem meet_apart (differs : other ≠ node) :
    (plan.meet node).entries[other]? = plan.entries[other]? := by
  unfold meet
  split
  · rfl
  · split
    · simp only
      split
      · simp only [markReady, modifyNode, entries_modify, if_neg (Ne.symm differs)]
      · simp only [entries_modify, if_neg (Ne.symm differs)]
    · rfl

private theorem meets_apart (differs : other ≠ node) :
    ((List.replicate times node).foldl meet plan).entries[other]? = plan.entries[other]? := by
  induction times generalizing plan with
  | zero => rfl
  | succ times ih => exact ih.trans (meet_apart differs)

private theorem meet_last (times : Nat) (due : plan.isDue 1 node = true) :
    (plan.meet node).queue = plan.queue ++ [node] ∧ (plan.meet node).isDue times node = false ∧
      plan.isDue (times + 1) node = true := by
  cases found : plan.entries[node]? with
  | none => simp [isDue_absent found] at due
  | some entry =>
    obtain ⟨⟨⟨seen, idle⟩, some_⟩, few⟩ := (isDue_iff found).mp due
    have last : entry.unmet = 1 := by omega
    simp [meet, isDue, found, seen, idle, last, markReady, modifyNode, modify, Node.enter]

private theorem meet_early (times : Nat) (early : plan.isDue 1 node = false) :
    (plan.meet node).queue = plan.queue ∧
      (plan.meet node).isDue times node = plan.isDue (times + 1) node := by
  cases found : plan.entries[node]? with
  | none => simp [meet, isDue, found]
  | some entry =>
    have early := mt (isDue_iff found).mpr (Bool.not_eq_true _ ▸ early)
    by_cases waits : (entry.enumerated = true ∧ entry.node.state = .notReady) ∧ entry.unmet ≠ 0
    · have more : 1 < entry.unmet := Nat.lt_of_not_le fun few => early ⟨waits, few⟩
      have met : plan.meet node =
          plan.modify node fun entry => { entry with unmet := entry.unmet - 1 } := by
        simp [meet, found, waits, Nat.ne_of_gt more]
      refine ⟨by rw [met, modify], ?_⟩
      have later : (plan.meet node).entries[node]? =
          some { entry with unmet := entry.unmet - 1 } := by
        rw [met, entries_modify, if_pos rfl, found, Option.map_some]
      rw [Bool.eq_iff_iff, isDue_iff later, isDue_iff found]
      simp only [waits, true_and]
      omega
    · have same : plan.meet node = plan := by simp [meet, found, waits]
      rw [same]
      refine ⟨rfl, ?_⟩
      rw [Bool.eq_iff_iff, isDue_iff found, isDue_iff found]
      simp only [waits, false_and]

/-- The last mention that a node waits for puts it behind the queue. -/
private theorem queue_meets (times : Nat) (plan : Plan) (node : Nat) :
    ((List.replicate times node).foldl meet plan).queue =
      plan.queue ++ if plan.isDue times node then [node] else [] := by
  induction times generalizing plan with
  | zero =>
    have never : plan.isDue 0 node = false := by
      cases found : plan.entries[node]? with
      | none => exact isDue_absent found
      | some entry =>
        rw [Bool.eq_false_iff, ne_eq, isDue_iff found]
        exact fun due => due.1.2 (Nat.le_zero.mp due.2)
    simp [never]
  | succ times ih =>
    rw [List.replicate_succ, List.foldl_cons, ih]
    cases now : plan.isDue 1 node with
    | true =>
      obtain ⟨queue, done, due⟩ := meet_last times now
      simp [queue, done, due]
    | false =>
      obtain ⟨queue, same⟩ := meet_early times now
      rw [queue, same]

private theorem queue_meetAll (plan : Plan) (times : Nat → Nat) (size : Nat) :
    (((List.range size).flatMap fun node => List.replicate (times node) node).foldl meet
        plan).queue =
      plan.queue ++ (List.range size).filter fun node => plan.isDue (times node) node := by
  rw [List.foldl_flatMap]
  apply queue_foldl (fun plan node => queue_meets (times node) plan node) ?_ List.nodup_range
  intro plan node other differs
  simp only [isDue, meets_apart differs]

/-- A node is due when a node has succeeded if it waits and now all that it depends on has
succeeded. -/
private theorem Coherent.isDue_iff (coherent : plan.Coherent owed stale)
    (found : plan.entries[node]? = some entry) (seen : entry.enumerated = true) :
    plan.isDue (owed node) node = true ↔ entry.node.state = .notReady ∧
      ∀ dep ∈ entry.node.deps, plan.state? dep = some .succeeded := by
  have none_iff : plan.unserved entry.node.deps = 0 ↔
      ∀ dep ∈ entry.node.deps, plan.state? dep = some .succeeded := by
    simp [Plan.unserved, List.countP_eq_zero]
  rw [Plan.isDue_iff found, ← none_iff]
  constructor
  · intro due
    obtain ⟨⟨⟨_, idle⟩, _⟩, few⟩ := due
    have counted := (coherent.waiting node entry found idle seen).unmet
    exact ⟨idle, by omega⟩
  · intro served
    obtain ⟨idle, none⟩ := served
    have waits := coherent.waiting node entry found idle seen
    have counted := waits.unmet
    have positive := waits.positive
    exact ⟨⟨⟨seen, idle⟩, by omega⟩, by omega⟩

/-! The end of a node. -/

/-- Nobody but a waiting node has only open dependencies that are being executed. -/
private theorem waits_for (valid : plan.Valid) (blamed : plan.Blamed)
    (executing : plan.state? position = some .executing) (found : plan.entries[other]? = some entry)
    (named : position ∈ entry.node.deps)
    (served : ∀ dep ∈ entry.node.deps, dep = position ∨ plan.state? dep = some .succeeded) :
    entry.node.state = .notReady := by
  apply Classical.byContradiction
  intro moved
  by_cases skipped : entry.node.state = .skipped
  · obtain ⟨dep, member, bad⟩ := blamed other ((state?_eq found).trans (congrArg some skipped))
    rw [depsOf_eq found] at member
    rcases served dep member with rfl | succeeded
    · simp [executing] at bad
    · simp [succeeded] at bad
  · have before := valid.coherent.served other entry found moved skipped position named
    simp [executing] at before

private theorem due_iff (valid : plan.Valid) (blamed : plan.Blamed)
    (found : plan.entries[position]? = some entry) (executing : entry.node.state = .executing)
    (inside : other < plan.size) :
    (plan.close position .succeeded).isDue ((plan.depsOf other).count position) other = true ↔
      position ∈ plan.depsOf other ∧
        ∀ dep ∈ plan.depsOf other, dep = position ∨ plan.state? dep = some .succeeded := by
  have replaces : plan.Replaces position entry (closed entry .succeeded)
      (plan.close position .succeeded) := Replaces.close valid.coherent found executing rfl
  have begun := valid.begun found (by simp [executing])
  have old := List.getElem?_eq_getElem inside
  obtain ⟨new, present, links⟩ := replaces.keeps.entry other _ old
  have seen := begun.enumerated other _ old
  have state := (state?_eq present).symm.trans (replaces.state? other)
  have served (dep : Nat) : (plan.close position .succeeded).state? dep = some .succeeded ↔
      dep = position ∨ plan.state? dep = some .succeeded := by
    rw [replaces.state?]
    split
    next same => simp [same, closed, Node.enter]
    next differs => simp [differs]
  rw [(valid.coherent.succeed found executing).isDue_iff present (links.enumerated seen),
    links.deps, depsOf_eq old]
  simp only [served]
  constructor
  · intro due
    obtain ⟨idle, done⟩ := due
    have apart : other ≠ position := fun same => by simp [idle, same, closed, Node.enter] at state
    rw [if_neg apart, idle, state?_eq old, Option.some.injEq] at state
    have waits := valid.coherent.waiting other _ old state.symm seen
    have open_ : 0 < plan.unserved plan.entries[other].node.deps := by
      rw [← Nat.add_zero (plan.unserved _), ← waits.unmet]
      exact waits.positive
    obtain ⟨dep, member, unserved⟩ := List.countP_pos_iff.mp open_
    rw [decide_eq_true_eq] at unserved
    exact ⟨(done dep member).resolve_right unserved ▸ member, done⟩
  · intro due
    obtain ⟨named, done⟩ := due
    have apart : other ≠ position := by
      rintro rfl
      exact Nat.lt_irrefl _ (valid.coherent.graph.earlier other other (depsOf_eq old ▸ named))
    rw [if_neg apart, state?_eq old, Option.some.injEq] at state
    exact ⟨state.trans (waits_for valid blamed ((state?_eq found).trans (congrArg some executing))
      old named done), done⟩

/-- **Release.** A node that succeeds puts those nodes behind the queue, in the order of
addition, that depend on it and otherwise only on nodes that have succeeded. -/
theorem queue_succeed (valid : plan.Valid) (blamed : plan.Blamed)
    (found : plan.entries[position]? = some entry) (executing : entry.node.state = .executing)
    (unfailed : ¬ entry.node.failure.isSome) (locks : Locks) :
    (plan.complete position locks).1.queue =
      plan.queue ++ (List.range plan.size).filter fun other =>
        position ∈ plan.depsOf other ∧
          ∀ dep ∈ plan.depsOf other, dep = position ∨ plan.state? dep = some .succeeded := by
  rw [complete_closes found executing, if_neg unfailed,
    valid.coherent.graph.dependents position entry found, mentions, queue_meetAll]
  congr 1
  apply List.filter_congr
  intro other member
  rw [Bool.eq_iff_iff, decide_eq_true_eq]
  exact due_iff valid blamed found executing (List.mem_range.mp member)

private theorem queue_skip (absent : node ∉ plan.queue) : (plan.skip node).queue = plan.queue := by
  unfold skip
  split
  · rfl
  · apply List.filter_eq_self.mpr
    intro other member
    rw [decide_eq_true_iff]
    rintro rfl
    exact absent member
  · rfl

private theorem queue_skipAll {nodes : List Nat} (absent : ∀ node ∈ nodes, node ∉ plan.queue) :
    (nodes.foldl skip plan).queue = plan.queue := by
  induction nodes generalizing plan with
  | nil => rfl
  | cons first rest ih =>
    have same := queue_skip (absent first List.mem_cons_self)
    rw [List.foldl_cons, ih, same]
    intro node member
    rw [same]
    exact absent node (List.mem_cons_of_mem _ member)

/-- A node that fails puts nobody behind the queue. Either its dependents are skipped, which
were not there yet, or nobody is left. -/
theorem queue_fail (valid : plan.Valid) (found : plan.entries[position]? = some entry)
    (executing : entry.node.state = .executing) (failed : entry.node.failure.isSome)
    (locks : Locks) :
    (plan.complete position locks).1.queue = if plan.continueOnFailure then plan.queue else [] := by
  have replaces : plan.Replaces position entry (closed entry .failed)
      (plan.close position .failed) := Replaces.close valid.coherent found executing rfl
  have coherent := valid.coherent.fail found executing
  have inside : position < (plan.close position .failed).size := by
    rw [replaces.keeps.size]
    exact (List.getElem?_eq_some_iff.mp found).1
  have ended : (plan.close position .failed).state? position = some .failed := by
    rw [replaces.state?, if_pos rfl]
    rfl
  rw [complete_closes found executing, if_pos failed]
  split
  · apply queue_skipAll
    intro node descends ready
    rcases descendants_idle coherent inside (by simp [ended]) _ descends
      ((coherent.queued node).mp ready) with same | same <;> cases same
  · rfl

end Foreman.Plan
