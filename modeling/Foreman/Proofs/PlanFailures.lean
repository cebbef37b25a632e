import Foreman.Plan.Stop
import Foreman.Proofs.PlanGraph

/-! The failures of a plan. Details that are added to a failure leave those alone that it
has, the failure of a fault says what the fault says, and a plan hands out one failure for
each node that has failed. -/

namespace Foreman

/-! Details. -/

/-- The keys ascend, so each of them is there once. -/
def Details.Ascending (details : Details) : Prop := details.Pairwise (·.1 < ·.1)

/-- A new pair is found under its key if nothing was there, and nothing else changes. -/
theorem Details.lookup_insertNew {details : Details} (ascending : details.Ascending)
    (key value other : String) : (details.insertNew key value).lookup other =
      (details.lookup other).or (if other = key then some value else none) := by
  have lookup_head (first kept : String) (rest : Details) :
      List.lookup other ((first, kept) :: rest) =
        if other = first then some kept else List.lookup other rest := by
    by_cases hit : other = first
    · simp [hit]
    · simp [List.lookup_cons, hit, beq_eq_false_iff_ne.mpr hit]
  induction details with
  | nil => simp only [insertNew, lookup_head, List.lookup_nil, Option.none_or]
  | cons pair rest ih =>
    obtain ⟨first, kept⟩ := pair
    obtain ⟨least, ascending⟩ := List.pairwise_cons.mp ascending
    unfold insertNew
    split
    next same =>
      subst same
      rw [lookup_head]
      split <;> simp
    split
    next differs before =>
      rw [lookup_head]
      split
      next hit =>
        have absent : List.lookup other ((first, kept) :: rest) = none := by
          rw [List.lookup_eq_none_iff]
          intro pair member
          rw [bne_iff_ne, hit]
          rcases List.mem_cons.mp member with rfl | member
          · exact differs
          · exact String.ne_of_lt (String.lt_trans before (least pair member))
        rw [absent, Option.none_or]
      · rw [Option.or_none]
    next differs after =>
      rw [lookup_head, lookup_head, ih ascending]
      split
      next hit => rw [if_neg fun same => differs (same.symm.trans hit), Option.or_none]
      · rfl

/-- The failure is the given one, but for a detail that it has under this key unless the
given one has one there. -/
structure Failure.Detailed (given : Failure) (key value : String) (failure : Failure) : Prop where
  same : failure = { given with details := failure.details }
  details : given.details.Ascending → ∀ other, failure.details.lookup other =
    (given.details.lookup other).or (if other = key then some value else none)

theorem Failure.withDetail_detailed (given : Failure) (key value : String) :
    given.Detailed key value (given.withDetail key value) :=
  ⟨rfl, fun ascending other => Details.lookup_insertNew ascending key value other⟩

/-! Faults. -/

/-- The text that a raised value carries. -/
inductive Fault.Carries : Fault → String → Prop where
  | invalidArgument (text : String) : Carries (.invalidArgument text) text
  | outOfRange (text : String) : Carries (.outOfRange text) text
  | logic (text : String) : Carries (.logic text) text
  | runtime (text : String) : Carries (.runtime text) text
  | emptyCall : Carries .emptyCall "bad_function_call"

/-- The failure by which a plan accounts for a fault that stopped it, in full. -/
inductive Fault.Stops (plan : String) : Fault → Failure → Prop where
  | told {fault : Fault} {text : String} (carried : fault.Carries text) :
    Stops plan fault
      { category := .plan
        code := 5001
        retryable := false
        userMessage := text
        internalMessage := "Uncaught exception: " ++ text
        details := [("plan", plan)] }
  | untold :
    Stops plan .foreign
      { category := .plan
        code := 5001
        retryable := false
        userMessage := "Unknown failure"
        internalMessage := "Uncaught exception of non-standard type"
        details := [("plan", plan)] }

theorem Failure.ofFault_stops (plan : String) (fault : Fault) :
    fault.Stops plan ((ofFault .plan (some fault)).withDetail "plan" plan) := by
  cases fault with
  | invalidArgument text => exact .told (.invalidArgument text)
  | outOfRange text => exact .told (.outOfRange text)
  | logic text => exact .told (.logic text)
  | runtime text => exact .told (.runtime text)
  | emptyCall => exact .told .emptyCall
  | foreign => exact .untold

/-! Failed nodes. -/

namespace Plan

variable {plan before after : Plan} {position : Nat} {entry : Entry}

/-- The nodes that failed, in the order of addition. -/
def failedNodes (plan : Plan) : List Nat :=
  (List.range plan.size).filter fun position => plan.state? position = some .failed

def failure? (plan : Plan) (position : Nat) : Option Failure :=
  (plan.node? position).bind (·.failure)

theorem failure?_eq (found : plan.entries[position]? = some entry) :
    plan.failure? position = entry.node.failure := by
  rw [failure?, node?_eq found, Option.bind_some]

theorem mem_failedNodes : position ∈ plan.failedNodes ↔ plan.state? position = some .failed := by
  simp only [failedNodes, List.mem_filter, List.mem_range, decide_eq_true_eq, and_iff_right_iff_imp]
  intro failed
  obtain ⟨entry, found, _⟩ := entry_of_state? failed
  exact (List.getElem?_eq_some_iff.mp found).1

def Caused (plan : Plan) : Prop :=
  ∀ (position : Nat) (entry : Entry), plan.entries[position]? = some entry →
    entry.node.state = .failed → entry.node.failure.isSome = true

/-- What a plan hands out for its nodes is one failure for each failed node. -/
theorem nodeFailures_map (caused : plan.Caused) :
    plan.nodeFailures.map some = plan.failedNodes.map plan.failure? := by
  have listed : plan.entries.map some = (List.range plan.size).map (plan.entries[·]?) := by
    apply List.ext_getElem (by simp [size])
    intro position inside _
    simp
  have taken : plan.nodeFailures = (plan.entries.map some).filterMap fun entry? =>
      entry?.bind fun entry => if entry.node.state = .failed then entry.node.failure else none := by
    rw [List.filterMap_map]
    rfl
  have each (positions : List Nat) (inside : ∀ position ∈ positions, position < plan.size) :
      ((positions.map (plan.entries[·]?)).filterMap fun entry? =>
          entry?.bind fun entry => if entry.node.state = .failed then entry.node.failure else none).map
        some = (positions.filter fun position => plan.state? position = some .failed).map
          plan.failure? := by
    induction positions with
    | nil => rfl
    | cons first rest ih =>
      obtain ⟨entry, found⟩ : ∃ entry, plan.entries[first]? = some entry :=
        ⟨_, List.getElem?_eq_getElem (inside first List.mem_cons_self)⟩
      have rest := ih fun position member => inside position (List.mem_cons_of_mem _ member)
      have state := state?_eq found
      have failure := failure?_eq found
      rw [List.map_cons, found, List.filterMap_cons, Option.bind_some, List.filter_cons, state]
      by_cases failed : entry.node.state = .failed
      · obtain ⟨reason, cause⟩ := Option.isSome_iff_exists.mp (caused first entry found failed)
        simp only [failed, cause, if_true, decide_true, List.map_cons, rest, failure]
      · simp only [failed, if_false, Option.some.injEq, decide_false, Bool.false_eq_true, rest]
  rw [taken, listed, each _ fun position => List.mem_range.mp]
  rfl

theorem failedNodes_congr (size : after.size = before.size)
    (state : ∀ node, after.state? node = before.state? node)
    (failure : ∀ node ∈ before.failedNodes, after.failure? node = before.failure? node) :
    after.failedNodes.map after.failure? = before.failedNodes.map before.failure? := by
  have nodes : after.failedNodes = before.failedNodes := by simp only [failedNodes, size, state]
  rw [nodes]
  exact List.map_congr_left failure

end Plan
end Foreman
