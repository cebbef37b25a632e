import Mathlib.Data.List.Nodup

/-! The order in which Kahn's algorithm comes to the nodes of a graph. Its queue is
first in, first out. It starts with the nodes that depend on nothing, and a node that
succeeds puts those behind the others that waited only for it. -/

namespace Foreman

/-- What the order depends on. -/
structure Chart where
  size : Nat
  deps : Nat → List Nat
  fails : Nat → Bool
  /-- Whether the others go on when a node fails. -/
  goesOn : Bool

namespace Chart

structure Progress where
  queue : List Nat
  /-- The nodes that have succeeded, the last first. -/
  done : List Nat := []
  popped : List Nat := []

/-- The nodes that depend on this one and on nothing that is not done. -/
def released (chart : Chart) (node : Nat) (done : List Nat) : List Nat :=
  (List.range chart.size).filter fun other =>
    node ∈ chart.deps other ∧ ∀ dep ∈ chart.deps other, dep ∈ done

def start (chart : Chart) : Progress :=
  { queue := (List.range chart.size).filter fun node => chart.deps node = [] }

def pop (chart : Chart) (progress : Progress) : Progress :=
  match progress.queue with
  | [] => progress
  | node :: rest =>
    if chart.fails node then
      { progress with
        queue := if chart.goesOn then rest else []
        popped := progress.popped ++ [node] }
    else
      { queue := rest ++ chart.released node (node :: progress.done)
        done := node :: progress.done
        popped := progress.popped ++ [node] }

def rounds (chart : Chart) : Nat → Progress
  | 0 => chart.start
  | count + 1 => chart.pop (chart.rounds count)

/-- The nodes in the order in which they are popped. As many rounds as there are nodes
empty the queue. -/
def order (chart : Chart) : List Nat := (chart.rounds chart.size).popped

variable {chart : Chart} {progress : Progress} {node count more : Nat} {rest : List Nat}

theorem mem_released {other : Nat} {done : List Nat} :
    other ∈ chart.released node done ↔
      other < chart.size ∧ node ∈ chart.deps other ∧ ∀ dep ∈ chart.deps other, dep ∈ done := by
  simp [released]

theorem pop_empty (empty : progress.queue = []) : chart.pop progress = progress := by
  simp [pop, empty]

theorem pop_popped (queued : progress.queue = node :: rest) :
    (chart.pop progress).popped = progress.popped ++ [node] := by
  simp only [pop, queued]
  split <;> rfl

/-! No node comes to the queue twice. -/

structure Orderly (chart : Chart) (progress : Progress) : Prop where
  distinct : (progress.popped ++ progress.queue).Nodup
  inside : ∀ node ∈ progress.popped ++ progress.queue, node < chart.size
  served : ∀ node ∈ progress.popped ++ progress.queue, ∀ dep ∈ chart.deps node, dep ∈ progress.done
  done : ∀ node ∈ progress.done, node ∈ progress.popped

theorem start_orderly (chart : Chart) : chart.Orderly chart.start := by
  refine ⟨?_, ?_, ?_, ?_⟩
  · exact List.nodup_range.filter _
  · intro node member
    exact List.mem_range.mp (List.mem_filter.mp member).1
  · intro node member dep needed
    have free : chart.deps node = [] := by simpa using (List.mem_filter.mp member).2
    simp [free] at needed
  · simp [start]

/-- A node that fails is popped, and others may be dropped with it. -/
private theorem Orderly.drop (orderly : chart.Orderly progress)
    (queued : progress.queue = node :: rest) {left : List Nat} (fewer : left.Sublist rest) :
    chart.Orderly { progress with queue := left, popped := progress.popped ++ [node] } := by
  have part : (progress.popped ++ [node] ++ left).Sublist (progress.popped ++ progress.queue) := by
    rw [queued, List.append_assoc]
    exact (fewer.cons_cons node).append_left progress.popped
  refine ⟨orderly.distinct.sublist part, ?_, ?_, ?_⟩
  · exact fun other member => orderly.inside other (part.subset member)
  · exact fun other member => orderly.served other (part.subset member)
  · exact fun other member => List.mem_append_left _ (orderly.done other member)

/-- What a node releases waited for that node until now. -/
private theorem Orderly.release (orderly : chart.Orderly progress)
    (queued : progress.queue = node :: rest) :
    chart.Orderly
      { queue := rest ++ chart.released node (node :: progress.done)
        done := node :: progress.done
        popped := progress.popped ++ [node] } := by
  have same : progress.popped ++ [node] ++ (rest ++ chart.released node (node :: progress.done)) =
      progress.popped ++ progress.queue ++ chart.released node (node :: progress.done) := by
    simp [queued]
  have pending : node ∉ progress.done := by
    intro member
    have distinct := orderly.distinct
    rw [queued, List.nodup_append] at distinct
    exact distinct.2.2 node (orderly.done node member) node List.mem_cons_self rfl
  refine ⟨?_, ?_, ?_, ?_⟩
  · rw [same]
    refine List.nodup_append.mpr ⟨orderly.distinct, List.nodup_range.filter _, ?_⟩
    rintro other member _ released rfl
    exact pending (orderly.served other member node (mem_released.mp released).2.1)
  · rw [same]
    intro other member
    rcases List.mem_append.mp member with known | released
    · exact orderly.inside other known
    · exact (mem_released.mp released).1
  · rw [same]
    intro other member dep needed
    rcases List.mem_append.mp member with known | released
    · exact List.mem_cons_of_mem _ (orderly.served other known dep needed)
    · exact (mem_released.mp released).2.2 dep needed
  · intro other member
    rcases List.mem_cons.mp member with rfl | member
    · simp
    · exact List.mem_append_left _ (orderly.done other member)

theorem Orderly.pop (orderly : chart.Orderly progress) : chart.Orderly (chart.pop progress) := by
  cases queued : progress.queue with
  | nil => rwa [pop_empty queued]
  | cons node rest =>
    simp only [Chart.pop, queued]
    split
    · apply orderly.drop queued
      split
      · exact .refl rest
      · exact List.nil_sublist rest
    · exact orderly.release queued

theorem rounds_orderly (chart : Chart) (count : Nat) : chart.Orderly (chart.rounds count) := by
  induction count with
  | zero => exact start_orderly chart
  | succ count ih => exact ih.pop

/-! All rounds. -/

theorem rounds_still (empty : (chart.rounds count).queue = []) :
    chart.rounds (count + more) = chart.rounds count := by
  induction more with
  | zero => rfl
  | succ more ih =>
    rw [Nat.add_succ, rounds, ih]
    exact pop_empty empty

theorem rounds_grow (chart : Chart) (count more : Nat) :
    (chart.rounds count).popped <+: (chart.rounds (count + more)).popped := by
  induction more with
  | zero => exact List.prefix_refl _
  | succ more ih =>
    rw [Nat.add_succ, rounds]
    cases queued : (chart.rounds (count + more)).queue with
    | nil => rwa [pop_empty queued]
    | cons node rest =>
      rw [pop_popped queued]
      exact ih.trans (List.prefix_append _ _)

private theorem rounds_length (chart : Chart) (count : Nat) :
    (chart.rounds count).queue = [] ∨ (chart.rounds count).popped.length = count := by
  induction count with
  | zero => exact Or.inr rfl
  | succ count ih =>
    cases queued : (chart.rounds count).queue with
    | nil => exact Or.inl ((congrArg Progress.queue (pop_empty queued)).trans queued)
    | cons node rest =>
      have length := ih.resolve_left (by simp [queued])
      right
      rw [rounds, pop_popped queued]
      simp [length]

theorem rounds_exhausted (chart : Chart) : (chart.rounds chart.size).queue = [] := by
  have orderly := rounds_orderly chart chart.size
  refine (rounds_length chart chart.size).elim id fun length => ?_
  have within : ((chart.rounds chart.size).popped ++ (chart.rounds chart.size).queue).length ≤
      (List.range chart.size).length :=
    orderly.distinct.length_le_of_subset fun node member =>
      List.mem_range.mpr (orderly.inside node member)
  simp only [List.length_append, length, List.length_range] at within
  exact List.length_eq_zero_iff.mp (by omega)

theorem rounds_within (chart : Chart) (count : Nat) :
    (chart.rounds count).popped <+: chart.order := by
  have still : chart.rounds (chart.size + count) = chart.rounds chart.size :=
    rounds_still (rounds_exhausted chart)
  have grow := rounds_grow chart count chart.size
  rwa [Nat.add_comm, still] at grow

/-- Once the queue is empty all nodes that are ever popped have been. -/
theorem order_eq (empty : (chart.rounds count).queue = []) :
    (chart.rounds count).popped = chart.order := by
  have grow := rounds_grow chart chart.size count
  rw [Nat.add_comm, rounds_still empty] at grow
  exact (rounds_within chart count).eq_of_length
    (Nat.le_antisymm (rounds_within chart count).length_le grow.length_le)

end Chart
end Foreman
