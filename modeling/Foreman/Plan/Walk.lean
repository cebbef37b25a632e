/-! Walking a graph from a start. The walk keeps a stack of places still to be
looked at and the list of places that it has met, so that it comes to each place
once however many paths lead there. -/

namespace Foreman.Walk

/-- Those of the candidates below `bound` that were not met before, each once. -/
def fresh (bound : Nat) (met : List Nat) : List Nat → List Nat
  | [] => []
  | place :: rest =>
    if place < bound ∧ place ∉ met then place :: fresh bound (place :: met) rest
    else fresh bound met rest

/-- How many places the walk has not met. -/
def unmet (bound : Nat) (met : List Nat) : Nat := (List.range bound).countP (· ∉ met)

private theorem countP_lt_of_mem {p q : Nat → Bool} {l : List Nat} (place : Nat)
    (weaker : ∀ i, p i = true → q i = true) (member : place ∈ l)
    (now : p place = false) (before : q place = true) : l.countP p < l.countP q := by
  induction l with
  | nil => cases member
  | cons head tail ih =>
    have mono : tail.countP p ≤ tail.countP q := List.countP_mono_left fun i _ => weaker i
    rw [List.countP_cons, List.countP_cons]
    rcases List.mem_cons.mp member with rfl | member
    · rw [now, before, if_neg Bool.false_ne_true, if_pos rfl]
      omega
    · have := ih member
      cases holds : p head with
      | false => rw [if_neg Bool.false_ne_true]; omega
      | true => rw [weaker head holds, if_pos rfl]; omega

theorem unmet_cons_lt {bound place : Nat} {met : List Nat} (inside : place < bound)
    (absent : place ∉ met) : unmet bound (place :: met) < unmet bound met :=
  countP_lt_of_mem place
    (fun i hidden => by
      rw [decide_eq_true_eq] at hidden ⊢
      exact fun earlier => hidden (List.mem_cons_of_mem _ earlier))
    (List.mem_range.mpr inside)
    (decide_eq_false fun hidden => hidden List.mem_cons_self) (decide_eq_true absent)

/-- Each fresh place is one that the walk had not met. -/
theorem unmet_fresh (bound : Nat) (met candidates : List Nat) :
    unmet bound ((fresh bound met candidates).reverse ++ met) +
      (fresh bound met candidates).length ≤ unmet bound met := by
  induction candidates generalizing met with
  | nil => exact Nat.le_refl _
  | cons place rest ih =>
    unfold fresh
    split
    · rename_i new
      have fewer := unmet_cons_lt new.1 new.2
      have later := ih (place :: met)
      rw [List.reverse_cons, List.append_assoc, List.singleton_append, List.length_cons]
      omega
    · exact ih met

/-- The places that the walk comes to, in order. `next` gives the places to go
to from a place, and the place pushed last is the first to be looked at. -/
def walk (next : Nat → List Nat) (bound : Nat) (stack met : List Nat) : List Nat :=
  match stack with
  | [] => []
  | place :: rest =>
    let found := (fresh bound met (next place)).reverse
    place :: walk next bound (found ++ rest) (found ++ met)
termination_by 2 * unmet bound met + stack.length
decreasing_by
  have := unmet_fresh bound met (next place)
  simp only [List.length_append, List.length_reverse, List.length_cons]
  omega

end Foreman.Walk
