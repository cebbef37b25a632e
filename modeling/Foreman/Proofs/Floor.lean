import Foreman.Proofs.PlanRecords

/-! A floor: plans, lease trees and the use that workers make of them. A lease gets
its next node when the last one was completed, each selection is a pass of its own,
and nothing else touches the locks. -/

namespace Foreman

namespace Plan

variable {plan before after : Plan} {node : Nat} {names : List String} {held : List Lock}

def engaged? (plan : Plan) (node : Nat) : Option (List String × List Lock) :=
  plan.entries[node]?.bind fun entry =>
    if entry.node.state = .executing then some (entry.node.resources, entry.node.held) else none

theorem engaged?_iff : plan.engaged? node = some (names, held) ↔
    ∃ entry, plan.entries[node]? = some entry ∧ entry.node.state = .executing ∧
      entry.node.resources = names ∧ entry.node.held = held := by
  simp only [engaged?, Option.bind_eq_some_iff]
  apply exists_congr
  intro entry
  split
  next executing => simp [executing]
  next other => simp [other]

theorem engaged?_none {entry : Entry} (found : plan.entries[node]? = some entry)
    (other : entry.node.state ≠ .executing) : plan.engaged? node = none := by
  simp [engaged?, found, other]

/-- Work on one node leaves alone who else is being executed with which locks. -/
theorem Handles.engaged? {place : Option Nat} (handles : before.Handles place after)
    (other : place ≠ some node) : after.engaged? node = before.engaged? node := by
  cases found : after.entries[node]? with
  | some entry =>
    obtain ⟨earlier, present, links⟩ := handles.keeps.back found
    obtain ⟨held, executing⟩ := handles.others node earlier entry other present found
    simp only [Plan.engaged?, found, present, Option.bind_some, executing, links.resources, held]
  | none =>
    have absent : before.entries[node]? = none := by
      have size := handles.keeps.size
      simp only [Plan.size, List.getElem?_eq_none_iff] at size found ⊢
      omega
    simp only [Plan.engaged?, found, absent]

theorem Calm.engaged? (calm : before.Calm after) (node : Nat) :
    after.engaged? node = before.engaged? node := by
  have handles : before.Handles none after :=
    ⟨calm.keeps, fun position entry later _ => calm.node position entry later⟩
  exact handles.engaged? (by simp)

theorem Idle.engaged? (idle : plan.Idle) (node : Nat) : plan.engaged? node = none := by
  cases found : plan.entries[node]? with
  | none => simp [Plan.engaged?, found]
  | some entry => exact engaged?_none found (by simp [(idle.untouched node entry found).1])

/-- The call works on the plan alone, and takes or gives back no lock. -/
def Operation.isClerical : Operation → Bool
  | .add _ _ _ | .populate | .fail _ _ | .cancel | .abort _ | .collect => true
  | _ => false

theorem Session.perform_clerical (session : Session) (valid : session.plan.Valid) {call : Operation}
    (clerical : call.isClerical = true) :
    (session.perform call).2.plan.Valid ∧
      (session.perform call).2.plan.scope = session.plan.scope ∧
      ∀ node, (session.perform call).2.plan.engaged? node = session.plan.engaged? node := by
  have drifted {after : Plan} (valid : after.Valid) (drifts : session.plan.Drifts after) :
      after.Valid ∧ after.scope = session.plan.scope ∧
        ∀ node, after.engaged? node = session.plan.engaged? node :=
    ⟨valid, drifts.keeps.scope, drifts.calm.engaged?⟩
  cases call with
  | select _ _ | complete _ | locks _ | move _ _ | force _ _ => cases clerical
  | add id deps resources =>
    simp only [perform]
    split
    next after added =>
      have later := valid.add added
      obtain ⟨fresh, positions, _, rfl⟩ := add_attached added
      refine ⟨later, rfl, fun node => ?_⟩
      rw [(later.idle fresh).engaged? node, (valid.idle fresh).engaged? node]
    · exact ⟨valid, rfl, fun _ => rfl⟩
  | populate => exact drifted valid.populate.1 valid.populate.2.1
  | fail position failure =>
    have calm := failAll_calm session.plan position [failure]
    exact ⟨valid.failNode position failure, calm.keeps.scope, calm.engaged?⟩
  | cancel => exact drifted valid.cancel (cancel_drifts _)
  | abort failure => exact drifted (valid.abort failure) (abort_drifts _ failure)
  | collect => exact drifted valid.collect (collect_drifts _)

end Plan

structure Ticket where
  lease : Lease
  place : Nat
  node : Nat
  deriving DecidableEq

structure Floor where
  locks : Locks := {}
  /-- The scope of a plan is its place here. -/
  plans : List Plan := []
  /-- The nodes that were selected and not completed since. -/
  out : List Ticket := []
  deriving DecidableEq, Inhabited

namespace Floor

inductive Act where
  | plant (name : String) (budget : Int)
  | enter (name : String) (rule : Bool)
  | hire (parent : Lease)
  | tend (place : Nat) (call : Plan.Operation)
  | select (place : Nat) (lease : Lease)
  | complete (place node : Nat)

/-- A selection is a pass of its own, which keeps its locks if it returns a node and
gives them back if it does not. The lease must have completed its last node. -/
def select (floor : Floor) (place : Nat) (lease : Lease) : Option (Option Nat × Floor) :=
  floor.plans[place]?.bind fun plan =>
    if ∀ ticket ∈ floor.out, ticket.lease ≠ lease then
      match plan.select lease { locks := floor.locks } with
      | (.ok (some node), plan, pass) =>
        some (some node,
          { floor with
            locks := pass.commit.locks
            plans := floor.plans.set place plan
            out := ⟨lease, place, node⟩ :: floor.out })
      | (_, plan, pass) =>
        some (none,
          { floor with locks := pass.release.locks, plans := floor.plans.set place plan })
    else none

def complete (floor : Floor) (place node : Nat) : Option Floor :=
  floor.plans[place]?.map fun plan =>
    { floor with
      locks := (plan.complete node floor.locks).2
      plans := floor.plans.set place (plan.complete node floor.locks).1
      out := floor.out.filter fun ticket => ¬ (ticket.place = place ∧ ticket.node = node) }

def step (floor : Floor) : Act → Option Floor
  | .plant name budget =>
    match floor.locks.createTree name budget with
    | .ok (_, locks) => some { floor with locks }
    | .error _ => none
  | .enter name rule =>
    some { floor with plans := floor.plans ++ [.empty name floor.plans.length rule] }
  | .hire parent => some { floor with locks := (floor.locks.createChild parent).2 }
  | .tend place call =>
    floor.plans[place]?.bind fun plan =>
      if call.isClerical then
        some { floor with plans := floor.plans.set place (Plan.Session.perform { plan } call).2.plan }
      else none
  | .select place lease => (floor.select place lease).map (·.2)
  | .complete place node => floor.complete place node

def play (floor : Floor) : List Act → Option Floor
  | [] => some floor
  | act :: rest => (floor.step act).bind (·.play rest)

def engaged? (floor : Floor) (place node : Nat) : Option (List String × List Lock) :=
  floor.plans[place]?.bind (·.engaged? node)

def locksOf (floor : Floor) (place node : Nat) : List Lock :=
  ((floor.engaged? place node).map (·.2)).getD []

end Floor

def Ticket.locks (ticket : Ticket) (names : List String) : List Lock :=
  .lease ticket.lease :: names.map (.resource ticket.place)

namespace Floor

variable {floor after : Floor} {place node : Nat} {plan new : Plan} {lease : Lease}
  {names : List String} {held : List Lock} {lock : Lock} {ticket : Ticket}

/-- What holds of a floor between two acts. The nodes that are out are those that
are being executed, and they hold all locked locks, each of them one. -/
structure Kept (floor : Floor) : Prop where
  sound : floor.locks.Sound
  plans : ∀ (place : Nat) (plan : Plan), floor.plans[place]? = some plan →
    plan.Valid ∧ plan.scope = place
  distinct : floor.out.Nodup
  sent : ∀ ticket ∈ floor.out, ∃ names,
    floor.engaged? ticket.place ticket.node = some (names, ticket.locks names)
  engaged : ∀ (place node : Nat) (names : List String) (held : List Lock),
    floor.engaged? place node = some (names, held) → ∃ lease, ⟨lease, place, node⟩ ∈ floor.out
  locked : ∀ lock, floor.locks.isLocked lock ↔
    ∃ ticket ∈ floor.out, lock ∈ floor.locksOf ticket.place ticket.node
  apart : ∀ ticket ∈ floor.out, ∀ rival ∈ floor.out, ∀ lock,
    lock ∈ floor.locksOf ticket.place ticket.node → lock ∈ floor.locksOf rival.place rival.node →
    ticket = rival

theorem locksOf_eq (engaged : floor.engaged? place node = some (names, held)) :
    floor.locksOf place node = held := by
  simp [locksOf, engaged]

theorem engaged?_eq (found : floor.plans[place]? = some plan) (node : Nat) :
    floor.engaged? place node = plan.engaged? node := by
  simp [engaged?, found]

theorem Kept.holds_lease (kept : floor.Kept) (member : ticket ∈ floor.out) :
    .lease ticket.lease ∈ floor.locksOf ticket.place ticket.node := by
  obtain ⟨names, engaged⟩ := kept.sent ticket member
  rw [locksOf_eq engaged]
  exact List.mem_cons_self

/-- No two leases were given the same node. -/
theorem Kept.sole (kept : floor.Kept) (member : ticket ∈ floor.out) {rival : Ticket}
    (other : rival ∈ floor.out) (place : rival.place = ticket.place)
    (node : rival.node = ticket.node) : rival = ticket := by
  have holds := kept.holds_lease other
  apply kept.apart rival other ticket member _ holds
  rwa [place, node] at holds

/-- The lease of a node that is out is locked, and no other lease is. -/
theorem Kept.lease_locked (kept : floor.Kept) :
    floor.locks.isLocked (.lease lease) ↔ ∃ ticket ∈ floor.out, ticket.lease = lease := by
  rw [kept.locked]
  constructor
  · intro locked
    obtain ⟨ticket, member, holds⟩ := locked
    obtain ⟨names, engaged⟩ := kept.sent ticket member
    rw [locksOf_eq engaged] at holds
    refine ⟨ticket, member, ?_⟩
    simpa [Ticket.locks, eq_comm] using holds
  · intro out
    obtain ⟨ticket, member, rfl⟩ := out
    exact ⟨ticket, member, kept.holds_lease member⟩

/-! What one act does, seen from the nodes that are out. -/

theorem Kept.still (kept : floor.Kept) (out : after.out = floor.out) (alike : floor.locks.Alike after.locks)
    (sound : after.locks.Sound)
    (plans : ∀ (place : Nat) (plan : Plan), after.plans[place]? = some plan →
      plan.Valid ∧ plan.scope = place)
    (same : ∀ place node, after.engaged? place node = floor.engaged? place node) :
    after.Kept := by
  have holds (place node : Nat) : after.locksOf place node = floor.locksOf place node := by
    rw [locksOf, same, locksOf]
  refine ⟨sound, plans, out ▸ kept.distinct, ?_, ?_, ?_, ?_⟩
  · simp only [out, same]
    exact kept.sent
  · simp only [out, same]
    exact kept.engaged
  · intro lock
    simp only [out, holds]
    rw [alike, kept.locked]
  · simp only [out, holds]
    exact kept.apart

/-- A node was sent out with its locks, which were free. -/
theorem Kept.send (kept : floor.Kept) (ticket : Ticket) (names : List String)
    (out : after.out = ticket :: floor.out)
    (sound : after.locks.Sound)
    (plans : ∀ (place : Nat) (plan : Plan), after.plans[place]? = some plan →
      plan.Valid ∧ plan.scope = place)
    (idle : floor.engaged? ticket.place ticket.node = none)
    (busy : after.engaged? ticket.place ticket.node = some (names, ticket.locks names))
    (others : ∀ place node, ¬ (place = ticket.place ∧ node = ticket.node) →
      after.engaged? place node = floor.engaged? place node)
    (free : ∀ lock ∈ ticket.locks names, ¬ floor.locks.isLocked lock)
    (locked : ∀ lock, after.locks.isLocked lock ↔
      lock ∈ ticket.locks names ∨ floor.locks.isLocked lock) : after.Kept := by
  have elsewhere (rival : Ticket) (member : rival ∈ floor.out) :
      ¬ (rival.place = ticket.place ∧ rival.node = ticket.node) := by
    intro same
    obtain ⟨names, engaged⟩ := kept.sent rival member
    rw [same.1, same.2, idle] at engaged
    cases engaged
  have own := locksOf_eq busy
  have holds (rival : Ticket) (member : rival ∈ floor.out) :
      after.locksOf rival.place rival.node = floor.locksOf rival.place rival.node := by
    rw [locksOf, others _ _ (elsewhere rival member), locksOf]
  have clear (rival : Ticket) (member : rival ∈ floor.out) (lock : Lock)
      (mine : lock ∈ ticket.locks names) : lock ∉ floor.locksOf rival.place rival.node :=
    fun theirs => free lock mine ((kept.locked lock).mpr ⟨rival, member, theirs⟩)
  refine ⟨sound, plans, ?_, ?_, ?_, ?_, ?_⟩
  · rw [out]
    exact List.nodup_cons.mpr ⟨fun member => elsewhere ticket member ⟨rfl, rfl⟩, kept.distinct⟩
  · intro rival member
    rw [out] at member
    rcases List.mem_cons.mp member with rfl | member
    · exact ⟨names, busy⟩
    · rw [others _ _ (elsewhere rival member)]
      exact kept.sent rival member
  · intro place node names held engaged
    rw [out]
    by_cases here : place = ticket.place ∧ node = ticket.node
    · obtain ⟨rfl, rfl⟩ := here
      exact ⟨ticket.lease, List.mem_cons_self⟩
    · rw [others place node here] at engaged
      obtain ⟨lease, member⟩ := kept.engaged place node names held engaged
      exact ⟨lease, List.mem_cons_of_mem _ member⟩
  · intro lock
    rw [locked, kept.locked, out]
    constructor
    · rintro (mine | ⟨rival, member, theirs⟩)
      · exact ⟨ticket, List.mem_cons_self, own ▸ mine⟩
      · exact ⟨rival, List.mem_cons_of_mem _ member, holds rival member ▸ theirs⟩
    · rintro ⟨rival, member, theirs⟩
      rcases List.mem_cons.mp member with rfl | member
      · exact Or.inl (own ▸ theirs)
      · exact Or.inr ⟨rival, member, holds rival member ▸ theirs⟩
  · intro first one second two lock mine theirs
    rw [out, List.mem_cons] at one two
    rcases one with rfl | one
    · rcases two with rfl | two
      · rfl
      · rw [own] at mine
        rw [holds second two] at theirs
        exact absurd theirs (clear second two lock mine)
    · rw [holds first one] at mine
      rcases two with rfl | two
      · rw [own] at theirs
        exact absurd mine (clear first one lock theirs)
      · rw [holds second two] at theirs
        exact kept.apart first one second two lock mine theirs

/-- A node came back, and its locks are given back with it. -/
theorem Kept.recall (kept : floor.Kept) (member : ticket ∈ floor.out)
    (out : after.out = floor.out.filter fun rival =>
      ¬ (rival.place = ticket.place ∧ rival.node = ticket.node))
    (sound : after.locks.Sound)
    (plans : ∀ (place : Nat) (plan : Plan), after.plans[place]? = some plan →
      plan.Valid ∧ plan.scope = place)
    (done : after.engaged? ticket.place ticket.node = none)
    (others : ∀ place node, ¬ (place = ticket.place ∧ node = ticket.node) →
      after.engaged? place node = floor.engaged? place node)
    (locked : ∀ lock, after.locks.isLocked lock ↔
      lock ∉ floor.locksOf ticket.place ticket.node ∧ floor.locks.isLocked lock) : after.Kept := by
  have stays (rival : Ticket) : rival ∈ after.out ↔
      rival ∈ floor.out ∧ ¬ (rival.place = ticket.place ∧ rival.node = ticket.node) := by
    rw [out, List.mem_filter, decide_eq_true_eq]
  have holds (rival : Ticket) (stays : ¬ (rival.place = ticket.place ∧ rival.node = ticket.node)) :
      after.locksOf rival.place rival.node = floor.locksOf rival.place rival.node := by
    rw [locksOf, others _ _ stays, locksOf]
  refine ⟨sound, plans, ?_, ?_, ?_, ?_, ?_⟩
  · rw [out]
    exact kept.distinct.filter _
  · intro rival out
    obtain ⟨out, elsewhere⟩ := (stays rival).mp out
    rw [others _ _ elsewhere]
    exact kept.sent rival out
  · intro place node names held engaged
    by_cases here : place = ticket.place ∧ node = ticket.node
    · rw [here.1, here.2, done] at engaged
      cases engaged
    · rw [others place node here] at engaged
      obtain ⟨lease, out⟩ := kept.engaged place node names held engaged
      exact ⟨lease, (stays _).mpr ⟨out, here⟩⟩
  · intro lock
    rw [locked, kept.locked]
    constructor
    · rintro ⟨free, rival, out, theirs⟩
      have elsewhere : ¬ (rival.place = ticket.place ∧ rival.node = ticket.node) := by
        intro here
        rw [here.1, here.2] at theirs
        exact free theirs
      exact ⟨rival, (stays rival).mpr ⟨out, elsewhere⟩, holds rival elsewhere ▸ theirs⟩
    · rintro ⟨rival, out, theirs⟩
      obtain ⟨out, elsewhere⟩ := (stays rival).mp out
      rw [holds rival elsewhere] at theirs
      refine ⟨fun mine => ?_, rival, out, theirs⟩
      have same := kept.apart rival out ticket member lock theirs mine
      exact elsewhere ⟨congrArg Ticket.place same, congrArg Ticket.node same⟩
  · intro first out second again lock mine theirs
    obtain ⟨out, elsewhere⟩ := (stays first).mp out
    obtain ⟨again, other⟩ := (stays second).mp again
    rw [holds first elsewhere] at mine
    rw [holds second other] at theirs
    exact kept.apart first out second again lock mine theirs

end Floor
end Foreman
