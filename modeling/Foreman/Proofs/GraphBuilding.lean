import Foreman.Proofs.FailureSpread
import Mathlib.Data.List.Nodup

/-! Building the graph of a plan. What the plan knows of its nodes is what the accepted
additions said of them, in their order. A node is refused without a trace, and an accepted
one becomes known to each node that it names, as often as it names it. -/

namespace Foreman.Plan

variable {plan before after : Plan} {position dep : Nat} {entry : Entry} {id name : String}
  {names resources : List String} {deps : List Nat}

/-- What a node is added with: the ids of what it depends on, one for each mention, and
the names of its resources. -/
structure Addition where
  id : String
  deps : List String
  resources : List String
  deriving DecidableEq

def known (plan : Plan) : List String := plan.entries.map (·.node.id)

/-- What the plan knows of the additions, in their order. -/
def blueprint (plan : Plan) : List Addition :=
  plan.entries.map fun entry =>
    { id := entry.node.id, deps := plan.ids entry.node.deps, resources := entry.node.resources }

/-- The plan takes new nodes, and the id and the dependencies suit it. -/
structure Admits (plan : Plan) (id : String) (names : List String) : Prop where
  unstarted : plan.started = false
  named : id ≠ ""
  fresh : id ∉ plan.known
  resolved : ∀ name ∈ names, name ∈ plan.known

/-! Ids and positions. -/

theorem known_eq (plan : Plan) : plan.known = plan.blueprint.map (·.id) := by
  simp [known, blueprint]

theorem position?_isSome : (plan.position? id).isSome ↔ id ∈ plan.known := by
  simp [position?, List.findIdx?_isSome, known]

theorem position?_found (found : plan.position? id = some position) :
    ∃ entry, plan.entries[position]? = some entry ∧ entry.node.id = id := by
  obtain ⟨inside, same, _⟩ := List.findIdx?_eq_some_iff_getElem.mp found
  exact ⟨_, List.getElem?_eq_getElem inside, by simpa using same⟩

theorem ids_cons (found : plan.entries[position]? = some entry) (deps : List Nat) :
    plan.ids (position :: deps) = entry.node.id :: plan.ids deps := by
  rw [ids, List.filterMap_cons, node?_eq found]
  rfl

theorem mem_ids : id ∈ plan.ids deps ↔
    ∃ dep ∈ deps, ∃ entry, plan.entries[dep]? = some entry ∧ entry.node.id = id := by
  simp [ids, node?]

theorem ids_congr (same : ∀ dep ∈ deps,
    (after.node? dep).map (·.id) = (before.node? dep).map (·.id)) : after.ids deps = before.ids deps :=
  List.filterMap_congr same

/-- Where ids differ from each other, an id occurs as often as its position. -/
theorem count_ids (distinct : plan.known.Nodup) (found : plan.entries[position]? = some entry)
    (inside : ∀ dep ∈ deps, dep < plan.size) :
    (plan.ids deps).count entry.node.id = deps.count position := by
  induction deps with
  | nil => rfl
  | cons dep rest ih =>
    have place : dep < plan.entries.length := inside dep List.mem_cons_self
    obtain ⟨own, same⟩ := List.getElem?_eq_some_iff.mp found
    have present := List.getElem?_eq_getElem place
    have other : plan.entries[dep].node.id = entry.node.id ↔ dep = position := by
      have first : dep < plan.known.length := by simpa [known] using place
      have second : position < plan.known.length := by simpa [known] using own
      have alone : plan.known[dep] = plan.known[position] ↔ dep = position :=
        distinct.getElem_inj_iff
      simpa [known, same] using alone
    rw [ids_cons present, List.count_cons, List.count_cons,
      ih fun dep member => inside dep (List.mem_cons_of_mem _ member)]
    simp only [beq_iff_eq, other]

/-! Resolving names. -/

theorem resolve_cons_ok : plan.resolve id (name :: names) = .ok deps ↔
    name ≠ id ∧ ∃ position, plan.position? name = some position ∧
      ∃ rest, plan.resolve id names = .ok rest ∧ deps = position :: rest := by
  simp only [resolve]
  split
  next own => simp [own]
  next other =>
    cases found : plan.position? name with
    | none => simp
    | some position =>
      cases plan.resolve id names with
      | error refusal => simp [Except.map]
      | ok rest => simp [Except.map, other, eq_comm]

theorem resolve_ids (resolved : plan.resolve id names = .ok deps) : plan.ids deps = names := by
  induction names generalizing deps with
  | nil =>
    cases resolved
    rfl
  | cons name names ih =>
    obtain ⟨_, position, found, rest, later, rfl⟩ := resolve_cons_ok.mp resolved
    obtain ⟨entry, present, same⟩ := position?_found found
    rw [ids_cons present, same, ih later]

theorem resolve_iff : (∃ deps, plan.resolve id names = .ok deps) ↔
    ∀ name ∈ names, name ≠ id ∧ name ∈ plan.known := by
  induction names with
  | nil => simp [resolve]
  | cons name names ih =>
    rw [List.forall_mem_cons, ← ih, ← position?_isSome, Option.isSome_iff_exists]
    simp only [resolve_cons_ok]
    constructor
    · rintro ⟨deps, other, position, found, rest, later, _⟩
      exact ⟨⟨other, position, found⟩, rest, later⟩
    · rintro ⟨⟨other, position, found⟩, rest, later⟩
      exact ⟨position :: rest, other, position, found, rest, later, rfl⟩

/-! Adding a node. -/

/-- The plan has one node more, which the nodes that it names know of. Nothing else is
new. -/
structure Extends (plan : Plan) (addition : Addition) (after : Plan) : Prop where
  rest : after = { plan with entries := after.entries, remaining := plan.remaining + 1 }
  size : after.size = plan.size + 1
  older : ∀ (position : Nat) (entry : Entry), plan.entries[position]? = some entry →
    after.entries[position]? = some
      { entry with
        dependents := entry.dependents ++
          List.replicate (addition.deps.count entry.node.id) plan.size }
  newest : ∃ deps, (∀ dep ∈ deps, dep < plan.size) ∧ plan.ids deps = addition.deps ∧
    after.entries[plan.size]? = some
      { node := { id := addition.id, deps, resources := addition.resources } }

theorem add_iff : (∃ after, plan.add id names resources = .ok after) ↔ plan.Admits id names := by
  have suits : plan.Admits id names ↔ plan.started = false ∧ id ≠ "" ∧ id ∉ plan.known ∧
      ∃ deps, plan.resolve id names = .ok deps := by
    rw [resolve_iff]
    constructor
    · rintro ⟨unstarted, named, fresh, resolved⟩
      exact ⟨unstarted, named, fresh, fun name member =>
        ⟨fun own => fresh (own ▸ resolved name member), resolved name member⟩⟩
    · rintro ⟨unstarted, named, fresh, resolved⟩
      exact ⟨unstarted, named, fresh, fun name member => (resolved name member).2⟩
  rw [suits, add, ← position?_isSome]
  cases plan.started <;> by_cases named : id = "" <;> cases (plan.position? id).isSome <;>
    cases plan.resolve id names <;> simp [named, Except.map]

theorem add_extends (distinct : plan.known.Nodup) (added : plan.add id names resources = .ok after) :
    plan.Extends { id, deps := names, resources } after := by
  simp only [add] at added
  split at added
  · cases added
  · split at added
    · cases added
    · split at added
      · cases added
      · cases resolved : plan.resolve id names with
        | error refusal =>
          rw [resolved] at added
          cases added
        | ok deps =>
          rw [resolved] at added
          cases added
          refine ⟨rfl, attach_size, fun position entry found => ?_, deps, resolve_lt resolved,
            resolve_ids resolved, ?_⟩
          · have inside : position < plan.size := (List.getElem?_eq_some_iff.mp found).1
            rw [attach_found, if_neg (Nat.ne_of_lt inside), found, Option.map_some,
              ← resolve_ids resolved, count_ids distinct found (resolve_lt resolved)]
          · rw [attach_found, if_pos rfl]

/-! What the plan knows of the additions. -/

theorem Keeps.ids (keeps : before.Keeps after) (deps : List Nat) : after.ids deps = before.ids deps := by
  refine ids_congr fun dep _ => ?_
  cases found : after.entries[dep]? with
  | some entry =>
    obtain ⟨earlier, present, links⟩ := keeps.back found
    rw [node?_eq found, node?_eq present, Option.map_some, Option.map_some, links.id]
  | none => simp [node?, found, keeps.absent found]

theorem Keeps.blueprint (keeps : before.Keeps after) : after.blueprint = before.blueprint := by
  apply List.ext_getElem?
  intro position
  rw [Plan.blueprint, Plan.blueprint, List.getElem?_map, List.getElem?_map]
  cases found : before.entries[position]? with
  | some entry =>
    obtain ⟨later, present, links⟩ := keeps.entry position entry found
    simp only [present, Option.map_some, links.id, links.deps, links.resources, keeps.ids]
  | none =>
    have absent : after.entries[position]? = none := by
      have size := keeps.size
      simp only [Plan.size, List.getElem?_eq_none_iff] at size found ⊢
      omega
    rw [absent, Option.map_none, Option.map_none]

theorem blueprint_length (plan : Plan) : plan.blueprint.length = plan.size := List.length_map _

theorem Extends.blueprint {addition : Addition} (grown : plan.Extends addition after)
    (graph : plan.Graph) : after.blueprint = plan.blueprint ++ [addition] := by
  obtain ⟨deps, earlier, resolved, last⟩ := grown.newest
  have older (position : Nat) (inside : position < plan.size) :
      (after.node? position).map (·.id) = (plan.node? position).map (·.id) := by
    have present := List.getElem?_eq_getElem inside
    rw [node?_eq present, node?_eq (grown.older position _ present)]
  apply List.ext_getElem?
  intro position
  rcases Nat.lt_trichotomy position plan.size with inside | rfl | outside
  · obtain ⟨entry, present⟩ : ∃ entry, plan.entries[position]? = some entry :=
      ⟨_, List.getElem?_eq_getElem inside⟩
    have same : after.ids entry.node.deps = plan.ids entry.node.deps := by
      refine ids_congr fun dep member => older dep ?_
      rw [← depsOf_eq present] at member
      exact Nat.lt_trans (graph.earlier position dep member) inside
    rw [List.getElem?_append_left (plan.blueprint_length ▸ inside), Plan.blueprint, Plan.blueprint,
      List.getElem?_map, List.getElem?_map, grown.older position _ present, present]
    simp only [Option.map_some, same]
  · have same : after.ids deps = plan.ids deps :=
      ids_congr fun dep member => older dep (earlier dep member)
    rw [List.getElem?_append_right (Nat.le_of_eq plan.blueprint_length), plan.blueprint_length,
      Plan.blueprint, List.getElem?_map, last]
    simp [same, resolved]
  · rw [List.getElem?_eq_none_iff.mpr, List.getElem?_eq_none_iff.mpr]
    · rw [List.length_append, blueprint_length, List.length_singleton]
      exact outside
    · rw [blueprint_length, grown.size]
      exact outside

theorem Extends.known {addition : Addition} (grown : plan.Extends addition after)
    (graph : plan.Graph) : after.known = plan.known ++ [addition.id] := by
  simp [known_eq, grown.blueprint graph]

/-! The graph by ids. -/

/-- A node names none but earlier ones. -/
theorem Graph.precedes (graph : plan.Graph) {earlier later : List Addition} {addition : Addition}
    (split : plan.blueprint = earlier ++ addition :: later) :
    ∀ name ∈ addition.deps, name ∈ earlier.map (·.id) := by
  have place : plan.blueprint[earlier.length]? = some addition := by simp [split]
  rw [blueprint, List.getElem?_map] at place
  obtain ⟨entry, found, rfl⟩ := Option.map_eq_some_iff.mp place
  intro name member
  obtain ⟨dep, named, other, present, rfl⟩ := mem_ids.mp member
  have before : dep < earlier.length := graph.earlier _ dep (depsOf_eq found ▸ named)
  have part : plan.known[dep]? = (earlier.map (·.id))[dep]? := by
    rw [known_eq, split, List.map_append, List.getElem?_append_left (by simpa using before)]
  rw [known, List.getElem?_map, present] at part
  exact List.mem_of_getElem? part.symm

/-- Each node knows, in order, who names it, once for each mention. -/
theorem Graph.dependents_ids (graph : plan.Graph) (distinct : plan.known.Nodup)
    (found : plan.entries[position]? = some entry) : plan.ids entry.dependents =
      plan.blueprint.flatMap fun other =>
        List.replicate (other.deps.count entry.node.id) other.id := by
  have mention (other : Nat) (inside : other < plan.entries.length) :
      plan.ids (List.replicate ((plan.depsOf other).count position) other) =
        List.replicate ((plan.ids plan.entries[other].node.deps).count entry.node.id)
          plan.entries[other].node.id := by
    have present := List.getElem?_eq_getElem inside
    have within : ∀ dep ∈ plan.entries[other].node.deps, dep < plan.size := fun dep member =>
      Nat.lt_trans (graph.earlier other dep (depsOf_eq present ▸ member)) inside
    rw [count_ids distinct found within, depsOf_eq present]
    simp [ids, node?_eq present]
  rw [graph.dependents position entry found, mentions, ids, List.filterMap_flatMap,
    List.flatMap_def, List.flatMap_def]
  congr 1
  refine List.ext_getElem (by simp [blueprint, size]) fun other first second => ?_
  simpa [blueprint, ids] using mention other (by simpa [size] using first)

theorem Graph.acyclic (graph : plan.Graph) (node : Nat) : ¬ plan.DependsOn node node := by
  have before {node dep : Nat} (depends : plan.DependsOn node dep) : dep < node := by
    induction depends with
    | single direct => exact graph.earlier _ _ direct
    | tail _ direct ih => exact Nat.lt_trans (graph.earlier _ _ direct) ih
  exact fun depends => Nat.lt_irrefl node (before depends)

namespace Session

variable {session start : Session} {call : Operation} {calls : List Operation} {new : Entry}

def accepted? (session : Session) : Operation → Option Addition
  | .add id deps resources =>
    match session.plan.add id deps resources with
    | .ok _ => some { id, deps, resources }
    | .error _ => none
  | _ => none

/-- The accepted additions, in order. -/
def additions (start : Session) (calls : List Operation) : List Addition :=
  (start.chronicle calls).filterMap fun step => step.1.accepted? step.2

theorem additions_concat (start : Session) (calls : List Operation) (call : Operation) :
    start.additions (calls ++ [call]) =
      start.additions calls ++ ((start.run calls).accepted? call).toList := by
  rw [additions, chronicle_concat, List.filterMap_append]
  cases accepted : (start.run calls).accepted? call <;> simp [additions, accepted]

/-! One call. -/

theorem perform_built (valid : session.plan.Valid) (distinct : session.plan.known.Nodup)
    (orderly : call.isOrderly = true) :
    (session.perform call).2.plan.blueprint =
        session.plan.blueprint ++ (session.accepted? call).toList ∧
      (session.perform call).2.plan.known.Nodup := by
  cases call with
  | move _ _ | force _ _ => cases orderly
  | add id deps resources =>
    simp only [perform, accepted?]
    cases added : session.plan.add id deps resources with
    | error refusal => simp [distinct]
    | ok after =>
      have grown := add_extends distinct added
      have fresh := (add_iff.mp ⟨after, added⟩).fresh
      refine ⟨grown.blueprint valid.coherent.graph, ?_⟩
      rw [grown.known valid.coherent.graph, ← List.concat_eq_append]
      exact distinct.concat fresh
  | populate | select _ _ | complete _ | fail _ _ | cancel | abort _ | collect | locks _ =>
    have keeps := (perform_keeps valid orderly).resolve_left (by simp)
    rw [known_eq, keeps.blueprint, ← known_eq]
    exact ⟨(List.append_nil _).symm, distinct⟩

/-- What a node holds it held before the call, or the call has selected it. -/
theorem perform_held (valid : session.plan.Valid) (orderly : call.isOrderly = true)
    (found : (session.perform call).2.plan.entries[position]? = some new) :
    new.node.held = [] ∨
      (∃ old, session.plan.entries[position]? = some old ∧ new.node.held = old.node.held ∧
        new.node.resources = old.node.resources) ∨
      ∃ lease, new.node.held = .lease lease :: new.node.resources.map session.plan.resourceLock := by
  have drifted {after : Plan} (drifts : session.plan.Drifts after)
      (found : after.entries[position]? = some new) :
      ∃ old, session.plan.entries[position]? = some old ∧ new.node.held = old.node.held ∧
        new.node.resources = old.node.resources := by
    obtain ⟨old, present, links, drift⟩ := drifts.back found
    exact ⟨old, present, drift.held, links.resources⟩
  cases call with
  | move _ _ | force _ _ => cases orderly
  | populate => exact Or.inr (Or.inl (drifted valid.populate.2.1 found))
  | cancel => exact Or.inr (Or.inl (drifted (cancel_drifts _) found))
  | abort failure => exact Or.inr (Or.inl (drifted (abort_drifts _ failure) found))
  | collect => exact Or.inr (Or.inl (drifted (collect_drifts _) found))
  | locks command => exact Or.inr (Or.inl ⟨new, found, rfl, rfl⟩)
  | add id deps resources =>
    simp only [perform] at found
    split at found
    next after added =>
      obtain ⟨_, positions, _, rfl⟩ := add_attached added
      rw [attach_found] at found
      split at found
      · cases found
        exact Or.inl rfl
      · obtain ⟨old, present, rfl⟩ := Option.map_eq_some_iff.mp found
        exact Or.inr (Or.inl ⟨old, present, rfl, rfl⟩)
    · exact Or.inr (Or.inl ⟨new, found, rfl, rfl⟩)
  | select lease book =>
    rcases perform_select valid lease book with ⟨_, same⟩ | ⟨node, entry, present, ready, _, hands⟩
    · rw [same] at found
      exact Or.inr (Or.inl ⟨new, found, rfl, rfl⟩)
    · rw [hands, (Replaces.hand valid.coherent lease present ready).lookup] at found
      split at found
      · cases found
        exact Or.inr (Or.inr ⟨lease, rfl⟩)
      · exact Or.inr (Or.inl ⟨new, found, rfl, rfl⟩)
  | fail node failure =>
    simp only [perform, failNode_lookup] at found
    obtain ⟨old, present, rfl⟩ := Option.map_eq_some_iff.mp found
    refine Or.inr (Or.inl ⟨old, present, ?_⟩)
    split <;> exact ⟨rfl, rfl⟩
  | complete node =>
    simp only [perform] at found
    rcases complete_cases valid node session.desk.locks with ⟨_, _, _, _, ends⟩ | ⟨_, same⟩
    · by_cases own : position = node
      · subst own
        obtain ⟨later, again, _, empty, _⟩ := ends.own
        cases Option.some.inj (again.symm.trans found)
        exact Or.inl empty
      · obtain ⟨old, present, links⟩ := ends.keeps.back found
        have drift := ends.others position old new own present found
        exact Or.inr (Or.inl ⟨old, present, drift.held, links.resources⟩)
    · rw [same, modifyNode, entries_modify] at found
      split at found
      · obtain ⟨old, _, rfl⟩ := Option.map_eq_some_iff.mp found
        exact Or.inl rfl
      · exact Or.inr (Or.inl ⟨new, found, rfl, rfl⟩)

/-! Any calls on a fresh plan. -/

private structure Builds (start : Session) (place : Nat) (calls : List Operation) : Prop where
  scope : (start.run calls).plan.scope = place
  blueprint : (start.run calls).plan.blueprint = start.additions calls
  distinct : (start.run calls).plan.known.Nodup
  held : ∀ (position : Nat) (entry : Entry), (start.run calls).plan.entries[position]? = some entry →
    entry.node.held = [] ∨
      ∃ lease, entry.node.held = .lease lease :: entry.node.resources.map (.resource place)

private theorem Builds.concat {place : Nat} (builds : start.Builds place calls)
    (valid : (start.run calls).plan.Valid) (orderly : call.isOrderly = true) :
    start.Builds place (calls ++ [call]) := by
  obtain ⟨blueprint, distinct⟩ := perform_built valid builds.distinct orderly
  rw [builds.blueprint, ← additions_concat, ← run_concat] at blueprint
  rw [← run_concat] at distinct
  refine ⟨?_, blueprint, distinct, fun position new found => ?_⟩
  · rw [run_concat, (perform_settings valid orderly).2.1, builds.scope]
  · rw [run_concat] at found
    rcases perform_held valid orderly found with
      empty | ⟨old, present, same, resources⟩ | ⟨lease, takes⟩
    · exact Or.inl empty
    · rw [same, resources]
      exact builds.held position old present
    · refine Or.inr ⟨lease, takes.trans ?_⟩
      rw [← builds.scope]
      rfl

/-- Whatever is called on a fresh plan and on the locks, a node may be added if and only
if enumeration has not begun, its id is new and not empty, and all that it names was added
before. If so, it is made known to what it names and nothing else changes; if not, nothing
does. What the plan knows are the accepted additions in their order. So ids differ from
each other, a node names earlier ones only, and none depends on itself in any number of
steps. Each node has as its dependents, in order, those that name it, once for each
mention. Each resource has one lock, whoever names it: nodes ask for the locks of their
resources, and besides a lease those are what they ever hold. -/
theorem graph_as_added (name : String) (scope : Nat) (rule : Bool) (desk : Desk)
    (calls : List Operation) (orderly : ∀ call ∈ calls, call.isOrderly = true) :
    let start : Session := { plan := empty name scope rule, desk }
    let session := start.run calls
    let plan := session.plan
    (∀ id names resources,
      (plan.Admits id names → ∃ after,
        session.perform (.add id names resources) = (.added (.ok ()), { session with plan := after }) ∧
          plan.Extends { id, deps := names, resources } after) ∧
      (¬ plan.Admits id names → ∃ refusal,
        session.perform (.add id names resources) = (.added (.error refusal), session))) ∧
    plan.blueprint = start.additions calls ∧ plan.known.Nodup ∧
    (∀ earlier addition later, plan.blueprint = earlier ++ addition :: later →
      ∀ name ∈ addition.deps, name ∈ earlier.map (·.id)) ∧
    (∀ node, ¬ plan.DependsOn node node) ∧
    ∀ (position : Nat) (entry : Entry), plan.entries[position]? = some entry →
      plan.ids entry.dependents = (plan.blueprint.flatMap fun other =>
        List.replicate (other.deps.count entry.node.id) other.id) ∧
      plan.wanted position = entry.node.resources.map (.resource scope) ∧
      (entry.node.held = [] ∨ ∃ lease, entry.node.held = .lease lease :: plan.wanted position) := by
  intro start session plan
  have fresh : start.plan.Valid := (empty_valid name scope rule).1
  have builds : start.Builds scope calls := by
    apply run_keeps fresh _ _ orderly
    · refine ⟨rfl, rfl, List.nodup_nil, fun position entry found => ?_⟩
      cases found
    · exact fun calls call valid orderly builds => builds.concat valid orderly
  have graph : plan.Graph := (run_valid fresh orderly).coherent.graph
  refine ⟨fun id names resources => ⟨fun admits => ?_, fun refused => ?_⟩, builds.blueprint,
    builds.distinct, fun earlier addition later split => graph.precedes split, graph.acyclic,
    fun position entry found => ?_⟩
  · obtain ⟨after, added⟩ := add_iff.mpr admits
    refine ⟨after, ?_, add_extends builds.distinct added⟩
    simp only [perform, plan] at added ⊢
    rw [added]
  · cases added : plan.add id names resources with
    | ok after => exact absurd (add_iff.mp ⟨after, added⟩) refused
    | error refusal =>
      refine ⟨refusal, ?_⟩
      simp only [perform, plan] at added ⊢
      rw [added]
  · have wanted : plan.wanted position = entry.node.resources.map (.resource scope) := by
      rw [wanted_eq found, ← builds.scope]
      rfl
    refine ⟨graph.dependents_ids builds.distinct found, wanted, ?_⟩
    rw [wanted]
    exact builds.held position entry found

/-- Four additions are refused, and one more once the first node has been selected. The
second node names the first twice, and the third names both. -/
private def concert : List Operation :=
  [ .add "print" [] ["press"], .add "rehearse" ["print", "print"] ["hall", "press"],
    .add "print" [] [], .add "" [] [], .add "tour" ["rehearse", "tour"] [],
    .add "tour" ["rehearse", "bus"] [], .add "play" ["rehearse", "print", "rehearse"] ["hall"],
    .locks (.createTree "staff" 2), .locks (.createChild ⟨0, 0⟩), .populate, .select ⟨0, 1⟩ 0 ]

private def season : Session := { plan := empty "season" 3 true, desk := { books := [{}] } }

theorem concert_as_added :
    season.additions concert =
      [ { id := "print", deps := [], resources := ["press"] },
        { id := "rehearse", deps := ["print", "print"], resources := ["hall", "press"] },
        { id := "play", deps := ["rehearse", "print", "rehearse"], resources := ["hall"] } ] ∧
    (season.run concert).plan.blueprint = season.additions concert ∧
    (∃ entry, (season.run concert).plan.entries[0]? = some entry ∧
      (season.run concert).plan.ids entry.dependents = ["rehearse", "rehearse", "play"] ∧
      entry.node.held = [.lease ⟨0, 1⟩, .resource 3 "press"]) ∧
    ∃ refusal, (season.run concert).perform (.add "encore" ["play"] []) =
      (.added (.error refusal), season.run concert) := by
  obtain ⟨adds, blueprint, _, _, _, nodes⟩ :=
    graph_as_added "season" 3 true { books := [{}] } concert (by decide)
  have listed : season.additions concert =
      [ { id := "print", deps := [], resources := ["press"] },
        { id := "rehearse", deps := ["print", "print"], resources := ["hall", "press"] },
        { id := "play", deps := ["rehearse", "print", "rehearse"], resources := ["hall"] } ] := by
    decide +kernel
  have started : (season.run concert).plan.started = true := by decide +kernel
  have holds : (season.run concert).plan.entries[0]?.map (·.node.held) =
      some [.lease ⟨0, 1⟩, .resource 3 "press"] := by decide +kernel
  obtain ⟨entry, found, held⟩ := Option.map_eq_some_iff.mp holds
  refine ⟨listed, blueprint, ⟨entry, found, ?_, held⟩, (adds "encore" ["play"] []).2 fun admits => ?_⟩
  · have first : (season.run concert).plan.entries[0]?.map (·.node.id) = some "print" := by
      decide +kernel
    rw [found, Option.map_some, Option.some.injEq] at first
    refine (nodes 0 entry found).1.trans ?_
    rw [blueprint, first]
    exact congrArg _ listed
  · exact absurd (started.symm.trans admits.unstarted) (by decide)

end Session
end Foreman.Plan
