import Foreman.Proofs.Statistics
import Mathlib.Data.List.Nodup

/-! The statistics of executors in full. When the calls of an executor have returned, each
of their threads has left its entry, and none has left two. -/

namespace Foreman.Executor

variable {index worker : Nat} {before later : Corner} {events : List Happening} {phase : Phase}
  {name : String}

/-! The threads of a call, and what each of them is to leave. -/

/-- The thread that makes the call, and its workers by their numbers. -/
def Call.crew (call : Call) : List (Option Nat) :=
  none :: (List.range call.executor.workers).map some

theorem Call.crew_nodup (call : Call) : call.crew.Nodup := by
  refine List.nodup_cons.mpr ⟨by simp, ?_⟩
  exact List.nodup_range.map fun _ _ => Option.some.inj

def Call.entry (call : Call) (plan : String) : Option Nat → Stat
  | none =>
    { owner := call.owner, label := call.caller.getD s!"Execution queuer for '{plan}'" }
  | some worker =>
    { owner := call.owner, label := s!"Execution worker for '{plan}' Thread {worker + 1}" }

def Call.entries (call : Call) (plan : String) : List Stat := call.crew.map (call.entry plan)

namespace World

def title (world : World) (call : Call) : String :=
  ((world.plans[call.plan]?).map (·.plan.name)).getD ""

/-- What all the threads of an executor are to leave. -/
def due (world : World) (owner : Nat) : List Stat :=
  (world.calls.filter (·.owner = owner)).flatMap fun call => call.entries (world.title call)

/-- What one thread is to leave. It is known by the number of its call. -/
def statOf? (world : World) (thread : Nat × Option Nat) : Option Stat :=
  world.calls[thread.1]?.map fun call => call.entry (world.title call) thread.2

end World

theorem WorkerDeed.labels (deed : WorkerDeed index worker before phase events later) :
    later.call.owner = before.call.owner ∧ later.call.caller = before.call.caller := by
  cases deed with
  | settle | breakdown | start | refuse | request | instruct | finish | complete | drop | retire
  | stumble | fail => exact ⟨rfl, rfl⟩
  | halt polls | select polls | park polls => cases polls <;> exact ⟨rfl, rfl⟩

theorem CallerDeed.labels {stage : Stage} (deed : CallerDeed before stage later) :
    later.call.owner = before.call.owner ∧ later.call.caller = before.call.caller := by
  cases deed <;> exact ⟨rfl, rfl⟩

/-- The thread that makes a call leaves its entry in one step of its own, unless a fault
has escaped from it. -/
theorem CallerDeed.reports {stage : Stage} (deed : CallerDeed before stage later) :
    stage = .reporting ∧ later.call.stage = .awaiting none ∨
      stage ≠ .reporting ∧
        ∀ told, later.call.stage.reported? = some told → stage.reported? = some told := by
  cases deed with
  | report => exact Or.inl ⟨rfl, rfl⟩
  | register | launch | queue | wait | collect => exact Or.inr ⟨by simp, fun _ => id⟩
  | giveUp | abort => exact Or.inr ⟨by simp, by simp [Corner.withStage, Stage.reported?]⟩
  | collapse polls hooked next =>
    rcases next with rfl | ⟨_, fault, rfl⟩
    · exact Or.inr ⟨by simp, fun _ => id⟩
    · exact Or.inr ⟨by simp, by simp [Corner.withStage, Stage.reported?]⟩
  | @depart fault joinable =>
    refine Or.inr ⟨by simp, fun told => ?_⟩
    cases fault with
    | some fault => simp [Corner.withStage, Stage.reported?]
    | none =>
      cases before.call.pool.failure with
      | some fault => simp [Corner.withStage, Stage.reported?]
      | none => exact id

namespace World

variable {start world after : World} {missed : Bool} {move : Move} {call : Call} {driven : Driven}
  {threads more : List (Nat × Option Nat)} {corner : Corner}

/-- The entries so far are those of these threads, none of which has left two. The threads
are known by the stages and phases that they have come to. -/
structure Filed (start world : World) (threads : List (Nat × Option Nat)) : Prop where
  stats : world.stats = start.stats ++ threads.filterMap start.statOf?
  once : threads.Nodup
  callers : ∀ (index : Nat) (call : Call) (told : Bool), world.calls[index]? = some call →
    call.stage.reported? = some told → ((index, none) ∈ threads ↔ told = true)
  workers : ∀ index worker : Nat,
    (index, some worker) ∈ threads ↔ world.phase? index worker = some (.gone none)
  calls : ∀ (index : Nat) (call : Call), world.calls[index]? = some call →
    ∃ origin, start.calls[index]? = some origin ∧ call.owner = origin.owner ∧
      call.caller = origin.caller ∧ call.Proper (start.title origin)

theorem Start.filed (fresh : start.Start) : start.Filed start [] := by
  refine ⟨(List.append_nil _).symm, List.nodup_nil, ?_, ?_, ?_⟩
  · intro index call told found reported
    rw [(fresh.unmade index call found).stage] at reported
    cases reported
    simp
  · intro index worker
    refine iff_of_false List.not_mem_nil fun gone => ?_
    obtain ⟨call, found, there⟩ := Option.bind_eq_some_iff.mp gone
    rw [(fresh.unmade index call found).workers] at there
    cases there
  · exact fun index call found =>
      ⟨call, found, rfl, rfl, (fresh.unmade index call found).proper _⟩

theorem Start.title (fresh : start.Start) (follows : start.Follows world) {origin : Call}
    (begun : start.calls[index]? = some origin) (found : world.calls[index]? = some call)
    (planned : world.plans[call.plan]? = some driven) : driven.plan.name = start.title origin := by
  obtain ⟨call', found', _, place, _⟩ := follows.calls index origin begun
  cases Option.some.inj (found.symm.trans found')
  obtain ⟨first, placed⟩ := fresh.planned index origin begun
  obtain ⟨last, planned', _, keeps⟩ := follows.plans origin.plan first placed
  rw [place] at planned
  cases Option.some.inj (planned.symm.trans planned')
  rw [keeps.name, World.title, placed]
  rfl

/-- A step of somebody at a call, where these threads leave their entries. -/
theorem Filed.shown (filed : start.Filed world threads) (found : world.calls[index]? = some call)
    (shown : Shows world index call.plan after corner events)
    (labels : corner.call.owner = call.owner ∧ corner.call.caller = call.caller)
    (proper : ∀ origin, start.calls[index]? = some origin → call.Proper (start.title origin) →
      corner.call.Proper (start.title origin))
    (stats : after.stats = world.stats ++ more.filterMap start.statOf?)
    (own : ∀ thread ∈ more, thread.1 = index ∧ thread ∉ threads) (once : more.Nodup)
    (caller : ∀ told, corner.call.stage.reported? = some told →
      ((index, none) ∈ threads ++ more ↔ told = true))
    (workers : ∀ other rival, (other, some rival) ∈ threads ++ more ↔
      after.phase? other rival = some (.gone none)) : start.Filed after (threads ++ more) := by
  refine ⟨?_, ?_, ?_, workers, ?_⟩
  · rw [stats, filed.stats, List.filterMap_append, List.append_assoc]
  · refine List.nodup_append.mpr ⟨filed.once, once, ?_⟩
    rintro thread old _ new rfl
    exact (own thread new).2 old
  · intro other value told present reported
    rw [shown.call? found] at present
    split at present
    next same =>
      cases present
      exact same ▸ caller told reported
    next elsewhere =>
      rw [← filed.callers other value told present reported, List.mem_append]
      exact or_iff_left fun new => elsewhere (own _ new).1
  · intro other value present
    rw [shown.call? found] at present
    split at present
    next same =>
      cases present
      obtain ⟨origin, begun, owner, named, kept⟩ := filed.calls index call found
      exact ⟨origin, same ▸ begun, labels.1.trans owner, labels.2.trans named,
        proper origin begun kept⟩
    · exact filed.calls other value present

theorem phase_shown (found : world.calls[index]? = some call)
    (there : call.workers[worker]? = some phase)
    (shown : Shows world index call.plan after corner events) {next : Phase}
    (moved : corner.call.workers = call.workers.set worker next) (other rival : Nat) :
    after.phase? other rival =
      if other = index ∧ rival = worker then some next else world.phase? other rival := by
  have inside := (List.getElem?_eq_some_iff.mp there).1
  rw [phase?, shown.call? found]
  by_cases same : other = index
  · subst same
    rw [if_pos rfl, Option.bind_some, moved, List.getElem?_set, phase?, found, Option.bind_some]
    by_cases mine : worker = rival
    · rw [if_pos mine, if_pos inside, if_pos ⟨rfl, mine.symm⟩]
    · rw [if_neg mine, if_neg fun both => mine both.2.symm]
  · rw [if_neg same, if_neg fun both => same both.1, phase?]

/-- The label that a worker uses is that of its entry. -/
theorem Filed.entry (filed : start.Filed world threads) (found : world.calls[index]? = some call)
    (there : call.workers[worker]? = some phase) : start.statOf? (index, some worker) =
      some { owner := call.owner, label := call.pool.threadName worker } := by
  obtain ⟨origin, begun, owner, _, proper⟩ := filed.calls index call found
  have title := proper.title (List.ne_nil_of_mem (List.mem_of_getElem? there))
  have label : s!"Execution worker for '{start.title origin}' Thread {worker + 1}" =
      s!"{call.pool.name} Thread {worker + 1}" := by
    rw [title]
    simp only [toString, String.append_assoc]
    rfl
  rw [statOf?, begun, Option.map_some, Call.entry, label, owner]
  rfl

theorem Filed.works (filed : start.Filed world threads) (owned : world.Owned)
    (stepped : world.step missed (.worker index worker) = some after) :
    ∃ more, start.Filed after (threads ++ more) := by
  generalize same : Move.worker index worker = move at stepped
  cases step_turn owned.orderly stepped with
  | outside foreign outside => exact absurd same.symm (foreign index worker).2
  | caller => cases same
  | @worker _ _ call driven phase events later _ found planned there deed shown =>
    cases same
    simp only [step, stepWorker, found, planned, there] at stepped
    have valid := owned.valid _ _ planned
    obtain ⟨present, next, moves⟩ := deed.moves
    have moved := phase_shown found there shown moves.workers
    have here : world.phase? index worker = some phase := by rw [phase?, found, Option.bind_some, there]
    -- whoever makes a step has not gone, so its entry is still to come
    have busy : (index, some worker) ∉ threads := by
      intro old
      cases Option.some.inj (here.symm.trans ((filed.workers index worker).mp old))
      exact present ⟨none, rfl⟩
    have proper (origin : Call) (_ : start.calls[index]? = some origin)
        (proper : call.Proper (start.title origin)) : later.call.Proper (start.title origin) :=
      deed.proper there valid (owned.staffed _ _ found) proper
    have caller (told : Bool) (reported : later.call.stage.reported? = some told) :
        (index, none) ∈ threads ↔ told = true :=
      filed.callers index call told found (moves.stage ▸ reported)
    rcases advanceWorker_stats ⟨_, _, deed, shown⟩ found planned there stepped with
      ⟨gone, stats⟩ | ⟨still, stats⟩
    · refine ⟨[(index, some worker)], filed.shown found shown deed.labels proper ?_ ?_
        (List.nodup_singleton _) ?_ ?_⟩
      · rw [stats, List.filterMap_cons, filed.entry found there]
        rfl
      · intro thread member
        cases List.mem_singleton.mp member
        exact ⟨rfl, busy⟩
      · intro told reported
        rw [← caller told reported, List.mem_append]
        exact or_iff_left (by simp)
      · intro other rival
        rw [List.mem_append, filed.workers, List.mem_singleton]
        by_cases own : other = index ∧ rival = worker
        · obtain ⟨rfl, rfl⟩ := own
          exact iff_of_true (Or.inr rfl) gone
        · rw [moved, if_neg own]
          exact or_iff_left fun same => own (by cases same; exact ⟨rfl, rfl⟩)
    · refine ⟨[], filed.shown found shown deed.labels proper ?_ (by simp) List.nodup_nil ?_ ?_⟩
      · rw [stats]
        exact (List.append_nil _).symm
      · intro told reported
        rw [List.append_nil, caller told reported]
      · intro other rival
        rw [List.append_nil]
        by_cases own : other = index ∧ rival = worker
        · obtain ⟨rfl, rfl⟩ := own
          exact iff_of_false busy still
        · rw [moved, if_neg own, filed.workers]

theorem phase_gone_caller {stage : Stage} (owned : world.Owned)
    (found : world.calls[index]? = some call) (there : call.stage = stage)
    (deed : CallerDeed (world.cornerOf call driven) stage corner)
    (shown : Shows world index call.plan after corner events) (other rival : Nat) :
    after.phase? other rival = some (.gone none) ↔ world.phase? other rival = some (.gone none) := by
  rw [phase?, phase?, shown.call? found]
  split
  next same =>
    subst same
    rw [found, Option.bind_some, Option.bind_some]
    rcases deed.crew with same | ⟨launching, hired⟩
    · rw [same]
      rfl
    · have none : call.workers = [] :=
        (owned.staffed _ _ found).early (Or.inr (there.trans launching))
      rw [none]
      refine iff_of_false (fun gone => ?_) (by simp)
      cases hired _ (List.mem_of_getElem? gone)
  · rfl

theorem Filed.entry_caller (filed : start.Filed world threads) (fresh : start.Start)
    (follows : start.Follows world) (found : world.calls[index]? = some call)
    (planned : world.plans[call.plan]? = some driven) : start.statOf? (index, none) =
      some { owner := call.owner, label := queuerLabel call driven.plan } := by
  obtain ⟨origin, begun, owner, named, _⟩ := filed.calls index call found
  rw [statOf?, begun, Option.map_some, Call.entry, queuerLabel,
    fresh.title follows begun found planned, owner, named]

theorem Filed.leads (filed : start.Filed world threads) (fresh : start.Start)
    (follows : start.Follows world) (owned : world.Owned)
    (stepped : world.step missed (.caller index) = some after) :
    ∃ more, start.Filed after (threads ++ more) := by
  generalize same : Move.caller index = move at stepped
  cases step_turn owned.orderly stepped with
  | outside foreign outside => exact absurd same.symm (foreign index 0).1
  | worker => cases same
  | @caller _ call driven later _ found planned deed shown =>
    cases same
    simp only [step, stepCaller, found, planned] at stepped
    have proper (origin : Call) (begun : start.calls[index]? = some origin)
        (proper : call.Proper (start.title origin)) : later.call.Proper (start.title origin) :=
      deed.proper rfl (fresh.title follows begun found planned) (owned.staffed _ _ found) proper
    have phases := phase_gone_caller owned found rfl deed shown
    rcases advanceCaller_stats stepped with ⟨reporting, stats⟩ | ⟨going, stats⟩
    · have unreported : (index, none) ∉ threads := fun old =>
        Bool.false_ne_true ((filed.callers index call false found (by rw [reporting]; rfl)).mp old)
      refine ⟨[(index, none)], filed.shown found shown deed.labels proper ?_ ?_
        (List.nodup_singleton _) ?_ ?_⟩
      · rw [stats, List.filterMap_cons, filed.entry_caller fresh follows found planned]
        rfl
      · intro thread member
        cases List.mem_singleton.mp member
        exact ⟨rfl, unreported⟩
      · intro told reported
        rcases deed.reports with ⟨_, awaiting⟩ | ⟨going, _⟩
        · rw [awaiting] at reported
          cases reported
          exact iff_of_true (List.mem_append_right _ List.mem_cons_self) rfl
        · exact absurd reporting going
      · intro other rival
        rw [List.mem_append, filed.workers, phases]
        exact or_iff_left (by simp)
    · refine ⟨[], filed.shown found shown deed.labels proper ?_ (by simp) List.nodup_nil ?_ ?_⟩
      · rw [stats]
        exact (List.append_nil _).symm
      · intro told reported
        rw [List.append_nil]
        rcases deed.reports with ⟨reporting, _⟩ | ⟨_, earlier⟩
        · exact absurd reporting going
        · exact filed.callers index call told found (earlier told reported)
      · intro other rival
        rw [List.append_nil, filed.workers, phases]

theorem Filed.outside (filed : start.Filed world threads) (stats : after.stats = world.stats)
    (outside : world.Outside events after) : start.Filed after threads := by
  refine ⟨stats.trans filed.stats, filed.once, ?_, ?_, ?_⟩
  · rw [outside.calls]
    exact filed.callers
  · simp only [phase?, outside.calls]
    exact filed.workers
  · rw [outside.calls]
    exact filed.calls

theorem Filed.step (filed : start.Filed world threads) (fresh : start.Start)
    (follows : start.Follows world) (owned : world.Owned)
    (stepped : world.step missed move = some after) :
    ∃ more, start.Filed after (threads ++ more) := by
  have outside (stats : after.stats = world.stats)
      (foreign : ∀ index worker, move ≠ .caller index ∧ move ≠ .worker index worker) :
      ∃ more, start.Filed after (threads ++ more) := by
    refine ⟨[], ?_⟩
    rw [List.append_nil]
    cases step_turn owned.orderly stepped with
    | outside _ outside => exact filed.outside stats outside
    | worker => exact absurd rfl (foreign _ _).2
    | caller => exact absurd rfl (foreign _ 0).1
  cases move with
  | caller index => exact filed.leads fresh follows owned stepped
  | worker index worker => exact filed.works owned stepped
  | request request =>
    apply outside ?_ (by simp)
    simp only [step, stepRequest] at stepped
    split at stepped
    next pending _ =>
      cases stepped
      exact advanceRequest_stats world pending
    · cases stepped
  | cancel =>
    apply outside ?_ (by simp)
    cases stepped
    rfl

/-- After any schedule the entries are those of the threads that have come to leave them. -/
theorem Start.files (fresh : start.Start) {moves : List (Bool × Move)}
    (ran : start.play moves = some world) : ∃ threads, start.Filed world threads := by
  have kept := play_induction
    (fun world => (world.Owned ∧ start.Follows world) ∧ ∃ threads, start.Filed world threads) ran
    ⟨⟨fresh.owned, .refl start⟩, [], fresh.filed⟩ ?_
  · exact kept.2
  · intro before after missed move kept stepped
    obtain ⟨⟨owned, follows⟩, threads, filed⟩ := kept
    have turn := step_turn owned.orderly stepped
    obtain ⟨more, later⟩ := filed.step fresh follows owned stepped
    exact ⟨⟨owned.turn turn, follows.trans (turn.follows owned.valid)⟩, _, later⟩

/-! All the threads of an executor. -/

def roll (world : World) (owner : Nat) : List (Nat × Option Nat) :=
  (world.calls.zipIdx.filter (·.1.owner = owner)).flatMap fun placed =>
    placed.1.crew.map (placed.2, ·)

variable {owner : Nat} {thread : Option Nat}

theorem mem_roll : (index, thread) ∈ world.roll owner ↔
    ∃ call, world.calls[index]? = some call ∧ call.owner = owner ∧ thread ∈ call.crew := by
  simp only [roll, List.mem_flatMap, List.mem_filter, Prod.exists, List.mem_zipIdx_iff_getElem?,
    decide_eq_true_eq]
  constructor
  · rintro ⟨call, place, ⟨found, own⟩, member⟩
    obtain ⟨_, member, same⟩ := List.mem_map.mp member
    cases same
    exact ⟨call, found, own, member⟩
  · rintro ⟨call, found, own, member⟩
    exact ⟨call, index, ⟨found, own⟩, List.mem_map_of_mem member⟩

theorem roll_nodup (world : World) (owner : Nat) : (world.roll owner).Nodup := by
  have apart : world.calls.zipIdx.Pairwise fun first second => first.2 ≠ second.2 := by
    rw [← List.pairwise_map, List.zipIdx_map_snd]
    exact List.nodup_range'
  refine List.nodup_flatMap.mpr ⟨fun placed _ => ?_, (apart.filter _).imp fun different => ?_⟩
  · exact placed.1.crew_nodup.map fun _ _ same => (Prod.mk.inj same).2
  · intro thread left right
    obtain ⟨_, _, rfl⟩ := List.mem_map.mp left
    obtain ⟨_, _, same⟩ := List.mem_map.mp right
    exact different (Prod.mk.inj same).1.symm

/-- The entries of the threads of an executor are those that are due. -/
theorem roll_entries (world : World) (owner : Nat) :
    (world.roll owner).filterMap world.statOf? = world.due owner := by
  have each (placed : Call × Nat) (member : placed ∈ world.calls.zipIdx.filter (·.1.owner = owner)) :
      (placed.1.crew.map (placed.2, ·)).filterMap world.statOf? =
        placed.1.entries (world.title placed.1) := by
    have found := List.mem_zipIdx_iff_getElem?.mp (List.mem_filter.mp member).1
    rw [List.filterMap_map, Call.entries, ← List.filterMap_eq_map]
    congr 1
    funext thread
    simp only [Function.comp, statOf?, found, Option.map_some]
  have calls : world.calls.filter (·.owner = owner) =
      (world.calls.zipIdx.filter (·.1.owner = owner)).map (·.1) := by
    rw [← List.zipIdx_map_fst 0 world.calls, List.filter_map, List.zipIdx_map_fst]
    rfl
  rw [roll, List.filterMap_flatMap, List.flatMap_congr each, due, calls, List.flatMap_map]

/-- Once a call has returned, its threads have left their entries. -/
theorem Filed.crew (filed : start.Filed world threads) (follows : start.Follows world)
    {origin : Call} (begun : start.calls[index]? = some origin)
    (found : world.calls[index]? = some call) (gone : call.stage = .gone none)
    (thread : Option Nat) : (index, thread) ∈ threads ↔ thread ∈ origin.crew := by
  obtain ⟨_, begun', _, _, proper⟩ := filed.calls index call found
  cases Option.some.inj (begun.symm.trans begun')
  obtain ⟨_, found', executor, _⟩ := follows.calls index origin begun
  cases Option.some.inj (found.symm.trans found')
  cases thread with
  | none =>
    have reported : call.stage.reported? = some true := by
      rw [gone]
      rfl
    exact iff_of_true ((filed.callers index call true found reported).mpr rfl) List.mem_cons_self
  | some worker =>
    have hired : call.workers.length = origin.executor.workers := by
      rw [← executor]
      exact proper.crew (by rw [gone]; rfl)
    have member : some worker ∈ origin.crew ↔ worker < call.workers.length := by
      simp [Call.crew, hired]
    rw [filed.workers, member, phase?, found, Option.bind_some]
    refine ⟨fun there => (List.getElem?_eq_some_iff.mp there).1, fun inside => ?_⟩
    rw [List.getElem?_eq_getElem inside, proper.returned gone _ (List.getElem_mem inside)]

def serves (world : World) (owner : Nat) (thread : Nat × Option Nat) : Bool :=
  (world.statOf? thread).any (·.owner = owner)

theorem serves_iff : world.serves owner (index, thread) = true ↔
    ∃ call, world.calls[index]? = some call ∧ call.owner = owner := by
  cases found : world.calls[index]? with
  | none => simp [serves, statOf?, found]
  | some call => cases thread <;> simp [serves, statOf?, found, Call.entry]

theorem filter_entries (world : World) (owner : Nat) (threads : List (Nat × Option Nat)) :
    (threads.filterMap world.statOf?).filter (·.owner = owner) =
      (threads.filter (world.serves owner)).filterMap world.statOf? := by
  rw [List.filter_filterMap, List.filterMap_filter]
  congr 1
  funext thread
  rw [serves]
  generalize world.statOf? thread = entry
  cases entry with
  | none => rfl
  | some entry => simp [Option.filter]

/-- When all calls of an executor have returned, its statistics have grown by one entry
for each thread of each call. -/
theorem stats_in_full {moves : List (Bool × Move)} (fresh : start.Start)
    (ran : start.play moves = some world)
    (returned : ∀ call ∈ world.calls, call.owner = owner → call.stage = .gone none) :
    ∃ added, world.stats = start.stats ++ added ∧
      (added.filter (·.owner = owner)).Perm (start.due owner) := by
  obtain ⟨threads, filed⟩ := fresh.files ran
  obtain ⟨_, follows⟩ := fresh.play ran
  refine ⟨threads.filterMap start.statOf?, filed.stats, ?_⟩
  rw [filter_entries, ← roll_entries]
  refine List.Perm.filterMap _ ?_
  -- neither list names a thread twice, so it is enough that they name the same threads
  refine (List.perm_ext_iff_of_nodup (filed.once.filter _) (roll_nodup start owner)).mpr ?_
  rintro ⟨index, thread⟩
  rw [List.mem_filter, serves_iff, mem_roll]
  have complete (origin : Call) (begun : start.calls[index]? = some origin)
      (mine : origin.owner = owner) : (index, thread) ∈ threads ↔ thread ∈ origin.crew := by
    obtain ⟨call, found, _⟩ := follows.calls index origin begun
    obtain ⟨_, begun', owned, _⟩ := filed.calls index call found
    cases Option.some.inj (begun.symm.trans begun')
    exact filed.crew follows begun found
      (returned call (List.mem_of_getElem? found) (owned.trans mine)) thread
  constructor
  · rintro ⟨left, origin, begun, mine⟩
    exact ⟨origin, begun, mine, (complete origin begun mine).mp left⟩
  · rintro ⟨origin, begun, mine, member⟩
    exact ⟨(complete origin begun mine).mpr member, origin, begun, mine⟩

private def sweeping : Plan := (Plan.empty "sweeping" 0 true).attach "floor" [] []

private def mailing : Plan := (Plan.empty "mailing" 1 true).attach "letter" [] []

private def chores : List (Plan × Action × Nat) :=
  [(sweeping, fun _ => [], 2), (mailing, fun _ => [], 2)]

/-- Two calls of one executor, which has been used before. A thread of a pool makes the
second. -/
private def office : World :=
  { opening 4 chores with
    calls := (opening 4 chores).calls.modify 1 fun call =>
      { call with caller := some "clerk Thread 1" }
    stats := [{ owner := 0, label := "Execution queuer for 'opening'" }] }

private theorem office_start : office.Start := by
  have built : ∀ job ∈ chores, job.1.Built := by
    intro job member
    rcases List.mem_cons.mp member with rfl | member
    · exact .add (.empty "sweeping" 0 true) (show Plan.add _ "floor" [] [] = .ok sweeping from rfl)
    · rw [List.mem_singleton.mp member]
      exact .add (.empty "mailing" 1 true) (show Plan.add _ "letter" [] [] = .ok mailing from rfl)
  have start := opening_start (show 0 < 4 by decide) built
  have known {index : Nat} {call : Call} (found : office.calls[index]? = some call) :
      ∃ call', (opening 4 chores).calls[index]? = some call' ∧
        call = { call' with caller := call.caller } := by
    simp only [office] at found
    rw [List.getElem?_modify] at found
    obtain ⟨call', there, rfl⟩ := Option.map_eq_some_iff.mp found
    refine ⟨call', there, ?_⟩
    split <;> rfl
  refine ⟨start.table, start.reached, start.idle, start.throwing, ?_, ?_, ?_, rfl⟩
  · intro index call found
    obtain ⟨call', found, same⟩ := known found
    have unmade := start.unmade index call' found
    rw [same]
    exact ⟨unmade.stage, unmade.workers, unmade.jobs, unmade.failure, unmade.unfailed⟩
  · intro index call found
    obtain ⟨call', found, same⟩ := known found
    rw [same]
    exact start.planned index call' found
  · intro index call found
    obtain ⟨call', found, same⟩ := known found
    rw [same]
    exact start.rooted index call' found

private def rota : List (Bool × Move) :=
  ([.caller 0, .caller 1, .caller 0, .caller 1, .caller 0, .worker 0 0, .worker 0 1, .caller 1,
    .worker 1 0, .worker 1 1, .caller 0, .worker 0 0, .worker 0 1, .caller 1, .worker 1 0,
    .worker 1 1, .caller 0, .worker 0 0, .caller 1, .worker 1 0, .worker 0 0, .worker 1 0,
    .worker 0 0, .worker 0 1, .caller 1, .worker 1 0, .worker 1 1, .caller 0, .worker 0 0,
    .worker 0 1, .caller 1, .worker 1 0, .worker 1 1, .worker 0 0, .worker 1 0, .caller 0,
    .caller 1] : List Move).map (false, ·)

private def Stage.hasReturned : Stage → Bool
  | .gone none => true
  | _ => false

theorem office_in_full : ∃ world added, office.play rota = some world ∧
    world.stats = office.stats ++ added ∧ (added.filter (·.owner = 0)).Perm
      [{ owner := 0, label := "Execution queuer for 'sweeping'" },
        { owner := 0, label := "Execution worker for 'sweeping' Thread 1" },
        { owner := 0, label := "Execution worker for 'sweeping' Thread 2" },
        { owner := 0, label := "clerk Thread 1" },
        { owner := 0, label := "Execution worker for 'mailing' Thread 1" },
        { owner := 0, label := "Execution worker for 'mailing' Thread 2" }] := by
  have runs : (office.play rota).map (·.calls.all fun call => Stage.hasReturned call.stage) =
      some true := by decide +kernel
  obtain ⟨world, ran, all⟩ := Option.map_eq_some_iff.mp runs
  have returned (call : Call) (member : call ∈ world.calls) (_ : call.owner = 0) :
      call.stage = .gone none := by
    have gone := List.all_eq_true.mp all call member
    unfold Stage.hasReturned at gone
    split at gone
    · assumption
    · cases gone
  obtain ⟨added, grown, full⟩ := stats_in_full office_start ran returned
  exact ⟨world, added, ran, grown, full⟩

end World
end Foreman.Executor
