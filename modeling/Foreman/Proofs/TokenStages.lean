import Foreman.Proofs.CallbackAccounts
import Foreman.Proofs.TokenCalls

/-! The stages of a cancellation. One thread sets the flag; the same thread takes the
callbacks that the token keeps, and delivers them. Whoever registers a callback after the
flag was set invokes it at once. -/

namespace Foreman.Cancel

variable {token : Token Registration} {serials serial index other id : Nat} {frame : Frame}
  {base stack : List Frame} {advance : Advance} {machine : Machine}
  {acts : List Act}

/-- The frame belongs to the request that set the flag. -/
def Frame.Raising : Frame → Prop
  | .take | .deliver _ => True
  | .body _ | .inline _ | .answer _ => False

def answersGiven (history : List Event) : List Nat :=
  history.filterMap fun
    | .answered id => some id
    | _ => none

/-- How a frame may come onto the stack, by the frame that the step found on top. -/
def Frame.Arises (top : Frame) (serials : Nat) (events : List Event) : Frame → Prop
  | .body _ => True
  | .take => .raised ∈ events
  | .deliver _ => top.Raising
  | .inline registration => registration.serial = serials ∧ events = []
  | .answer id => id = 0

theorem Frame.Hands.arises {registration : Registration} {left : List Frame} {above : Frame}
    {events : List Event} (hands : frame.Hands registration left) (member : above ∈ left) :
    frame.Arises serials events above := by
  cases hands with
  | deliver id rest =>
    cases List.mem_singleton.mp member
    trivial
  | inline => cases member

namespace Deed

theorem origin {above : Frame} (deed : Deed token serials stack frame advance)
    (member : above ∈ advance.thread.stack) :
    above ∈ stack ∨ frame.Arises serials advance.events above := by
  cases deed with
  | close | answer => exact Or.inl member
  | fall => cases member
  | note | remove | enroll =>
    rcases List.mem_cons.mp member with rfl | old
    · exact Or.inr trivial
    · exact Or.inl old
  | take =>
    rcases List.mem_cons.mp member with rfl | old
    · exact Or.inr trivial
    · exact Or.inl old
  | raise =>
    simp only [List.mem_cons] at member
    rcases member with rfl | rfl | old
    · exact Or.inr List.mem_cons_self
    · exact Or.inr trivial
    · exact Or.inl old
  | late =>
    simp only [List.mem_cons] at member
    rcases member with rfl | rfl | rfl | old
    · exact Or.inr ⟨rfl, rfl⟩
    · exact Or.inr rfl
    · exact Or.inr trivial
    · exact Or.inl old
  | invoke registration body hands =>
    rcases List.mem_cons.mp member with rfl | member
    · exact Or.inr trivial
    · exact (List.mem_append.mp member).symm.imp_right hands.arises
  | pass registration hands => exact (List.mem_append.mp member).symm.imp_right hands.arises

/-- The flag is set by the one step that finds it unset and says so. -/
theorem flag (deed : Deed token serials stack frame advance) :
    advance.events.count .raised + (if token.canceled then 1 else 0) =
      if advance.token.canceled then 1 else 0 := by
  cases deed with
  | note _ _ events notes =>
    have silent : events.count .raised = 0 := List.count_eq_zero.mpr fun member => notes _ member
    rw [silent, Nat.zero_add]
  | raise _ free => simp [free]
  | close | answer | fall | remove | enroll | late | take | invoke | pass => simp [Token.remove]

/-- Once the flag is set it stays so, and the token keeps nothing new. -/
theorem shut (deed : Deed token serials stack frame advance) (canceled : token.canceled = true) :
    advance.token.canceled = true ∧
      ∀ entry ∈ advance.token.callbacks, entry ∈ token.callbacks := by
  cases deed with
  | raise _ free | enroll _ _ free =>
    rw [canceled] at free
    cases free
  | remove => exact ⟨canceled, fun _ member => (List.mem_filter.mp member).1⟩
  | take => exact ⟨canceled, fun _ member => nomatch member⟩
  | close | answer | note | fall | late | invoke | pass => exact ⟨canceled, fun _ => id⟩

theorem taken (deed : Deed token serials stack frame advance) (taken : .taken ∈ advance.events) :
    frame = .take ∧ advance.token = { token with callbacks := [] } := by
  cases deed with
  | take => exact ⟨rfl, rfl⟩
  | note _ _ _ notes => exact (notes _ taken).elim
  | close | answer | fall | raise | remove | enroll | late | invoke | pass => simp at taken

/-- What sets the flag goes on to take the callbacks, and that task stays on the stack
until they are taken. -/
theorem takes (deed : Deed token serials stack frame advance) (settled : Settled (frame :: stack))
    (task : .take ∈ frame :: stack ∨ .raised ∈ advance.events) :
    .take ∈ advance.thread.stack ∨ .taken ∈ advance.events := by
  rcases task with task | raised
  · rcases List.mem_cons.mp task with own | below
    · subst own
      cases deed with
      | take => exact Or.inr List.mem_cons_self
      | close empty => simp at empty
      | invoke _ _ hands | pass _ hands => cases hands
    · obtain ⟨top, piled⟩ := deed.above settled (List.ne_nil_of_mem below)
      exact Or.inl (piled ▸ List.mem_append_right top below)
  · cases deed with
    | raise => exact Or.inl List.mem_cons_self
    | note _ _ _ notes => exact (notes _ raised).elim
    | close | answer | fall | remove | enroll | late | take | invoke | pass => simp at raised

theorem answers (deed : Deed token serials stack frame advance) (settled : Settled (frame :: stack))
    (ids : 0 < token.nextId) :
    (answersGiven advance.events).filter (· ≠ 0) = idsGiven advance.events := by
  cases deed with
  | answer id =>
    cases settled with
    | call mild =>
      cases mild
      rfl
  | enroll => simp [answersGiven, idsGiven, Nat.ne_of_gt ids]
  | note _ _ events notes =>
    have silent {pick : Event → Option Nat} (quiet : ∀ event, event.IsNote → pick event = none) :
        events.filterMap pick = [] :=
      List.filterMap_eq_nil_iff.mpr fun event member => quiet event (notes event member)
    rw [answersGiven, idsGiven, silent, silent, List.filter_nil]
    all_goals
      intro event note
      cases event with
      | logged | observed => rfl
      | raised | taken | enrolled | invoked | removed | answered => cases note
  | close | fall | raise | remove | late | take | invoke | pass => rfl

/-- A callback is invoked as one of those that were taken, or by its own registration. -/
theorem invoked (deed : Deed token serials stack frame advance)
    (invoked : .invoked serial ∈ advance.events) :
    advance.events = [.invoked serial] ∧ ∃ registration body,
      registration.callback = some body ∧ registration.serial = serial ∧
      (frame = .inline registration ∨ ∃ id rest, frame = .deliver ((id, registration) :: rest)) := by
  cases deed with
  | note _ _ events notes => exact (notes _ invoked).elim
  | invoke registration body hands code =>
    obtain rfl : serial = registration.serial := by simpa using invoked
    refine ⟨rfl, registration, body, code, rfl, ?_⟩
    cases hands with
    | inline => exact Or.inl rfl
    | deliver id rest => exact Or.inr ⟨id, rest, rfl⟩
  | close | answer | fall | raise | remove | enroll | late | take | pass => simp at invoked

end Deed
namespace Machine

/-- The thread invokes the callback of this serial as one of those that it took when it
had set the flag. -/
def Delivers (acts : List Act) (index serial : Nat) : Prop :=
  ∃ earlier later before id registration rest stack, acts = earlier ++ .step index :: later ∧
    play {} earlier = some before ∧ registration.serial = serial ∧
    before.stack? index = some (.deliver ((id, registration) :: rest) :: stack)

def Heard (machine : Machine) : Prop :=
  .taken ∈ machine.history ∨ ∃ index stack, machine.stack? index = some stack ∧ .take ∈ stack

/-- How far the request that set the flag has come, and whom the callbacks are left to. -/
structure Staged (acts : List Act) (machine : Machine) : Prop where
  raised : machine.history.count .raised = if machine.token.canceled then 1 else 0
  raisers : ∀ index stack frame, machine.stack? index = some stack → frame ∈ stack →
    frame.Raising → index ∈ doers acts .raised
  heard : machine.token.canceled = true → machine.Heard
  taken : .taken ∈ machine.history → machine.token.canceled = true ∧ machine.token.callbacks = []
  inlined : ∀ index stack registration id, machine.stack? index = some stack →
    .inline registration ∈ stack → registration.callback.isSome →
    .enrolled registration.serial id ∉ machine.history
  delivered : ∀ index serial id, .enrolled serial id ∈ machine.history →
    index ∈ doers acts (.invoked serial) → Delivers acts index serial
  answers : (answersGiven machine.history).filter (· ≠ 0) = idsGiven machine.history

theorem Delivers.grow (delivers : Delivers acts index serial) (more : List Act) :
    Delivers (acts ++ more) index serial := by
  obtain ⟨earlier, later, before, id, registration, rest, stack, rfl, played⟩ := delivers
  exact ⟨earlier, later ++ more, before, id, registration, rest, stack, by simp, played⟩

theorem Accounted.inline_known {registration : Registration} (accounted : machine.Accounted)
    (there : machine.stack? index = some stack) (member : .inline registration ∈ stack)
    (code : registration.callback.isSome) : registration.serial < machine.serials := by
  obtain ⟨thread, present, rfl⟩ := Option.map_eq_some_iff.mp there
  obtain ⟨body, code⟩ := Option.isSome_iff_exists.mp code
  have due : registration.serial ∈ Frame.due (.inline registration) := by
    simp [Frame.due, Registration.due, code]
  have underway : registration.serial ∈ machine.underway := List.mem_flatMap.mpr
    ⟨thread, List.mem_of_getElem? present, List.mem_flatMap.mpr ⟨_, member, due⟩⟩
  have some := List.count_pos_iff.mpr underway
  refine Nat.lt_of_not_le fun unknown => ?_
  have fresh := accounted.fresh unknown
  rw [load] at fresh
  omega

section

variable (there : machine.stack? index = some (frame :: stack))
  (deed : Deed machine.token machine.serials stack frame advance)
include there deed

theorem follow_origin {above : Frame}
    (found : (machine.follow index advance).stack? other = some base) (member : above ∈ base) :
    (∃ stack, machine.stack? other = some stack ∧ above ∈ stack) ∨
      other = index ∧ frame.Arises machine.serials advance.events above := by
  rw [follow_stack? there] at found
  split at found
  next own =>
    cases found
    subst own
    rcases deed.origin member with old | new
    · exact Or.inl ⟨_, there, List.mem_cons_of_mem _ old⟩
    · exact Or.inr ⟨rfl, new⟩
  · exact Or.inl ⟨base, found, member⟩

variable (reached : Reached acts machine) (staged : machine.Staged acts)
include staged

omit there in
theorem Staged.raised_follow : (machine.follow index advance).history.count .raised =
    if (machine.follow index advance).token.canceled then 1 else 0 := by
  have flag := deed.flag
  have earlier := staged.raised
  change (machine.history ++ advance.events).count .raised = if advance.token.canceled then 1 else 0
  rw [List.count_append]
  omega

theorem Staged.heard_follow (settled : Settled (frame :: stack))
    (canceled : (machine.follow index advance).token.canceled = true) :
    (machine.follow index advance).Heard := by
  have task (task : .take ∈ frame :: stack ∨ .raised ∈ advance.events) :
      (machine.follow index advance).Heard := by
    rcases deed.takes settled task with waits | taken
    · exact Or.inr ⟨index, _, by rw [follow_stack? there, if_pos rfl], waits⟩
    · exact Or.inl (follow_history.mpr (Or.inr taken))
  cases before : machine.token.canceled with
  | true =>
    rcases staged.heard before with taken | ⟨other, stack', found, waits⟩
    · exact Or.inl (follow_history.mpr (Or.inl taken))
    · by_cases own : other = index
      · subst own
        cases Option.some.inj (there.symm.trans found)
        exact task (Or.inl waits)
      · exact Or.inr ⟨other, stack', by rw [follow_stack? there, if_neg own, found], waits⟩
  | false =>
    have flag := deed.flag
    have canceled : advance.token.canceled = true := canceled
    rw [before, canceled] at flag
    exact task (Or.inr (List.count_pos_iff.mp (by simp at flag; omega)))

omit there in
theorem Staged.answers_follow (settled : Settled (frame :: stack)) (accounted : machine.Accounted) :
    (answersGiven (machine.follow index advance).history).filter (· ≠ 0) =
      idsGiven (machine.follow index advance).history := by
  obtain ⟨many, _, next⟩ := accounted.ids
  have new := deed.answers settled (by omega)
  have old := staged.answers
  change (answersGiven (machine.history ++ advance.events)).filter (· ≠ 0) =
    idsGiven (machine.history ++ advance.events)
  rw [answersGiven, idsGiven, List.filterMap_append, List.filterMap_append, List.filter_append]
  exact congr (congrArg _ old) new

include reached

theorem Staged.raisers_follow (stepped : machine.step index = some (machine.follow index advance))
    {above : Frame} (found : (machine.follow index advance).stack? other = some base)
    (member : above ∈ base) (raising : above.Raising) :
    other ∈ doers (acts ++ [.step index]) .raised := by
  rw [reached.mem_doers_step stepped]
  rcases follow_origin there deed found member with ⟨stack, old, member⟩ | ⟨rfl, arises⟩
  · exact Or.inl (staged.raisers other stack above old member raising)
  · cases above with
    | take => exact Or.inr ⟨rfl, arises⟩
    | deliver => exact Or.inl (staged.raisers _ _ frame there List.mem_cons_self arises)
    | body | inline | answer => cases raising

theorem Staged.taken_follow (taken : .taken ∈ (machine.follow index advance).history) :
    (machine.follow index advance).token.canceled = true ∧
      (machine.follow index advance).token.callbacks = [] := by
  change advance.token.canceled = true ∧ advance.token.callbacks = []
  rcases follow_history.mp taken with old | new
  · obtain ⟨canceled, none⟩ := staged.taken old
    obtain ⟨still, fewer⟩ := deed.shut canceled
    rw [none] at fewer
    exact ⟨still, List.eq_nil_iff_forall_not_mem.mpr fun entry member => nomatch fewer entry member⟩
  · obtain ⟨rfl, rest⟩ := deed.taken new
    have raiser := staged.raisers index _ _ there List.mem_cons_self trivial
    have some := List.length_pos_of_mem raiser
    rw [reached.doers_length, staged.raised] at some
    rw [rest]
    split at some
    next canceled => exact ⟨canceled, rfl⟩
    · omega

theorem Staged.inlined_follow {registration : Registration}
    (found : (machine.follow index advance).stack? other = some base)
    (member : .inline registration ∈ base) (code : registration.callback.isSome) :
    .enrolled registration.serial id ∉ (machine.follow index advance).history := by
  intro enrolled
  rcases follow_origin there deed found member with ⟨stack, old, member⟩ | ⟨rfl, new, silent⟩
  · rcases follow_history.mp enrolled with earlier | enrolled
    · exact staged.inlined other stack registration id old member code earlier
    · have known := reached.accounted.inline_known old member code
      exact absurd (deed.moves.enrolled enrolled).1 (Nat.ne_of_lt known)
  · rcases follow_history.mp enrolled with earlier | enrolled
    · exact absurd new (Nat.ne_of_lt (reached.accounted.known _ id earlier))
    · rw [silent] at enrolled
      cases enrolled

theorem Staged.delivered_follow
    (stepped : machine.step index = some (machine.follow index advance))
    (enrolled : .enrolled serial id ∈ (machine.follow index advance).history)
    (invoker : other ∈ doers (acts ++ [.step index]) (.invoked serial)) :
    Delivers (acts ++ [.step index]) other serial := by
  rw [reached.mem_doers_step stepped] at invoker
  rcases invoker with earlier | ⟨rfl, invoked⟩
  · rcases follow_history.mp enrolled with old | new
    · exact (staged.delivered other serial id old earlier).grow _
    · have fresh := reached.accounted.fresh (Nat.le_of_eq (deed.moves.enrolled new).1.symm)
      have some := List.length_pos_of_mem earlier
      rw [load] at fresh
      rw [reached.doers_length] at some
      omega
  · obtain ⟨only, registration, body, code, rfl, rfl | ⟨id, rest, rfl⟩⟩ := deed.invoked invoked
    · rcases follow_history.mp enrolled with old | new
      · exact absurd old (staged.inlined _ _ registration _ there List.mem_cons_self (by simp [code]))
      · simp [only] at new
    · exact ⟨acts, [], machine, id, registration, rest, stack, rfl, reached.play, rfl, there⟩

theorem Staged.follow (settled : Settled (frame :: stack))
    (stepped : machine.step index = some (machine.follow index advance)) :
    (machine.follow index advance).Staged (acts ++ [.step index]) where
  raised := staged.raised_follow deed
  raisers _ _ _ found member := staged.raisers_follow there deed reached stepped found member
  heard := staged.heard_follow there deed settled
  taken := staged.taken_follow there deed reached
  inlined _ _ _ _ found member := staged.inlined_follow there deed reached found member
  delivered _ _ _ := staged.delivered_follow there deed reached stepped
  answers := staged.answers_follow deed settled reached.accounted

end

theorem Staged.spawn (staged : machine.Staged acts) (reached : Reached acts machine)
    (commands : List Command) : (machine.spawn commands).Staged (acts ++ [.spawn commands]) where
  raised := staged.raised
  raisers index stack frame found member raising := by
    rw [reached.doers_spawn]
    rcases spawn_stack? found with old | rfl
    · exact staged.raisers index stack frame old member raising
    · cases List.mem_singleton.mp member
      cases raising
  heard canceled := by
    rcases staged.heard canceled with taken | ⟨index, stack, found, waits⟩
    · exact Or.inl taken
    · exact Or.inr ⟨index, stack, stack?_spawn found, waits⟩
  taken := staged.taken
  inlined index stack registration id found member code := by
    rcases spawn_stack? found with old | rfl
    · exact staged.inlined index stack registration id old member code
    · cases List.mem_singleton.mp member
  delivered index serial id enrolled invoker := by
    rw [reached.doers_spawn] at invoker
    exact (staged.delivered index serial id enrolled invoker).grow _
  answers := staged.answers

theorem Reached.mild (reached : Reached acts machine) (tame : Tame acts) : machine.Mild := by
  have start : ({} : Machine).Mild := ⟨fun _ member => (nomatch member), fun _ _ found => nomatch found⟩
  exact start.play tame reached.play

theorem Reached.staged (reached : Reached acts machine) (tame : Tame acts) :
    machine.Staged acts := by
  induction reached with
  | start =>
    constructor <;> intros <;> first | rfl | contradiction
  | spawn reached commands ih => exact (ih tame.left).spawn reached commands
  | step reached index stepped ih =>
    obtain ⟨frame, stack, advance, there, deed, rfl⟩ := step_deed stepped
    have settled := (reached.mild tame.left).settled _ _ there
    exact (ih tame.left).follow there deed reached settled stepped

end Machine
end Foreman.Cancel
