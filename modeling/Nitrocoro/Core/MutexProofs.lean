import Nitrocoro.Core.Mutex
import Nitrocoro.Lib.LinkedList

/-! Exclusion, exactly-once resumption and push order for every interleaving of
the mutex's atomic operations. The invariant names the three lists in which a
pushed request waits: granted, the owner's reversed list, and the stack under
`state_`; the history of pushes is always the history of resumptions followed by
these lists. -/
namespace Nitrocoro.Mutex
open LinkedList Function List Transition
variable {Id : Type}

/-- Control locations of the request that owns the mutex: the holder, the
request inside `unlock`, or the one that was handed the mutex and is not resumed yet. -/
def Owns : PC Id → Prop
  | .scheduled | .holding | .unlock | .unlockLoad | .unlockRelease | .unlockTake
  | .reverse _ _ | .setWaiters _ | .wake _ => True
  | .idle | .tryLock | .awaitReady | .load | .attempt _ | .suspended => False

def Parked (pc : PC Id) : Prop := pc = .suspended ∨ pc = .scheduled

/-- What the owner `i` at this location knows about the granted request and its
own list. While the list taken from `state_` is being reversed, its remaining
nodes come first, in reverse. -/
def View (s : State Id) (i : Id) (granted front : List Id) : PC Id → Prop
  | .holding | .unlock => granted = [] ∧ Chain s.next s.waiters front
  | .unlockLoad | .unlockRelease => granted = [] ∧ front = [] ∧ s.waiters = none
  | .unlockTake => granted = [] ∧ front = [] ∧ s.waiters = none ∧ s.state ≠ .null
  | .reverse head waiter => granted = [] ∧ ∃ ready rest, front = rest.reverse ++ ready ∧
      Chain s.next head ready ∧ Chain s.next (some waiter) rest
  | .setWaiters head => granted = [] ∧ Chain s.next (some head) front
  | .wake head => granted = [head] ∧ Chain s.next s.waiters front
  | .scheduled => granted = [i] ∧ Chain s.next s.waiters front
  | .idle | .tryLock | .awaitReady | .load | .attempt _ | .suspended => True

structure Shape (s : State Id) (granted front stack : List Id) : Prop where
  ok : s.failed = false
  unique : ∀ i j, Owns (s.pc i) → Owns (s.pc j) → i = j
  view : ∀ i, Owns (s.pc i) → View s i granted front (s.pc i)
  unlocked : s.state = .unlocked → ∀ i, ¬ Owns (s.pc i)
  unowned : (∀ i, ¬ Owns (s.pc i)) →
    s.state = .unlocked ∧ s.waiters = none ∧ granted = [] ∧ front = []
  chain : Chain s.next s.state.pointer stack
  nodup : (granted ++ front ++ stack).Nodup
  parked : ∀ i, Parked (s.pc i) ↔ i ∈ granted ++ front ++ stack
  history : s.pushed = s.resumed ++ (granted ++ front ++ stack.reverse)

def Invariant (s : State Id) : Prop := ∃ granted front stack, Shape s granted front stack

theorem initial_invariant : Invariant ({} : State Id) :=
  ⟨[], [], [], { ok := rfl
                 unique := fun _ _ owns => False.elim owns
                 view := fun _ owns => False.elim owns
                 unlocked := fun _ _ owns => owns
                 unowned := fun _ => ⟨rfl, rfl, rfl, rfl⟩
                 chain := rfl
                 nodup := by simp
                 parked := by simp [Parked]
                 history := rfl }⟩

theorem Shape.outside {s : State Id} (shape : Shape s granted front stack)
    (awake : ¬ Parked (s.pc i)) : i ∉ granted ++ front ++ stack :=
  fun member => awake ((shape.parked i).mpr member)

theorem Shape.locked {s : State Id} (shape : Shape s granted front stack) (owner : Owns (s.pc i)) :
    s.state ≠ .unlocked := fun free => shape.unlocked free i owner

/-- A view survives every step that keeps the owner's own pointers and does not
empty a non-empty `state_`. -/
theorem View.frame {s t : State Id} (view : View s i granted front pc)
    (waiters : t.waiters = s.waiters) (pushed : t.state = .null → s.state = .null)
    (next : ∀ head nodes, (∀ j ∈ nodes, j ∈ granted ++ front) → Chain s.next head nodes →
      Chain t.next head nodes) : View t i granted front pc := by
  cases pc with
  | idle | tryLock | awaitReady | load | attempt | suspended => trivial
  | unlockLoad | unlockRelease => exact ⟨view.1, view.2.1, waiters.trans view.2.2⟩
  | unlockTake =>
    exact ⟨view.1, view.2.1, waiters.trans view.2.2.1, fun empty => view.2.2.2 (pushed empty)⟩
  | reverse head waiter =>
    obtain ⟨none, ready, rest, rfl, done, todo⟩ := view
    exact ⟨none, ready, rest, rfl, next _ _ (by simp +contextual) done,
      next _ _ (by simp +contextual) todo⟩
  | setWaiters head => exact ⟨view.1, next _ _ (by simp +contextual) view.2⟩
  | holding | unlock | wake | scheduled =>
    exact ⟨view.1, waiters ▸ next _ _ (by simp +contextual) view.2⟩

variable [DecidableEq Id]

@[simp] theorem goto_pc (s : State Id) (i j : Id) (pc : PC Id) :
    (s.goto i pc).pc j = if j = i then pc else s.pc j := by
  simp only [State.goto, update_apply]

@[simp] theorem goto_next (s : State Id) (i : Id) (pc : PC Id) : (s.goto i pc).next = s.next := rfl
@[simp] theorem goto_pushed (s : State Id) (i : Id) (pc : PC Id) :
    (s.goto i pc).pushed = s.pushed := rfl
@[simp] theorem goto_resumed (s : State Id) (i : Id) (pc : PC Id) :
    (s.goto i pc).resumed = s.resumed := rfl

section Bystander
/-! Steps of a request that does not own the mutex and is not suspended. -/
variable {s : State Id} {i : Id} {granted front stack : List Id}

section
variable (shape : Shape s granted front stack)
include shape

/-- The request writes its own `next_`, may put itself on top of the stack, and
moves on without becoming the owner. -/
theorem Shape.move (bystander : ¬ Owns (s.pc i))
    (awake : ¬ Parked (s.pc i)) (pc : PC Id) (bystander' : ¬ Owns pc) (t : State Id)
    (next : t.next = update s.next i value) (pcs : t.pc = update s.pc i pc)
    (waiters : t.waiters = s.waiters) (failed : t.failed = s.failed)
    (unlocked : t.state = .unlocked ↔ s.state = .unlocked) (empty : t.state = .null → s.state = .null)
    (chain : Chain t.next t.state.pointer stack') (nodup : (granted ++ front ++ stack').Nodup)
    (parked : ∀ j, j ∈ stack' ↔ j ∈ stack ∨ j = i ∧ Parked pc)
    (history : t.pushed = t.resumed ++ (granted ++ front ++ stack'.reverse)) :
    Shape t granted front stack' := by
  have outside := shape.outside awake
  have owns {j : Id} : Owns (t.pc j) ↔ Owns (s.pc j) := by
    rw [pcs, update_apply]
    split
    · rename_i same
      exact same ▸ iff_of_false bystander' bystander
    · rfl
  refine { ok := failed.trans shape.ok, unique := ?_, view := ?_, unlocked := ?_, unowned := ?_,
           chain, nodup, parked := ?_, history }
  · exact fun j k hj hk => shape.unique j k (owns.mp hj) (owns.mp hk)
  · intro j hj
    have other : j ≠ i := fun same => bystander (same ▸ owns.mp hj)
    have here : t.pc j = s.pc j := by rw [pcs, update_of_ne other]
    rw [here]
    refine (shape.view j (owns.mp hj)).frame waiters empty fun head nodes within nodesChain => ?_
    rw [next]
    exact nodesChain.update (fun member => outside (mem_append_left stack (within i member))) _
  · exact fun free j hj => shape.unlocked (unlocked.mp free) j (owns.mp hj)
  · intro none
    obtain ⟨free, noWaiters, rest⟩ := shape.unowned fun j hj => none j (owns.mpr hj)
    exact ⟨unlocked.mpr free, waiters.trans noWaiters, rest⟩
  intro j
  rw [pcs, update_apply]
  simp only [mem_append, not_or] at outside ⊢
  have before := shape.parked j
  simp only [mem_append] at before
  split
  · rename_i same
    subst same
    rw [parked]
    simp [outside]
  · rename_i other
    rw [before, parked]
    simp [other]

theorem Shape.link (bystander : ¬ Owns (s.pc i))
    (awake : ¬ Parked (s.pc i)) (pc : PC Id) (bystander' : ¬ Owns pc) (awake' : ¬ Parked pc)
    (value : Option Id) :
    Shape ({ s with next := update s.next i value }.goto i pc) granted front stack := by
  refine shape.move bystander awake pc bystander' _ rfl rfl rfl rfl Iff.rfl id ?_ shape.nodup ?_
    shape.history
  · exact shape.chain.update (fun member => shape.outside awake (mem_append_right _ member)) value
  · simp [awake']

theorem Shape.goto (bystander : ¬ Owns (s.pc i))
    (awake : ¬ Parked (s.pc i)) (pc : PC Id) (bystander' : ¬ Owns pc) (awake' : ¬ Parked pc) :
    Shape (s.goto i pc) granted front stack := by
  simpa only [update_eq_self] using
    shape.link bystander awake pc bystander' awake' (s.next i)

theorem Shape.push (locked : s.state ≠ .unlocked)
    (bystander : ¬ Owns (s.pc i)) (awake : ¬ Parked (s.pc i)) :
    Shape ({ s with next := update s.next i s.state.pointer
                    state := .awaiter i
                    pushed := s.pushed ++ [i] }.goto i .suspended) granted front (i :: stack) := by
  have outside := shape.outside awake
  refine shape.move bystander awake .suspended (fun h => h) _ rfl rfl rfl rfl
    (iff_of_false nofun locked) nofun ?_ ?_ ?_ ?_
  · refine ⟨rfl, ?_⟩
    simp only [goto_next, update_self]
    exact shape.chain.update (fun member => outside (mem_append_right _ member)) _
  · rw [nodup_middle]
    exact nodup_cons.mpr ⟨outside, shape.nodup⟩
  · simp [Parked, or_comm]
  · simp only [goto_pushed, goto_resumed, shape.history, reverse_cons, append_assoc]

theorem Shape.acquire (free : s.state = .unlocked) :
    Shape ({ s with state := .null }.goto i .holding) granted front stack := by
  have none := shape.unlocked free
  have sole {j : Id} : Owns (if j = i then PC.holding else s.pc j) → j = i := by
    split
    · exact fun _ => ‹j = i›
    · exact fun owns => False.elim (none j owns)
  obtain ⟨-, noWaiters, rfl, rfl⟩ := shape.unowned none
  obtain rfl : stack = [] := by simpa [free, Word.pointer] using shape.chain
  refine { ok := shape.ok, unique := ?_, view := ?_, unlocked := nofun, unowned := ?_,
           chain := rfl, nodup := shape.nodup, parked := ?_,
           history := shape.history }
  · intro j k hj hk
    simp only [goto_pc] at hj hk
    exact (sole hj).trans (sole hk).symm
  · intro j hj
    simp only [goto_pc] at hj ⊢
    simp only [sole hj]
    exact ⟨rfl, noWaiters⟩
  · intro bad
    exact absurd (by simp only [goto_pc]; trivial) (bad i)
  intro j
  have before := shape.parked j
  simp only [goto_pc]
  split
  · rename_i same
    simp [Parked]
  · exact before

end

end Bystander

section Owner
/-! Steps of the request that owns the mutex. -/
variable {s : State Id} {i : Id} {granted front stack : List Id}

omit [DecidableEq Id] in
/-- A state with one owner has the shape of what the owner sees. -/
theorem Shape.of_owner {t : State Id} (here : t.pc i = pc) (owner : Owns pc)
    (only : ∀ j, Owns (t.pc j) → j = i) (view : View t i granted front pc)
    (locked : t.state ≠ .unlocked) (ok : t.failed = false)
    (chain : Chain t.next t.state.pointer stack) (nodup : (granted ++ front ++ stack).Nodup)
    (parked : ∀ j, Parked (t.pc j) ↔ j ∈ granted ++ front ++ stack)
    (history : t.pushed = t.resumed ++ (granted ++ front ++ stack.reverse)) :
    Shape t granted front stack where
  ok := ok
  unique j k hj hk := (only j hj).trans (only k hk).symm
  view j hj := by
    obtain rfl := only j hj
    rwa [here]
  unlocked free := absurd free locked
  unowned none := absurd (here ▸ owner) (none i)
  chain := chain
  nodup := nodup
  parked := parked
  history := history

theorem Shape.owner_of_update (shape : Shape s granted front stack) (owner : Owns (s.pc i))
    {pc : PC Id} (hj : Owns (update s.pc i pc j)) : j = i := by
  by_contra other
  rw [update_of_ne other] at hj
  exact other (shape.unique j i hj owner)

/-- The owner moves between its own locations. It may take the stack over or
choose the granted request, but the order in which requests wait stays. -/
theorem Shape.own (shape : Shape s granted front stack) (owner : Owns (s.pc i))
    (awake : ¬ Parked (s.pc i)) (pc : PC Id) (owner' : Owns pc) (awake' : ¬ Parked pc)
    (t : State Id) (pcs : t.pc = update s.pc i pc) (failed : t.failed = s.failed)
    (pushed : t.pushed = s.pushed) (resumed : t.resumed = s.resumed) (locked : t.state ≠ .unlocked)
    (view : View t i granted' front' pc) (chain : Chain t.next t.state.pointer stack')
    (same : granted' ++ front' ++ stack'.reverse = granted ++ front ++ stack.reverse) :
    Shape t granted' front' stack' := by
  have here : t.pc i = pc := by rw [pcs, update_self]
  have perm : (granted' ++ front' ++ stack').Perm (granted ++ front ++ stack) :=
    ((reverse_perm stack').symm.append_left _).trans
      (same ▸ (reverse_perm stack).append_left _)
  refine .of_owner here owner' ?_ view locked (failed.trans shape.ok) chain
    (perm.nodup_iff.mpr shape.nodup) ?_ ?_
  · intro j hj
    rw [pcs] at hj
    exact shape.owner_of_update owner hj
  · intro j
    rw [perm.mem_iff, pcs, update_apply]
    split
    · rename_i eq
      subst eq
      exact iff_of_false awake' (shape.outside awake)
    · exact shape.parked j
  · rw [pushed, resumed, same, shape.history]

theorem Shape.stay (shape : Shape s granted front stack) (owner : Owns (s.pc i))
    (awake : ¬ Parked (s.pc i)) (pc : PC Id) (owner' : Owns pc) (awake' : ¬ Parked pc)
    (view : View s i granted front pc) : Shape (s.goto i pc) granted front stack := by
  refine shape.own owner awake pc owner' awake' _ rfl rfl rfl rfl (shape.locked owner) ?_
    shape.chain rfl
  exact view.frame rfl id fun _ _ _ chain => chain

section
variable (shape : Shape s granted front stack)
include shape

omit [DecidableEq Id] in
theorem Shape.owns (at_ : s.pc i = pc) (owner : Owns pc) :
    Owns (s.pc i) ∧ View s i granted front pc := by
  subst at_
  exact ⟨owner, shape.view i owner⟩

/-- The exchange finds the pushed waiters: they are the list to be reversed, and
`state_` starts a new stack. -/
theorem Shape.take (at_ : s.pc i = .unlockTake) : Invariant (s.take i) := by
  obtain ⟨owner, rfl, rfl, -, pushed⟩ := shape.owns at_ trivial
  have chain := shape.chain
  unfold State.take
  split
  · rename_i top eq
    simp only [eq] at chain
    refine ⟨[], stack.reverse ++ [], [], shape.own owner (by simp [at_, Parked]) (.reverse none top)
      trivial (by simp [Parked]) _ rfl rfl rfl rfl nofun ?_ rfl (by simp)⟩
    exact ⟨rfl, [], stack, rfl, rfl, chain⟩
  · rename_i eq
    exact absurd eq (shape.locked owner)
  · rename_i eq
    exact absurd eq pushed

/-- One turn of the loop moves the first remaining node in front of the nodes
that are already reversed, which is its place in the order of waiting. -/
theorem Shape.reverseOne
    (at_ : s.pc i = .reverse waitersHead waiter) : Invariant (s.reverseOne i waitersHead waiter) := by
  obtain ⟨owner, rfl, ready, rest, rfl, done, todo⟩ := shape.owns at_ trivial
  have awake : ¬ Parked (s.pc i) := by simp [at_, Parked]
  obtain ⟨rest, rfl, tail⟩ := Chain.some_iff.mp todo
  have nodup := shape.nodup
  have notReady : waiter ∉ ready := fun member => by grind
  have notRest : waiter ∉ rest := fun member => by grind
  have notStack : waiter ∉ stack := fun member => by grind
  have done' : Chain (update s.next waiter waitersHead) (some waiter) (waiter :: ready) :=
    ⟨rfl, by simpa only [update_self] using done.update notReady waitersHead⟩
  have todo' := tail.update notRest waitersHead
  have stack' := shape.chain.update notStack waitersHead
  have locked := shape.locked owner
  unfold State.reverseOne
  simp only
  split
  · rename_i last
    obtain rfl : rest = [] := by simpa [last] using tail
    exact ⟨[], waiter :: ready, stack, shape.own owner awake (.setWaiters waiter) trivial
      (by simp [Parked]) _ rfl rfl rfl rfl locked ⟨rfl, done'⟩ stack' (by simp)⟩
  · rename_i waiter' more
    rw [more] at todo'
    exact ⟨[], rest.reverse ++ waiter :: ready, stack, shape.own owner awake
      (.reverse (some waiter) waiter') trivial (by simp [Parked]) _ rfl rfl rfl rfl locked
      ⟨rfl, waiter :: ready, rest, rfl, done', todo'⟩ stack' (by simp)⟩

/-- The first request of the owner's list is the granted one from here on. -/
theorem Shape.setWaiters (at_ : s.pc i = .setWaiters waitersHead) :
    Invariant ({ s with waiters := s.next waitersHead }.goto i (.wake waitersHead)) := by
  obtain ⟨owner, rfl, chain⟩ := shape.owns at_ trivial
  obtain ⟨rest, rfl, tail⟩ := Chain.some_iff.mp chain
  exact ⟨[waitersHead], rest, stack, shape.own owner (by simp [at_, Parked]) (.wake waitersHead)
    trivial (by simp [Parked]) _ rfl rfl rfl rfl (shape.locked owner) ⟨rfl, tail⟩ shape.chain rfl⟩

theorem Shape.wakeUp (at_ : s.pc i = .wake waitersHead) : Invariant (s.wakeUp i waitersHead) := by
  obtain ⟨owner, rfl, chain⟩ := shape.owns at_ trivial
  have parked := (shape.parked waitersHead).mpr (by simp)
  have suspended : s.pc waitersHead = .suspended := by
    refine parked.resolve_right fun bad => ?_
    have same := shape.unique waitersHead i (by rw [bad]; trivial) owner
    rw [same, at_] at bad
    cases bad
  have here : ((s.goto i .idle).goto waitersHead .scheduled).pc waitersHead = .scheduled := by simp
  simp only [State.wakeUp, suspended, if_true]
  refine ⟨[waitersHead], front, stack, .of_owner here trivial ?_ ⟨rfl, chain⟩ (shape.locked owner)
    shape.ok shape.chain shape.nodup ?_ shape.history⟩
  · intro j hj
    simp only [goto_pc] at hj
    by_contra ne
    simp only [ne, if_false] at hj
    split at hj
    · exact hj
    · rename_i ne'
      exact ne' (shape.unique j i hj owner)
  · intro j
    rw [← shape.parked j]
    simp only [goto_pc]
    split
    · rename_i same
      subst same
      exact iff_of_true (Or.inr rfl) (Or.inl suspended)
    split
    · rename_i same
      subst same
      simp [at_, Parked]
    · rfl

/-- The granted request is resumed: it is the holder, and the history of
resumptions gains the oldest push that was not resumed yet. -/
theorem Shape.resume (at_ : s.pc i = .scheduled) :
    Invariant ({ s with resumed := s.resumed ++ [i] }.goto i .holding) := by
  obtain ⟨owner, rfl, chain⟩ := shape.owns at_ trivial
  have nodup := shape.nodup
  simp only [cons_append, nodup_cons] at nodup
  have here : ({ s with resumed := s.resumed ++ [i] }.goto i .holding).pc i = .holding := by simp
  refine ⟨[], front, stack, .of_owner here trivial (fun j hj => shape.owner_of_update owner hj)
    ⟨rfl, chain⟩ (shape.locked owner) shape.ok shape.chain nodup.2 ?_ ?_⟩
  · intro j
    have before := shape.parked j
    simp only [goto_pc]
    split
    · rename_i same
      subst same
      exact iff_of_false (by simp [Parked]) nodup.1
    · rename_i ne
      simpa [ne] using before
  · simp only [goto_pushed, goto_resumed, shape.history, nil_append, append_assoc]

theorem Shape.release (at_ : s.pc i = .unlockRelease)
    (empty : s.state = .null) : Invariant ({ s with state := .unlocked }.goto i .idle) := by
  obtain ⟨owner, rfl, rfl, noWaiters⟩ := shape.owns at_ trivial
  obtain rfl : stack = [] := by simpa [empty, Word.pointer] using shape.chain
  have none (j : Id) : ¬ Owns ((s.goto i .idle).pc j) := by
    simp only [goto_pc]
    split
    · exact fun bad => bad
    · rename_i ne
      exact fun hj => ne (shape.unique j i hj owner)
  refine ⟨[], [], [],
    { ok := shape.ok, unique := fun j _ hj => absurd hj (none j),
      view := fun j hj => absurd hj (none j), unlocked := fun _ => none,
      unowned := fun _ => ⟨rfl, noWaiters, rfl, rfl⟩, chain := rfl, nodup := shape.nodup,
      parked := ?_, history := shape.history }⟩
  intro j
  have before := shape.parked j
  simp only [goto_pc]
  split
  · simp [Parked]
  · exact before

end

end Owner

theorem asynclock_invariant {s : State Id} (shape : Shape s granted front stack)
    (at_ : s.pc i = .attempt oldValue) (spurious : Bool) :
    Invariant (s.asynclock i oldValue spurious) := by
  have bystander : ¬ Owns (s.pc i) := by rw [at_]; exact fun h => h
  have awake : ¬ Parked (s.pc i) := by simp [at_, Parked]
  have retry (value : Option Id) := shape.link bystander awake (.attempt s.state) (fun h => h)
    (by simp [Parked]) value
  have push (locked : s.state ≠ .unlocked) := shape.push locked bystander awake
  cases oldValue with
  | unlocked =>
    simp only [State.asynclock]
    split
    · rename_i free
      exact ⟨_, _, _, shape.acquire free.1⟩
    · exact ⟨_, _, _, shape.goto bystander awake (.attempt s.state) (fun h => h) (by simp [Parked])⟩
  | null | awaiter =>
    simp only [State.asynclock]
    split
    · rename_i same
      rw [← same.1]
      exact ⟨_, _, _, push (by simp [same.1])⟩
    · exact ⟨_, _, _, retry _⟩

theorem tryAcquire_invariant {s : State Id} (shape : Shape s granted front stack)
    (bystander : ¬ Owns (s.pc i)) (awake : ¬ Parked (s.pc i)) (otherwise : PC Id)
    (bystander' : ¬ Owns otherwise) (awake' : ¬ Parked otherwise) :
    Invariant (s.tryAcquire i otherwise) := by
  unfold State.tryAcquire
  split
  · rename_i free
    exact ⟨_, _, _, shape.acquire free⟩
  · exact ⟨_, _, _, shape.goto bystander awake otherwise bystander' awake'⟩

theorem advance_invariant {s t : State Id} (inv : Invariant s)
    (took : advance s i spurious = some t) : Invariant t := by
  obtain ⟨granted, front, stack, shape⟩ := inv
  have own (owner : Owns (s.pc i)) := shape.view i owner
  have stay {pc : PC Id} (owner : Owns (s.pc i)) (awake : ¬ Parked (s.pc i)) (owner' : Owns pc)
      (awake' : ¬ Parked pc) (view : View s i granted front pc) : Invariant (s.goto i pc) :=
    ⟨_, _, _, shape.stay owner awake pc owner' awake' view⟩
  unfold advance at took
  cases at_ : s.pc i <;>
    simp only [at_, Option.some.injEq, reduceCtorEq] at took own stay
  case tryLock =>
    subst took
    exact tryAcquire_invariant shape (by rw [at_]; exact fun h => h) (by simp [at_, Parked]) _
      (fun h => h) (by simp [Parked])
  case awaitReady =>
    subst took
    exact tryAcquire_invariant shape (by rw [at_]; exact fun h => h) (by simp [at_, Parked]) _
      (fun h => h) (by simp [Parked])
  case load =>
    subst took
    exact ⟨_, _, _, shape.goto (by rw [at_]; exact fun h => h) (by simp [at_, Parked])
      (.attempt s.state) (fun h => h) (by simp [Parked])⟩
  case attempt oldValue =>
    subst took
    exact asynclock_invariant shape at_ spurious
  case unlock =>
    obtain ⟨rfl, chain⟩ := own trivial
    split at took <;> rename_i waiting <;> cases Option.some.inj took <;>
      rw [waiting] at chain
    · exact stay trivial (by simp [Parked]) trivial (by simp [Parked])
        ⟨rfl, by simpa using chain, waiting⟩
    · exact stay trivial (by simp [Parked]) trivial (by simp [Parked]) ⟨rfl, chain⟩
  case unlockLoad =>
    have view := own trivial
    split at took <;> rename_i empty <;> cases Option.some.inj took
    · exact stay trivial (by simp [Parked]) trivial (by simp [Parked]) view
    · exact stay trivial (by simp [Parked]) trivial (by simp [Parked])
        ⟨view.1, view.2.1, view.2.2, empty⟩
  case unlockRelease =>
    have view := own trivial
    split at took <;> rename_i empty <;> cases Option.some.inj took
    · exact shape.release at_ empty
    · exact stay trivial (by simp [Parked]) trivial (by simp [Parked])
        ⟨view.1, view.2.1, view.2.2, empty⟩
  case unlockTake => exact took ▸ shape.take at_
  case reverse => exact took ▸ shape.reverseOne at_
  case setWaiters => exact took ▸ shape.setWaiters at_
  case wake => exact took ▸ shape.wakeUp at_

theorem step_invariant {s t : State Id} (inv : Invariant s) (took : step s action = some t) :
    Invariant t := by
  obtain ⟨granted, front, stack, shape⟩ := inv
  have call {i : Id} (at_ : s.pc i = .idle) (pc : PC Id) (bystander : ¬ Owns pc)
      (awake : ¬ Parked pc) : Invariant (s.goto i pc) :=
    ⟨_, _, _, shape.goto (by rw [at_]; exact fun h => h) (by simp [at_, Parked]) pc bystander awake⟩
  cases action with
  | lock | tryLock =>
    obtain ⟨at_, rfl⟩ := of_ite took
    exact call at_ _ (fun h => h) (by simp [Parked])
  | unlock i =>
    obtain ⟨at_, took⟩ := Option.ite_none_right_eq_some.mp took
    obtain ⟨owner, view⟩ := shape.owns at_ trivial
    have locked := shape.locked owner
    simp only [locked, decide_false, Bool.or_false] at took
    exact ⟨_, _, _, Option.some.inj took ▸
      shape.stay owner (by simp [at_, Parked]) .unlock trivial (by simp [Parked]) view⟩
  | advance i spurious => exact advance_invariant ⟨_, _, _, shape⟩ took
  | resume i =>
    obtain ⟨at_, rfl⟩ := of_ite took
    exact shape.resume at_

theorem reaches_invariant {s : State Id} (reached : Reaches labels s) : Invariant s :=
  reached.invariant initial_invariant fun inv _ took => step_invariant inv took

/-! ### Delivery

Once a request waits, the steps of the owner alone bring it to the mutex: its
`unlock` call if it still holds, the atomic operations of `unlock`, and the
resumption of the granted request. -/

/-- Steps of the owner `i` and the resumption of `first` are enough to resume `first`. -/
def Delivers (s : State Id) (i first : Id) : Prop :=
  ∃ labels t, Run step free s labels t ∧
    (∀ a ∈ labels, a = .unlock i ∨ a = .advance i false ∨ a = .resume first) ∧
    t.resumed = s.resumed ++ [first] ∧ t.pc first = .holding

theorem Delivers.after {s t : State Id} (delivers : Delivers t i first) (label : Action Id)
    (took : step s label = some t) (resumed : t.resumed = s.resumed)
    (own : label = .unlock i ∨ label = .advance i false ∨ label = .resume first) :
    Delivers s i first := by
  obtain ⟨labels, u, run, only, last, holds⟩ := delivers
  refine ⟨[label] ++ labels, u, (Run.next .refl trivial took).trans run, ?_,
    last.trans (by rw [resumed]), holds⟩
  simpa [own] using only

section Delivery
variable {s : State Id} {i first : Id} {granted front stack rest later : List Id}

theorem delivers_scheduled (at_ : s.pc first = .scheduled) : Delivers s i first := by
  refine ⟨[] ++ [.resume first], { s with resumed := s.resumed ++ [first] }.goto first .holding,
    .next .refl trivial ?_, ?_, rfl, ?_⟩
  · simp only [step, at_, if_true]
  · simp
  · simp

section
variable (shape : Shape s granted front stack)
include shape

theorem Shape.delivers_wake (at_ : s.pc i = .wake first) : Delivers s i first := by
  obtain ⟨_, _, _, next⟩ := shape.wakeUp at_
  have suspended : s.pc first = .suspended := by
    by_contra bad
    have ok := next.ok
    simp [State.wakeUp, bad] at ok
  have scheduled : Delivers ((s.goto i .idle).goto first .scheduled) i first :=
    delivers_scheduled (by simp)
  exact scheduled.after (.advance i false)
    (by simp only [step, advance, at_, State.wakeUp, suspended, if_true]) rfl (Or.inr (Or.inl rfl))

theorem Shape.delivers_setWaiters (at_ : s.pc i = .setWaiters first) : Delivers s i first := by
  obtain ⟨_, _, _, next⟩ := shape.setWaiters at_
  exact (next.delivers_wake (by simp)).after (.advance i false)
    (by simp [step, advance, at_]) rfl (Or.inr (Or.inl rfl))

/-- Induction on the nodes that are still to be reversed: the last of them is the
oldest waiter and becomes the head of the list. -/
theorem Shape.delivers_reverse
    (at_ : s.pc i = .reverse waitersHead waiter) (todo : Chain s.next (some waiter) rest)
    (oldest : rest.getLast? = some first) : Delivers s i first := by
  induction rest generalizing s granted front stack waitersHead waiter with
  | nil => cases todo
  | cons node rest ih =>
    have here := todo
    obtain ⟨same, tail⟩ := todo
    cases same
    obtain ⟨-, rfl, ready, rest', rfl, -, todo'⟩ := shape.owns at_ trivial
    obtain rfl := todo'.unique here
    have fresh : node ∉ rest := by
      have nodup := shape.nodup
      exact fun member => by grind
    obtain ⟨_, _, _, next⟩ := shape.reverseOne at_
    have took : step s (.advance i false) = some (s.reverseOne i waitersHead node) := by
      simp only [step, advance, at_]
    cases rest with
    | nil =>
      obtain rfl : node = first := by simpa using oldest
      simp only [State.reverseOne, Chain.nil_iff.mp tail] at next took
      exact (next.delivers_setWaiters (by simp)).after _ took rfl (Or.inr (Or.inl rfl))
    | cons waiter' rest =>
      simp only [State.reverseOne, tail.1] at next took
      have there := goto_pc { s with next := update s.next node waitersHead } i i
        (.reverse (some node) waiter')
      rw [if_pos rfl] at there
      refine (ih next there ?_ ?_).after _ took rfl (Or.inr (Or.inl rfl))
      · exact ⟨rfl, (tail.update fresh waitersHead).2⟩
      · simpa using oldest

theorem Shape.delivers_take (at_ : s.pc i = .unlockTake)
    (oldest : stack.getLast? = some first) : Delivers s i first := by
  obtain ⟨_, _, _, next⟩ := shape.take at_
  have took : step s (.advance i false) = some (s.take i) := by simp only [step, advance, at_]
  have chain := shape.chain
  cases word : s.state with
  | unlocked | null =>
    obtain rfl : stack = [] := by simpa [word, Word.pointer] using chain
    cases oldest
  | awaiter top =>
    simp only [word] at chain
    simp only [State.take, word] at next took
    have there := goto_pc { s with state := .null } i i (.reverse none top)
    rw [if_pos rfl] at there
    exact (next.delivers_reverse there chain oldest).after _ took rfl (Or.inr (Or.inl rfl))

/-- With a waiter on the stack neither the load nor the compare_exchange sees `nullptr`. -/
theorem Shape.delivers_release
    (at_ : s.pc i = .unlockLoad ∨ s.pc i = .unlockRelease) (oldest : stack.getLast? = some first) :
    Delivers s i first := by
  have pushed : s.state ≠ .null := by
    intro empty
    obtain rfl : stack = [] := by simpa [empty, Word.pointer] using shape.chain
    cases oldest
  have owner : Owns (s.pc i) := by rcases at_ with at_ | at_ <;> rw [at_] <;> trivial
  have view : View s i granted front .unlockTake := by
    have view := shape.view i owner
    rcases at_ with at_ | at_ <;> rw [at_] at view <;> exact ⟨view.1, view.2.1, view.2.2, pushed⟩
  have next := shape.stay owner (by rcases at_ with at_ | at_ <;> simp [at_, Parked]) .unlockTake
    trivial (by simp [Parked]) view
  refine (next.delivers_take (by simp) oldest).after (.advance i false) ?_ rfl
    (Or.inr (Or.inl rfl))
  rcases at_ with at_ | at_ <;> simp only [step, advance, at_, pushed, if_false]

theorem Shape.delivers_unlock (at_ : s.pc i = .unlock)
    (oldest : (front ++ stack.reverse).head? = some first) : Delivers s i first := by
  obtain ⟨owner, rfl, chain⟩ := shape.owns at_ trivial
  have stay (pc : PC Id) (owner' : Owns pc) (awake : ¬ Parked pc) (view : View s i [] front pc) :=
    shape.stay owner (by simp [at_, Parked]) pc owner' awake view
  cases front with
  | nil =>
    have next := stay .unlockLoad trivial (by simp [Parked]) ⟨rfl, rfl, chain⟩
    refine (next.delivers_release (Or.inl (by simp)) (by simpa using oldest)).after
      (.advance i false) ?_ rfl (Or.inr (Or.inl rfl))
    simp only [step, advance, at_, Chain.nil_iff.mp chain]
  | cons head rest =>
    obtain rfl : head = first := by simpa using oldest
    have next := stay (.setWaiters head) trivial (by simp [Parked]) ⟨rfl, rfl, chain.2⟩
    refine (next.delivers_setWaiters (by simp)).after (.advance i false) ?_ rfl
      (Or.inr (Or.inl rfl))
    simp only [step, advance, at_, chain.1]

/-- The owner's location decides how much of `unlock` is left to run. -/
theorem Shape.delivers (owner : Owns (s.pc i))
    (oldest : s.pushed = s.resumed ++ first :: later) : Delivers s i first := by
  have order : (granted ++ front ++ stack.reverse).head? = some first := by
    rw [append_cancel_left (shape.history.symm.trans oldest)]
    rfl
  have view := shape.view i owner
  cases at_ : s.pc i <;> rw [at_] at view owner
  case idle | tryLock | awaitReady | load | attempt | suspended => exact False.elim owner
  case scheduled =>
    obtain ⟨rfl, -⟩ := view
    obtain rfl : i = first := by simpa using order
    exact delivers_scheduled at_
  case holding =>
    obtain ⟨rfl, chain⟩ := view
    have locked := shape.locked (by rw [at_]; trivial)
    have next := shape.stay (by rw [at_]; trivial) (by simp [at_, Parked]) .unlock trivial
      (by simp [Parked]) ⟨rfl, chain⟩
    refine (next.delivers_unlock (by simp) order).after (.unlock i) ?_ rfl (Or.inl rfl)
    simp only [step, at_, locked, decide_false, Bool.or_false, if_true]
  case unlock =>
    obtain ⟨rfl, -⟩ := view
    exact shape.delivers_unlock at_ order
  case unlockLoad =>
    obtain ⟨rfl, rfl, -⟩ := view
    exact shape.delivers_release (Or.inl at_) (by simpa using order)
  case unlockRelease =>
    obtain ⟨rfl, rfl, -⟩ := view
    exact shape.delivers_release (Or.inr at_) (by simpa using order)
  case unlockTake =>
    obtain ⟨rfl, rfl, -⟩ := view
    exact shape.delivers_take at_ (by simpa using order)
  case reverse waitersHead waiter =>
    obtain ⟨rfl, ready, rest, rfl, -, todo⟩ := view
    obtain ⟨tail, rfl, -⟩ := Chain.some_iff.mp todo
    apply shape.delivers_reverse at_ todo
    simpa [List.getLast?_cons] using order
  case setWaiters head =>
    obtain ⟨rfl, chain⟩ := view
    obtain ⟨rest, rfl, -⟩ := Chain.some_iff.mp chain
    obtain rfl : head = first := by simpa using order
    exact shape.delivers_setWaiters at_
  case wake head =>
    obtain ⟨rfl, -⟩ := view
    obtain rfl : head = first := by simpa using order
    exact shape.delivers_wake at_

end

end Delivery

/-- At most one request holds the mutex. The pushes are the resumptions, in the
same order, followed by the requests that are suspended now, each of them once; a
resumed request holds the mutex alone. Nobody is forgotten: while requests wait
there is an owner whose own steps resume the oldest of them. -/
theorem lock_exclusive_fifo {s : State Id} (reached : Reaches labels s) :
    s.failed = false ∧ (∀ i j, s.pc i = .holding → s.pc j = .holding → i = j) ∧
    (∀ i t, step s (.resume i) = some t → t.pc i = .holding ∧ ∀ j, t.pc j = .holding → j = i) ∧
    ∃ waiting, s.pushed = s.resumed ++ waiting ∧ waiting.Nodup ∧
      (∀ i, s.pc i = .suspended ∨ s.pc i = .scheduled ↔ i ∈ waiting) ∧
      ∀ first rest, waiting = first :: rest → ∃ owner, Delivers s owner first := by
  have inv := reaches_invariant reached
  obtain ⟨granted, front, stack, shape⟩ := inv
  have exclusive {s : State Id} (inv : Invariant s) (i j : Id) (hi : s.pc i = .holding)
      (hj : s.pc j = .holding) : i = j := by
    obtain ⟨_, _, _, shape⟩ := inv
    exact shape.unique i j (by rw [hi]; trivial) (by rw [hj]; trivial)
  refine ⟨shape.ok, exclusive ⟨_, _, _, shape⟩, ?_, granted ++ front ++ stack.reverse, shape.history,
    ?_, ?_, ?_⟩
  · intro i t stepped
    have next := step_invariant ⟨_, _, _, shape⟩ stepped
    obtain ⟨_, rfl⟩ := of_ite stepped
    have holds : (({ s with resumed := s.resumed ++ [i] }.goto i .holding).pc i) = .holding := by simp
    exact ⟨holds, fun j hj => exclusive next j i hj holds⟩
  · exact ((reverse_perm stack).append_left _).nodup_iff.mpr shape.nodup
  · intro i
    rw [((reverse_perm stack).append_left _).mem_iff]
    exact shape.parked i
  intro first rest order
  have owned : ∃ i, Owns (s.pc i) := by
    by_contra none
    obtain ⟨free, -, rfl, rfl⟩ := shape.unowned (not_exists.mp none)
    obtain rfl : stack = [] := by simpa [free, Word.pointer] using shape.chain
    cases order
  obtain ⟨i, owner⟩ := owned
  exact ⟨i, shape.delivers owner (shape.history.trans (by rw [order]))⟩

/-- Two requests meet: the second one is pushed after a spurious failure while the
first one holds, and the first one's `unlock` finds it on the stack. -/
def handover : List (Action Nat) :=
  [.lock 0, .advance 0 false, .lock 1, .advance 1 false, .advance 1 false, .advance 1 true,
    .unlock 0, .advance 0 false, .advance 0 false, .advance 1 false, .advance 0 false,
    .advance 0 false, .advance 0 false, .advance 0 false, .advance 0 false, .resume 1]

theorem lock_exclusive_fifo_handover : ∃ s, Reaches handover s ∧ s.pushed = [1] ∧
    s.resumed = [1] ∧ s.pc 1 = .holding ∧ ∀ i, s.pc i = .holding → i = 1 :=
  ⟨_, .of_exec rfl, rfl, rfl, rfl,
    fun i holds => (lock_exclusive_fifo (show Reaches handover _ from .of_exec rfl)).2.1 i 1 holds rfl⟩

end Nitrocoro.Mutex
