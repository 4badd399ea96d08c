import Nitrocoro.Core.MpscQueue

/-! The values leave the queue in the order of the exchanges of `tail_`, each once. A pop that
finds nothing has met the end of the queue or a push that is still to be linked, and nothing
behind such a push is lost. -/
namespace Nitrocoro.MpscQueue
open LinkedList Function Transition List
variable {Id T : Type} {s t : State Id T} {passed ahead : List Nat} {later : List T}
  {prev : Nat}

def State.Pending (s : State Id T) (prev node : Nat) : Prop := ∃ i, s.push i = .link prev node

theorem goto_push [DecidableEq Id] {i j : Id} {pc pc' : PushPC}
    (at_ : (s.goto i pc).push j = pc') : pc' = pc ∧ j = i ∨ s.push j = pc' ∧ j ≠ i := by
  by_cases same : j = i
  · subst same
    exact .inl ⟨at_.symm.trans (update_self ..), rfl⟩
  · exact .inr ⟨(update_of_ne same _ _).symm.trans at_, same⟩

/-- The nodes in the order of their exchanges: those that the consumer has left behind, `head_`,
and those ahead of it with their values. -/
structure Shape (s : State Id T) (passed ahead : List Nat) (later : List T) : Prop where
  order : 0 :: s.order = passed ++ s.head :: ahead
  nodup : (0 :: s.order).Nodup
  known : ∀ node ∈ 0 :: s.order, node < s.fresh
  follows : Follows s.next s.Pending s.head ahead
  ends : (s.head :: ahead).getLast? = some s.tail
  linking : ∀ i prev node, s.push i = .link prev node →
    [prev, node] <:+: s.head :: ahead ∧ s.next prev = none
  linker : ∀ i j prev prev' node, s.push i = .link prev node → s.push j = .link prev' node → i = j
  own : ∀ i node, s.push i = .exchange node →
    node ∉ 0 :: s.order ∧ node < s.fresh ∧ s.next node = none ∧ (s.value node).isSome
  owner : ∀ i j node, s.push i = .exchange node → s.push j = .exchange node → i = j
  values : ahead.map s.value = later.map some

namespace Shape

theorem mem_order (shape : Shape s passed ahead later) (mem : node ∈ s.head :: ahead) :
    node ∈ 0 :: s.order := by
  rw [shape.order]
  exact mem_append_right _ mem

theorem nodup_ahead (shape : Shape s passed ahead later) : (s.head :: ahead).Nodup := by
  have all := shape.nodup
  rw [shape.order] at all
  exact (nodup_append.mp all).2.1

variable [DecidableEq Id] {i j : Id}

theorem allocate (shape : Shape s passed ahead later) (idle : s.push i = .idle) (value : T) :
    Shape ({ s with
      value := update s.value s.fresh (some value)
      next := update s.next s.fresh none
      fresh := s.fresh + 1 }.goto i (.exchange s.fresh)) passed ahead later := by
  have old : ∀ node ∈ 0 :: s.order, node ≠ s.fresh := fun node mem =>
    Nat.ne_of_lt (shape.known node mem)
  refine ⟨shape.order, shape.nodup, fun node mem => Nat.lt_succ_of_lt (shape.known node mem), ?_,
    shape.ends, ?_, ?_, ?_, ?_, ?_⟩
  · refine (shape.follows.congr fun node mem => ?_).mono fun prev _ node pending => ?_
    · exact update_of_ne (old node (shape.mem_order mem)) _ _
    obtain ⟨j, at_⟩ := pending
    have other : j ≠ i := by
      rintro rfl
      rw [idle] at at_
      cases at_
    exact ⟨j, (update_of_ne other _ _).trans at_⟩
  · intro j prev node at_
    obtain ⟨same, -⟩ | ⟨at_, -⟩ := goto_push at_
    · cases same
    · obtain ⟨here, null⟩ := shape.linking j prev node at_
      have known := shape.mem_order (here.subset mem_cons_self)
      exact ⟨here, (update_of_ne (old prev known) _ _).trans null⟩
  · intro j k prev prev' node at_ at_'
    obtain ⟨same, -⟩ | ⟨at_, -⟩ := goto_push at_
    · cases same
    obtain ⟨same, -⟩ | ⟨at_', -⟩ := goto_push at_'
    · cases same
    exact shape.linker j k prev prev' node at_ at_'
  · intro j node at_
    obtain ⟨same, -⟩ | ⟨at_, -⟩ := goto_push at_
    · cases same
      refine ⟨fun mem => old _ mem rfl, Nat.lt_succ_self _, update_self .., ?_⟩
      simp [State.goto]
    · obtain ⟨outside, known, null, some_⟩ := shape.own j node at_
      have other : node ≠ s.fresh := Nat.ne_of_lt known
      refine ⟨outside, Nat.lt_succ_of_lt known, (update_of_ne other _ _).trans null, ?_⟩
      simpa [State.goto, update_of_ne other] using some_
  · intro j k node at_ at_'
    rcases goto_push at_ with ⟨same, rfl⟩ | ⟨here, -⟩ <;>
      rcases goto_push at_' with ⟨same', rfl⟩ | ⟨here', -⟩
    · rfl
    · cases same
      exact absurd (shape.own k _ here').2.1 (Nat.lt_irrefl _)
    · cases same'
      exact absurd (shape.own j _ here).2.1 (Nat.lt_irrefl _)
    · exact shape.owner j k node here here'
  · rw [← shape.values]
    refine map_congr_left fun node mem => ?_
    exact update_of_ne (old node (shape.mem_order (mem_cons_of_mem _ mem))) _ _

theorem exchange (shape : Shape s passed ahead later) (at_ : s.push i = .exchange node)
    (holds : s.value node = some value) : Shape ({ s with
      tail := node
      order := s.order ++ [node]
      pushed := s.pushed ++ [value] }.goto i (.link s.tail node)) passed (ahead ++ [node])
      (later ++ [value]) := by
  obtain ⟨outside, known, null, -⟩ := shape.own i node at_
  have grown : (0 :: s.order) ++ [node] = passed ++ s.head :: (ahead ++ [node]) := by
    rw [shape.order, append_assoc, cons_append]
  have distinct : ((0 :: s.order) ++ [node]).Nodup := by
    refine nodup_append.mpr ⟨shape.nodup, nodup_singleton _, ?_⟩
    intro a mem b single same
    rw [mem_singleton.mp single] at same
    exact outside (same ▸ mem)
  refine ⟨grown, distinct, ?_, ?_, ?_, ?_, ?_, ?_, ?_, ?_⟩
  · intro m mem
    rcases mem_append.mp (show m ∈ (0 :: s.order) ++ [node] from mem) with mem | single
    · exact shape.known m mem
    · rw [mem_singleton.mp single]
      exact known
  · have kept : Follows s.next (State.Pending (s.goto i (.link s.tail node))) s.head ahead :=
      shape.follows.mono ?_
    · exact kept.extend shape.ends null ⟨i, update_self ..⟩
    rintro prev _ m ⟨j, linking⟩
    have other : j ≠ i := by
      rintro rfl
      rw [at_] at linking
      cases linking
    exact ⟨j, (update_of_ne other _ _).trans linking⟩
  · exact (List.getLast?_append (l := s.head :: ahead)).trans rfl
  · intro j prev m linking
    rcases goto_push linking with ⟨same, -⟩ | ⟨old, -⟩
    · cases same
      obtain ⟨before, split⟩ := List.getLast?_eq_some_iff.mp shape.ends
      refine ⟨⟨before, [], ?_⟩, ?_⟩
      · show before ++ [s.tail, node] ++ [] = (s.head :: ahead) ++ [node]
        rw [split]
        simp
      · exact shape.follows.next_last shape.ends
    · obtain ⟨here, null'⟩ := shape.linking j prev m old
      exact ⟨here.trans ⟨[], [node], rfl⟩, null'⟩
  · intro j k prev prev' m linking linking'
    -- the new link is the only one to its node, which no earlier link knows
    have fresh : ∀ {j prev}, s.push j ≠ .link prev node := fun old =>
      outside (shape.mem_order ((shape.linking _ _ _ old).1.subset (by simp)))
    rcases goto_push linking with ⟨same, rfl⟩ | ⟨old, -⟩ <;>
      rcases goto_push linking' with ⟨same', rfl⟩ | ⟨old', -⟩
    · rfl
    · cases same
      exact absurd old' fresh
    · cases same'
      exact absurd old fresh
    · exact shape.linker j k prev prev' m old old'
  · intro j m at_'
    rcases goto_push at_' with ⟨same, -⟩ | ⟨old, other⟩
    · cases same
    obtain ⟨outside', rest⟩ := shape.own j m old
    refine ⟨fun mem => ?_, rest⟩
    rcases mem_append.mp (show m ∈ (0 :: s.order) ++ [node] from mem) with mem | single
    · exact outside' mem
    · rw [mem_singleton.mp single] at old
      exact other (shape.owner j i node old at_)
  · intro j k m at_' at_''
    rcases goto_push at_' with ⟨same, -⟩ | ⟨old, -⟩
    · cases same
    rcases goto_push at_'' with ⟨same, -⟩ | ⟨old', -⟩
    · cases same
    exact shape.owner j k m old old'
  · rw [map_append, map_append, ← shape.values]
    exact congrArg _ (congrArg (fun v => [v]) holds)

theorem link (shape : Shape s passed ahead later) (at_ : s.push i = .link prev node) :
    Shape ({ s with next := update s.next prev (some node) }.goto i .idle)
      passed ahead later := by
  obtain ⟨here, -⟩ := shape.linking i prev node at_
  have single : ∀ {j prev' m}, s.push j = .link prev' m → j ≠ i → prev' ≠ prev := by
    rintro j prev' m linking other rfl
    obtain ⟨here', -⟩ := shape.linking j prev' m linking
    have same : m = node := pair_infix_unique here' here shape.nodup_ahead
    exact other (shape.linker j i _ _ _ (same ▸ linking) at_)
  refine ⟨shape.order, shape.nodup, shape.known, ?_, shape.ends, ?_, ?_, ?_, ?_, shape.values⟩
  · apply shape.follows.link shape.nodup_ahead here
    rintro a b apart ⟨j, linking⟩
    have other : j ≠ i := by
      rintro rfl
      rw [at_] at linking
      cases linking
      exact apart rfl
    exact ⟨j, (update_of_ne other _ _).trans linking⟩
  · intro j prev' m linking
    rcases goto_push linking with ⟨same, -⟩ | ⟨old, other⟩
    · cases same
    · obtain ⟨here', null'⟩ := shape.linking j prev' m old
      exact ⟨here', (update_of_ne (single old other) _ _).trans null'⟩
  · intro j k prev' prev'' m linking linking'
    rcases goto_push linking with ⟨same, -⟩ | ⟨old, -⟩
    · cases same
    rcases goto_push linking' with ⟨same, -⟩ | ⟨old', -⟩
    · cases same
    exact shape.linker j k _ _ m old old'
  · intro j m at_'
    rcases goto_push at_' with ⟨same, -⟩ | ⟨old, -⟩
    · cases same
    obtain ⟨outside, known, null', some_⟩ := shape.own j m old
    have other : m ≠ prev := by
      rintro rfl
      exact outside (shape.mem_order (here.subset mem_cons_self))
    exact ⟨outside, known, (update_of_ne other _ _).trans null', some_⟩
  · intro j k m at_' at_''
    rcases goto_push at_' with ⟨same, -⟩ | ⟨old, -⟩
    · cases same
    rcases goto_push at_'' with ⟨same, -⟩ | ⟨old', -⟩
    · cases same
    exact shape.owner j k m old old'

omit [DecidableEq Id] in
theorem popping (shape : Shape s passed ahead later) (pop : PopPC T) (deleted : List Nat)
    (popped : List T) : Shape { s with pop, deleted, popped } passed ahead later :=
  { shape with }

omit [DecidableEq Id] in
theorem advanceHead (shape : Shape s passed (node :: ahead) (value :: later))
    (written : s.next s.head = some node) (pop : PopPC T) :
    Shape { s with head := node, pop } (passed ++ [s.head]) ahead later where
  order := by rw [shape.order, append_assoc]; rfl
  nodup := shape.nodup
  known := shape.known
  follows := shape.follows.2
  ends := by rw [← shape.ends, List.getLast?_cons_cons]
  linking i prev m at_ := by
    obtain ⟨here, null⟩ := shape.linking i prev m at_
    have other : prev ≠ s.head := by
      rintro rfl
      rw [written] at null
      cases null
    exact ⟨pair_infix_tail here other, null⟩
  linker := shape.linker
  own := shape.own
  owner := shape.owner
  values := (List.cons.inj shape.values).2

end Shape

/-- What the consumer knows at its place inside `pop`, and what it has returned and deleted. -/
def Consumes (s : State Id T) (passed : List Nat) (later : List T) : Prop :=
  match s.pop with
  | .idle => s.pushed = s.popped ++ later ∧ passed = s.deleted
  | .loadNext head => s.pushed = s.popped ++ later ∧ passed = s.deleted ∧ head = s.head
  | .storeHead head next value => s.pushed = s.popped ++ later ∧ passed = s.deleted ∧
      head = s.head ∧ s.next head = some next ∧ s.value next = some value
  | .delete head value => s.pushed = s.popped ++ value :: later ∧ passed = s.deleted ++ [head]

structure Holds (s : State Id T) (passed ahead : List Nat) (later : List T) : Prop where
  shape : Shape s passed ahead later
  consumes : Consumes s passed later
  counted : s.deleted.length = s.popped.length

def Inv (s : State Id T) : Prop := ∃ passed ahead later, Holds s passed ahead later

theorem inv_start : Inv ({} : State Id T) :=
  ⟨[], [], [], ⟨rfl, by simp, by simp, rfl, rfl, nofun, nofun, nofun, nofun, rfl⟩, ⟨rfl, rfl⟩, rfl⟩

section Steps
variable [DecidableEq Id] {i : Id}

theorem Holds.allocate (holds : Holds s passed ahead later) (idle : s.push i = .idle) (value : T) :
    Holds ({ s with
      value := update s.value s.fresh (some value)
      next := update s.next s.fresh none
      fresh := s.fresh + 1 }.goto i (.exchange s.fresh)) passed ahead later := by
  refine ⟨holds.shape.allocate idle value, ?_, holds.counted⟩
  have consumes := holds.consumes
  unfold Consumes at consumes ⊢
  dsimp only [State.goto]
  split <;> rename_i pop <;> simp only [pop] at consumes <;> try exact consumes
  case h_3 head next value' =>
    obtain ⟨pushed, deleted, rfl, written, moved⟩ := consumes
    have old : ∀ node ∈ 0 :: s.order, node ≠ s.fresh := fun node mem =>
      Nat.ne_of_lt (holds.shape.known node mem)
    have headKnown := old s.head (holds.shape.mem_order mem_cons_self)
    have nextKnown : next ≠ s.fresh := by
      refine old next (holds.shape.mem_order (mem_cons_of_mem _ ?_))
      exact holds.shape.follows.mem_of_next written
    refine ⟨pushed, deleted, rfl, ?_, ?_⟩
    · exact (update_of_ne headKnown _ _).trans written
    · exact (update_of_ne nextKnown _ _).trans moved

theorem Holds.exchange (holds : Holds s passed ahead later) (at_ : s.push i = .exchange node)
    (value_eq : s.value node = some value) : Holds ({ s with
      tail := node
      order := s.order ++ [node]
      pushed := s.pushed ++ [value] }.goto i (.link s.tail node)) passed (ahead ++ [node])
      (later ++ [value]) := by
  refine ⟨holds.shape.exchange at_ value_eq, ?_, holds.counted⟩
  have consumes := holds.consumes
  unfold Consumes at consumes ⊢
  dsimp only [State.goto]
  split
  all_goals
    rename_i pop
    simp only [pop] at consumes
    refine ⟨?_, consumes.2⟩
    simp only [consumes.1, append_assoc, cons_append]

theorem Holds.link (holds : Holds s passed ahead later) (at_ : s.push i = .link prev node) :
    Holds ({ s with next := update s.next prev (some node) }.goto i .idle)
      passed ahead later := by
  refine ⟨holds.shape.link at_, ?_, holds.counted⟩
  have consumes := holds.consumes
  unfold Consumes at consumes ⊢
  dsimp only [State.goto]
  split <;> rename_i pop <;> simp only [pop] at consumes <;> try exact consumes
  case h_3 head next value =>
    obtain ⟨pushed, deleted, rfl, written, moved⟩ := consumes
    have other : s.head ≠ prev := by
      rintro rfl
      rw [(holds.shape.linking i _ _ at_).2] at written
      cases written
    exact ⟨pushed, deleted, rfl, (update_of_ne other _ _).trans written, moved⟩

omit [DecidableEq Id] in
theorem Inv.consume (inv : Inv s) (took : s.consume = some t) : Inv t := by
  obtain ⟨passed, ahead, later, shape, consumes, counted⟩ := inv
  unfold Consumes at consumes
  unfold State.consume at took
  cases pop : s.pop with
  | idle =>
    simp only [pop] at consumes took
    cases took
    exact ⟨passed, ahead, later, shape.popping .., ⟨consumes.1, consumes.2, rfl⟩, counted⟩
  | loadNext head =>
    simp only [pop] at consumes took
    obtain ⟨pushed, deleted, rfl⟩ := consumes
    cases written : s.next s.head with
    | none =>
      simp only [written] at took
      cases took
      exact ⟨passed, ahead, later, shape.popping .., ⟨pushed, deleted⟩, counted⟩
    | some next =>
      simp only [written] at took
      obtain ⟨value, moved, same⟩ := Option.map_eq_some_iff.mp took
      cases same
      exact ⟨passed, ahead, later, shape.popping .., ⟨pushed, deleted, rfl, written, moved⟩,
        counted⟩
  | storeHead head next value =>
    simp only [pop] at consumes took
    cases took
    obtain ⟨pushed, deleted, rfl, written, moved⟩ := consumes
    obtain ⟨rest, rfl⟩ := shape.follows.eq_cons written
    cases later with
    | nil => cases shape.values
    | cons value' later =>
      have same : some value = some value' := moved.symm.trans (List.cons.inj shape.values).1
      cases same
      exact ⟨passed ++ [s.head], rest, later, shape.advanceHead written _,
        ⟨pushed, by rw [deleted]⟩, counted⟩
  | delete head value =>
    simp only [pop] at consumes took
    cases took
    refine ⟨passed, ahead, later, shape.popping .., ⟨?_, consumes.2⟩, ?_⟩
    · rw [consumes.1, append_assoc]
      rfl
    · simp only [length_append, counted, length_singleton]

theorem Inv.step {a : Action Id T} (inv : Inv s) (took : s.step a = some t) : Inv t := by
  cases a with
  | push i value =>
    obtain ⟨passed, ahead, later, holds⟩ := inv
    simp only [State.step] at took
    split at took <;> cases took
    rename_i idle
    exact ⟨passed, ahead, later, holds.allocate idle value⟩
  | advance i =>
    obtain ⟨passed, ahead, later, holds⟩ := inv
    simp only [State.step, State.advance] at took
    split at took <;> cases took
    · rename_i node at_
      obtain ⟨value, known⟩ := Option.isSome_iff_exists.mp (holds.shape.own i node at_).2.2.2
      rw [known]
      exact ⟨passed, _, _, holds.exchange at_ known⟩
    · rename_i prev node at_
      exact ⟨passed, ahead, later, holds.link at_⟩
  | consume => exact inv.consume took

theorem step_push (took : s.step (.push i value) = some t) :
    s.push i = .idle ∧ t.push = update s.push i (.exchange s.fresh) ∧
      ∀ node, t.Finished node ↔ s.Finished node := by
  simp only [State.step] at took
  split at took <;> cases took
  rename_i idle
  refine ⟨idle, rfl, fun node => and_congr Iff.rfl (not_congr ?_)⟩
  constructor
  · rintro ⟨j, prev, linking⟩
    rcases goto_push linking with ⟨same, -⟩ | ⟨old, -⟩
    · cases same
    · exact ⟨j, prev, old⟩
  rintro ⟨j, prev, linking⟩
  have other : j ≠ i := by
    rintro rfl
    rw [idle] at linking
    cases linking
  exact ⟨j, prev, (update_of_ne other _ _).trans linking⟩

theorem advance_busy (took : s.advance i = some t) : s.push i ≠ .idle := by
  intro idle
  simp [State.advance, idle] at took

theorem advance_self (took : s.advance i = some t) :
    (∃ prev node, t.push i = .link prev node) ∨ t.push i = .idle := by
  simp only [State.advance] at took
  split at took <;> cases took
  · exact .inl ⟨_, _, update_self ..⟩
  · exact .inr (update_self ..)

theorem advance_other (took : s.advance i = some t) (other : j ≠ i) : t.push j = s.push j := by
  simp only [State.advance] at took
  split at took <;> cases took <;> exact update_of_ne other _ _

omit [DecidableEq Id] in
theorem consume_push (took : s.consume = some t) : t.push = s.push := by
  simp only [State.consume] at took
  split at took
  · cases took
    rfl
  · split at took
    · cases took
      rfl
    · obtain ⟨value, -, same⟩ := Option.map_eq_some_iff.mp took
      cases same
      rfl
  · cases took
    rfl
  · cases took
    rfl

omit [DecidableEq Id] in
theorem consume_nullopt (took : s.consume = some t) (none : s.returned = some none) :
    t = { s with pop := .idle } := by
  unfold State.returned at none
  unfold State.consume at took
  cases pop : s.pop with
  | loadNext head =>
    simp only [pop] at none took
    split at none
    · rename_i null
      rw [Option.isNone_iff_eq_none.mp null] at took
      cases took
      rfl
    · cases none
  | idle | storeHead | delete => simp [pop] at none

theorem Reaches.inv (run : Reaches labels s) : Inv s :=
  run.invariant inv_start fun inv _ took => inv.step took

end Steps
theorem Holds.waiting_eq (holds : Holds s passed ahead later) (same : passed = s.deleted) :
    s.waiting = ahead := by
  have split := congrArg (List.drop (s.popped.length + 1)) holds.shape.order
  rw [drop_succ_cons] at split
  rw [State.waiting, split, ← holds.counted, ← same]
  simp

/-- A pop that finds nothing has met the first node that it waits for before it is linked. -/
theorem Inv.nullopt (inv : Inv s) (none : s.returned = some none) (more : s.waiting = m :: ms) :
    s.Unlinked m := by
  obtain ⟨passed, ahead, later, holds⟩ := inv
  have consumes := holds.consumes
  unfold Consumes at consumes
  unfold State.returned at none
  cases pop : s.pop with
  | loadNext head =>
    simp only [pop] at consumes none
    obtain ⟨-, deleted, rfl⟩ := consumes
    split at none
    · rename_i null
      have follows := holds.shape.follows
      rw [← holds.waiting_eq deleted, more] at follows
      obtain ⟨i, linking⟩ := follows.gap_of_none (Option.isNone_iff_eq_none.mp null)
      exact ⟨i, _, linking⟩
    · cases none
  | idle | storeHead | delete => simp [pop] at none

/-- A pop that finds nothing in a queue with a finished push has met one that is not. -/
theorem Inv.nullopt_finished (inv : Inv s) (none : s.returned = some none)
    (finished : State.Finished { s with pop := .idle } node) :
    ∃ i prev node, s.push i = .link prev node := by
  obtain ⟨first, rest, more⟩ := exists_cons_of_ne_nil (ne_nil_of_mem finished.1)
  obtain ⟨i, prev, linking⟩ := inv.nullopt none more
  exact ⟨i, prev, first, linking⟩

def State.rank (s : State Id T) : Nat :=
  let left := s.pushed.length - s.popped.length
  match s.pop with
  | .idle => 4 * left
  | .loadNext _ => if left = 0 then 1 else 4 * left - 1
  | .storeHead .. => 4 * left - 2
  | .delete .. => 4 * left - 3

/-- Without a push in progress each step of the consumer brings it closer to the end. -/
theorem Inv.progress (inv : Inv s) (quiet : ∀ i, s.push i = .idle)
    (busy : s.pop ≠ .idle ∨ s.popped ≠ s.pushed) :
    ∃ t, s.consume = some t ∧ t.push = s.push ∧ t.pushed = s.pushed ∧ t.rank < s.rank := by
  obtain ⟨passed, ahead, later, shape, consumes, -⟩ := inv
  have lengths : later.length = ahead.length := by simpa using congrArg List.length shape.values.symm
  unfold Consumes at consumes
  unfold State.consume State.rank
  cases pop : s.pop with
  | idle =>
    simp only [pop] at consumes
    refine ⟨_, rfl, rfl, rfl, ?_⟩
    have some_ : later ≠ [] := by
      rintro rfl
      rcases busy with busy | busy
      · exact busy pop
      · exact busy (by rw [consumes.1, append_nil])
    have := length_pos_iff.mpr some_
    simp only [consumes.1, length_append]
    split <;> omega
  | loadNext head =>
    simp only [pop] at consumes
    obtain ⟨pushed, -, rfl⟩ := consumes
    cases ahead with
    | nil =>
      have null : s.next s.head = none := shape.follows
      simp only [null]
      refine ⟨_, rfl, rfl, rfl, ?_⟩
      simp only [pushed, length_append, lengths, length_nil]
      split <;> omega
    | cons node ahead =>
      have written : s.next s.head = some node := by
        rcases shape.follows.1 with written | ⟨-, i, linking⟩
        · exact written
        · rw [quiet i] at linking
          cases linking
      obtain ⟨value, rest, rfl⟩ := exists_cons_of_length_eq_add_one lengths
      have moved : s.value node = some value := (List.cons.inj shape.values).1
      simp only [written, moved]
      refine ⟨_, rfl, rfl, rfl, ?_⟩
      simp only
      split <;> omega
  | storeHead head next value =>
    simp only [pop] at consumes
    obtain ⟨pushed, -, rfl, written, -⟩ := consumes
    refine ⟨_, rfl, rfl, rfl, ?_⟩
    obtain ⟨rest, rfl⟩ := shape.follows.eq_cons written
    simp only [pushed, length_append, lengths, length_cons]
    omega
  | delete head value =>
    simp only [pop] at consumes
    refine ⟨_, rfl, rfl, rfl, ?_⟩
    simp only [consumes.1, length_append, length_cons]
    omega

theorem Inv.drain [DecidableEq Id] (inv : Inv s) (quiet : ∀ i, s.push i = .idle) :
    ∃ n t, exec State.step s (List.replicate n .consume) = some t ∧ Inv t ∧
      t.pop = .idle ∧ t.popped = s.pushed ∧ t.pushed = s.pushed := by
  induction rank : s.rank using Nat.strongRecOn generalizing s with
  | ind r ih =>
    by_cases busy : s.pop ≠ .idle ∨ s.popped ≠ s.pushed
    · obtain ⟨u, consumed, push, pushed, less⟩ := inv.progress quiet busy
      obtain ⟨n, t, ran, inv', idle, all, same⟩ :=
        ih u.rank (rank ▸ less) (inv.consume consumed) (by rwa [push]) rfl
      refine ⟨n + 1, t, ?_, inv', idle, all.trans pushed, same.trans pushed⟩
      rw [replicate_succ, exec, State.step, consumed]
      exact ran
    · rw [not_or, not_not, not_not] at busy
      exact ⟨0, s, rfl, inv, busy.1, busy.2, rfl⟩

/-- The values that were popped are the first ones in the order of the exchanges. A pop returns
nothing only if each push that was not popped is unlinked or behind one that is. Once no push is in
progress, the consumer pops all that is left. -/
theorem pop_fifo [DecidableEq Id] {labels : List (Action Id T)} (run : Reaches labels s) :
    s.popped <+: s.pushed ∧
    (s.returned = some none → ∀ before node after, s.waiting = before ++ node :: after →
      s.Unlinked node ∨ ∃ m ∈ before, s.Unlinked m) ∧
    ((∀ i, s.push i = .idle) →
      ∃ n t, exec State.step s (List.replicate n .consume) = some t ∧
        t.pop = .idle ∧ t.popped = s.pushed ∧ t.empty) := by
  have inv := run.inv
  refine ⟨?_, ?_, ?_⟩
  · obtain ⟨passed, -, later, -, consumes, -⟩ := inv
    unfold Consumes at consumes
    split at consumes <;> exact ⟨_, consumes.1.symm⟩
  · intro none before node after split
    cases before with
    | nil => exact .inl (inv.nullopt none split)
    | cons first before => exact .inr ⟨first, mem_cons_self, inv.nullopt none split⟩
  intro quiet
  obtain ⟨n, t, ran, inv', idle, all, same⟩ := inv.drain quiet
  refine ⟨n, t, ran, idle, all, ?_⟩
  obtain ⟨passed, ahead, later, shape, consumes, -⟩ := inv'
  unfold Consumes at consumes
  rw [idle] at consumes
  have nothing : later = [] := by simpa [all, same] using consumes.1
  have none : ahead = [] := by simpa [nothing] using shape.values
  have null := shape.follows
  rw [none] at null
  exact Option.isNone_iff_eq_none.mpr null

/-- The first of two pushes is not linked yet when the second one is finished. -/
def stalledFirst : List (Action Bool Char) :=
  [.push false 'a', .push true 'b', .advance false, .advance true, .advance true, .consume]

theorem pop_fifo_stalled : ∃ s, exec State.step {} stalledFirst = some s ∧ s.returned = some none ∧
      s.waiting = [1, 2] ∧ (s.Unlinked 2 ∨ ∃ m ∈ [1], s.Unlinked m) := by
  have ends : ∃ s, exec State.step {} stalledFirst = some s ∧
      s.returned = some none ∧ s.waiting = [1, 2] := exec_any (by decide)
  obtain ⟨s, done, none, waiting⟩ := ends
  exact ⟨s, done, none, waiting, (pop_fifo (.of_exec done)).2.1 none [1] 2 [] waiting⟩

/-- The nodes that a step reads, writes or deletes. -/
def State.touches (s : State Id T) : Action Id T → List Nat
  | .push .. => []
  | .advance i =>
    match s.push i with
    | .link prev _ => [prev]
    | _ => []
  | .consume =>
    match s.pop with
    | .loadNext head => head :: (s.next head).toList
    | .delete head _ => [head]
    | _ => []

/-- A node is deleted once, and nobody uses it afterwards, so it does not matter that an allocation
may get its memory again. -/
theorem deleted_untouched [DecidableEq Id] {labels : List (Action Id T)} (run : Reaches labels s)
    (action : Action Id T) :
    s.deleted.Nodup ∧ ∀ node ∈ s.touches action, node < s.fresh ∧ node ∉ s.deleted := by
  obtain ⟨passed, ahead, later, shape, consumes, -⟩ := run.inv
  have all := shape.nodup
  have known := shape.known
  rw [shape.order] at all known
  obtain ⟨once, -, apart⟩ := nodup_append.mp all
  have behind : s.deleted <+: passed := by
    unfold Consumes at consumes
    split at consumes
    · exact consumes.2 ▸ prefix_rfl
    · exact consumes.2.1 ▸ prefix_rfl
    · exact consumes.2.1 ▸ prefix_rfl
    · exact consumes.2 ▸ prefix_append ..
  have kept : ∀ node ∈ s.head :: ahead, node < s.fresh ∧ node ∉ s.deleted := fun node mem =>
    ⟨known node (mem_append_right _ mem), fun gone => apart _ (behind.subset gone) _ mem rfl⟩
  refine ⟨once.sublist behind.sublist, fun node mem => ?_⟩
  cases action with
  | push => cases mem
  | advance i =>
    simp only [State.touches] at mem
    split at mem
    · rename_i linking
      rw [mem_singleton.mp mem]
      exact kept _ ((shape.linking _ _ _ linking).1.subset mem_cons_self)
    · cases mem
  | consume =>
    unfold Consumes at consumes
    simp only [State.touches] at mem
    cases at_ : s.pop with
    | loadNext head =>
      rw [at_] at consumes mem
      obtain ⟨-, -, rfl⟩ := consumes
      rcases mem_cons.mp mem with rfl | next
      · exact kept _ mem_cons_self
      · obtain ⟨more, rfl⟩ := shape.follows.eq_cons (Option.mem_toList.mp next)
        exact kept _ (mem_cons_of_mem _ mem_cons_self)
    | delete head value =>
      rw [at_] at consumes mem
      obtain ⟨-, rfl⟩ := consumes
      rw [mem_singleton.mp mem]
      refine ⟨known _ (by simp), fun gone => ?_⟩
      exact (nodup_append.mp once).2.2 _ gone _ mem_cons_self rfl
    | _ => simp [at_] at mem

theorem deleted_untouched_stalled :
    ∃ s, exec State.step {} stalledFirst = some s ∧ s.touches .consume = [0] ∧ 0 ∉ s.deleted := by
  have ends : ∃ s, exec State.step {} stalledFirst = some s ∧ s.touches .consume = [0] :=
    exec_any (by decide)
  obtain ⟨s, done, touches⟩ := ends
  have untouched := (deleted_untouched (.of_exec done) .consume).2 0 (by rw [touches]; decide)
  exact ⟨s, done, touches, untouched.2⟩

end Nitrocoro.MpscQueue
