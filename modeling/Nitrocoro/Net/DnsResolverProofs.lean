import Nitrocoro.Lib.SingleFlight
import Nitrocoro.Net.DnsResolver

/-! The callers of a resolver that miss its cache share the lookups of `SingleFlight`: the call
that makes an entry of `pending` leads, and its task lands when it takes the waiters. -/
namespace Nitrocoro.Net.DnsResolver
open Function Transition
variable {C A : Type} {s t : State C A} {strerror : Int → String}

def Alike (caller : CallerPC) (outcome : Option (Outcome A)) :
    TaskPC C A → SingleFlight.Flight C (Outcome A) → Prop
  | .none, flight => flight = (if caller = .posting then .flying else .none) ∧ outcome = none
  | .queued, flight => flight = .flying ∧ outcome = none
  | .resolving, flight => flight = .flying ∧ outcome = none
  | .resolved o _, flight => flight = .flying ∧ outcome = some o
  | .counting addresses _ waiters, flight =>
    flight = .landed (.ok addresses) waiters ∧ outcome = some (.ok addresses)
  | .expiring addresses _ waiters, flight =>
    flight = .landed (.ok addresses) waiters ∧ outcome = some (.ok addresses)
  | .answering o waiters, flight => flight = .landed o waiters ∧ outcome = some o
  | .returned, flight => ∃ o, flight = .landed o [] ∧ outcome = some o

structure Follows (s : State C A) (f : SingleFlight.State String C (Outcome A)) : Prop where
  pending : f.pending = s.pending
  joined : f.joined = s.joined
  key : ∀ c leader, s.joined c = some leader → f.key c = s.key c
  answers : ∀ c leader, s.joined c = some leader → f.answers c = s.answers c
  flight : ∀ c, Alike (s.caller c) (s.outcome c) (s.task c) (f.flight c)

def CallerPC.early : CallerPC → Bool
  | .idle | .called | .entered _ => true
  | _ => false

def CallerPC.inside : CallerPC → Bool
  | .entered _ | .posting | .waiting => true
  | _ => false

/-- Where a call is, with its task, what it joined, its answers and whether it holds the state. -/
structure CallAt (caller : CallerPC) (task : TaskPC C A) (joined : Option C)
    (answers : List (Outcome A)) (held : Prop) : Prop where
  early : caller.early → task = .none ∧ joined = none ∧ answers = []
  posting : caller = .posting → task = .none
  refs : caller.inside → held
  waits : joined.isSome → answers = [] → caller.inside

def Calls (s : State C A) : Prop :=
  ∀ c, CallAt (s.caller c) (s.task c) (s.joined c) (s.answers c) (Ref.caller c ∈ s.refs)

def State.InFlight (s : State C A) (c : C) : Prop :=
  s.caller c = .posting ∨ s.task c = .queued ∨ s.task c = .resolving ∨
    ∃ outcome now, s.task c = .resolved outcome now

theorem inFlight_iff (calls : Calls s) (follows : Follows s f) (c : C) :
    s.InFlight c ↔ f.flight c = .flying := by
  have alike := follows.flight c
  have posting := (calls c).posting
  unfold State.InFlight
  cases task : s.task c with
  | none =>
    rw [task] at alike
    rw [alike.1]
    by_cases here : s.caller c = .posting <;> simp
  | returned =>
    rw [task] at alike posting
    obtain ⟨o, landed, -⟩ := alike
    have other : s.caller c ≠ .posting := fun here => by cases posting here
    simp [landed, other]
  | _ =>
    rw [task] at alike posting
    simp_all [Alike]

theorem Calls.move (others : ∀ d, d ≠ c →
      CallAt (t.caller d) (t.task d) (t.joined d) (t.answers d) (Ref.caller d ∈ t.refs))
    (here : CallAt (t.caller c) (t.task c) (t.joined c) (t.answers c) (Ref.caller c ∈ t.refs)) :
    Calls t := by
  intro d
  rcases eq_or_ne d c with rfl | other
  · exact here
  · exact others d other

theorem Calls.setRefs (calls : Calls s) (kept : ∀ d, Ref.caller d ∈ s.refs → Ref.caller d ∈ refs) :
    Calls { s with refs } :=
  fun d => { calls d with refs := fun inside => kept d ((calls d).refs inside) }

def TaskPC.waiters : TaskPC C A → List C
  | .counting _ _ waiters | .expiring _ _ waiters | .answering _ waiters => waiters
  | _ => []

namespace Follows

theorem landed {waiters : List C} (follows : Follows s f)
    (landed : f.flight c = .landed o waiters) :
    s.outcome c = some o ∧ (s.task c).waiters = waiters := by
  have alike := follows.flight c
  rw [landed] at alike
  cases task : s.task c with
  | none =>
    rw [task] at alike
    have grounded := alike.1
    split at grounded <;> cases grounded
  | returned =>
    rw [task] at alike
    obtain ⟨o', same, outcome⟩ := alike
    cases same
    exact ⟨outcome, rfl⟩
  | _ => simp_all [Alike, TaskPC.waiters]

theorem key_leader (follows : Follows s f) (inv : SingleFlight.Inv f)
    (flies : f.flight c ≠ .none) : f.key c = s.key c := by
  cases joined : f.joined c with
  | none => exact absurd (inv.fresh c joined).1 flies
  | some leader =>
    rw [follows.joined] at joined
    exact follows.key c leader joined

end Follows

/-- The leader of an open flight waits, so the state is there for its task. -/
theorem leader_inside (calls : Calls s) (inv : SingleFlight.Inv f) (follows : Follows s f)
    (flying : f.flight c = .flying) : s.joined c = some c ∧ Ref.caller c ∈ s.refs := by
  obtain ⟨rest, -, -, members⟩ := inv.listed c flying
  have joined := (members c).mpr List.mem_cons_self
  have silent := inv.unanswered c c flying joined
  rw [follows.joined] at joined
  rw [follows.answers c c joined] at silent
  exact ⟨joined, (calls c).refs ((calls c).waits (by rw [joined]; rfl) silent)⟩

theorem resolving_held (calls : Calls s) (inv : SingleFlight.Inv f) (follows : Follows s f)
    (resolving : s.task c = .resolving) : s.outcome c = none ∧ s.refs.isEmpty = false := by
  have alike := follows.flight c
  rw [resolving] at alike
  obtain ⟨flying, unsolved⟩ := alike
  have mem := (leader_inside calls inv follows flying).2
  refine ⟨unsolved, ?_⟩
  cases refs : s.refs with
  | nil =>
    rw [refs] at mem
    cases mem
  | cons _ _ => rfl

def Inv (s : State C A) : Prop := Calls s ∧ ∃ f, SingleFlight.Inv f ∧ Follows s f

namespace Inv

theorem start (ttl : Int) : Inv ({ ttl } : State C A) := by
  refine ⟨fun _ => ⟨?_, nofun, nofun, nofun⟩, _, SingleFlight.Inv.start fun _ => "", ?_⟩
  · exact fun _ => ⟨rfl, rfl, rfl⟩
  · exact ⟨rfl, rfl, nofun, nofun, fun _ => ⟨rfl, rfl⟩⟩

theorem pending_iff (inv : Inv s) (k : String) :
    (s.pending k).isSome ↔ ∃ c, s.InFlight c ∧ s.key c = k := by
  obtain ⟨calls, f, shared, follows⟩ := inv
  have keys : ∀ c, f.flight c = .flying → f.key c = s.key c :=
    fun c flying => follows.key_leader shared (by rw [flying]; exact nofun)
  rw [← follows.pending, shared.pending_iff]
  constructor
  · rintro ⟨c, flying, key⟩
    exact ⟨c, (inFlight_iff calls follows c).mpr flying, (keys c flying).symm.trans key⟩
  · rintro ⟨c, inFlight, key⟩
    have flying := (inFlight_iff calls follows c).mp inFlight
    exact ⟨c, flying, (keys c flying).trans key⟩

theorem unique (inv : Inv s) (inFlight : s.InFlight c) (inFlight' : s.InFlight d)
    (same : s.key c = s.key d) : c = d := by
  obtain ⟨calls, f, shared, follows⟩ := inv
  have flying := (inFlight_iff calls follows c).mp inFlight
  have flying' := (inFlight_iff calls follows d).mp inFlight'
  apply shared.unique flying flying'
  rw [follows.key_leader shared (by rw [flying]; exact nofun),
    follows.key_leader shared (by rw [flying']; exact nofun)]
  exact same

theorem key_eq (inv : Inv s) (joined : s.joined c = some l) : s.key l = s.key c := by
  obtain ⟨-, f, shared, follows⟩ := inv
  have key := follows.key c l joined
  rw [← follows.joined] at joined
  obtain ⟨flies, same⟩ := shared.joined c l joined
  rw [← key, same, follows.key_leader shared flies]

theorem fate (inv : Inv s) (joined : s.joined c = some l) :
    s.answers c = [] ∨ ∃ o, s.outcome l = some o ∧ s.answers c = [o] := by
  obtain ⟨-, f, shared, follows⟩ := inv
  have answers := follows.answers c l joined
  rw [← follows.joined] at joined
  rw [← answers]
  rcases shared.fate joined with ⟨silent, -⟩ | ⟨o, waiters, landed, ⟨-, silent⟩ | answered⟩
  · exact .inl silent
  · exact .inl silent
  · exact .inr ⟨o, (follows.landed landed).1, answered⟩

theorem unanswered (inv : Inv s) (joined : s.joined c = some l) (silent : s.answers c = []) :
    s.InFlight l ∨ c ∈ (s.task l).waiters := by
  obtain ⟨calls, f, shared, follows⟩ := inv
  rw [← follows.answers c l joined] at silent
  rw [← follows.joined] at joined
  rcases shared.fate joined with ⟨-, flying⟩ | ⟨o, waiters, landed, ⟨mem, -⟩ | answered⟩
  · exact .inl ((inFlight_iff calls follows l).mpr flying)
  · rw [(follows.landed landed).2]
    exact .inr mem
  · cases silent.symm.trans answered

end Inv

variable [DecidableEq C]

inductive Effect (strerror : Int → String) (s : State C A) : Action C A → State C A → Prop
  | call (idle : s.caller c = .idle) : Effect strerror s (.call c q)
    ({ s with query := update s.query c q }.setCaller c .called)
  | gone (called : s.caller c = .called) : Effect strerror s (.enter c) (s.setCaller c .gone)
  | enter (called : s.caller c = .called) : Effect strerror s (.enter c)
    ({ s with refs := s.refs ++ [Ref.caller c] }.setCaller c (.entered s.now))
  | lookup (entered : s.caller c = .entered now) :
    Effect strerror s (.lookup c) (s.lookup c now)
  | post (posting : s.caller c = .posting) :
    Effect strerror s (.post c) ((s.setTask c .queued).setCaller c .waiting)
  | resume (waiting : s.caller c = .waiting) (answered : s.answers c ≠ []) :
    Effect strerror s (.resume c)
      ({ s with refs := s.refs.erase (.caller c) }.setCaller c .returned)
  | take (queued : s.task c = .queued) : Effect strerror s (.take c) (s.setTask c .resolving)
  | found (resolving : s.task c = .resolving) :
    Effect strerror s (.found c result) (s.found strerror c result)
  | settle (resolved : s.task c = .resolved o now) : Effect strerror s (.settle c) (s.settle c o now)
  | count (counting : s.task c = .counting held now waiters) : Effect strerror s (.count c)
    ({ s with writeCount := s.writeCount + 1 }.setTask c
      (if s.writeCount &&& 15 = 0 then .expiring held now waiters
        else .answering (.ok held) waiters))
  | expire (expiring : s.task c = .expiring held now waiters) : Effect strerror s (.expire c)
    ((s.expire now).setTask c (.answering (.ok held) waiters))
  | answer (answering : s.task c = .answering o (waiter :: waiters)) :
    Effect strerror s (.answer c) ((s.setPromise waiter o).setTask c (.answering o waiters))
  | finish (answering : s.task c = .answering o []) :
    Effect strerror s (.answer c) ({ s with refs := s.refs.erase (.task c) }.setTask c .returned)
  | destroy : Effect strerror s .destroy { s with refs := s.refs.erase .resolver }
  | tick : Effect strerror s (.tick later) { s with now := s.now + later }

theorem effect_of_step (took : s.step strerror label = some t) : Effect strerror s label t := by
  cases label with
  | call c q =>
    obtain ⟨⟨idle, -⟩, rfl⟩ := of_ite took
    exact .call idle
  | enter c =>
    obtain ⟨called, entered⟩ := Option.ite_none_right_eq_some.mp took
    split at entered <;> cases entered
    · exact .gone called
    · exact .enter called
  | post c =>
    obtain ⟨posting, rfl⟩ := of_ite took
    exact .post posting
  | resume c =>
    obtain ⟨⟨waiting, answered⟩, rfl⟩ := of_ite took
    exact .resume waiting answered
  | destroy =>
    obtain ⟨-, rfl⟩ := of_ite took
    exact .destroy
  | tick later =>
    cases took
    exact .tick
  | lookup | take | found | settle | count | expire | answer =>
    simp only [State.step] at took
    split at took <;> cases took
    all_goals constructor; assumption

namespace Calls

section
variable (calls : Calls s)
include calls

theorem setTask (begun : s.task c ≠ .none) : Calls (s.setTask c pc) := by
  refine move (c := c) (fun d other => ?_) { calls c with
    early := fun early => absurd ((calls c).early early).1 begun
    posting := fun posting => absurd ((calls c).posting posting) begun }
  simpa [State.setTask, other] using calls d

theorem setCaller (here : CallAt pc (s.task c) (s.joined c) (s.answers c) (Ref.caller c ∈ s.refs)) :
    Calls (s.setCaller c pc) := by
  refine move (c := c) (fun d other => ?_) ?_
  · simpa [State.setCaller, other] using calls d
  · simpa [State.setCaller] using here

theorem erase (other : ∀ d, Ref.caller d ≠ ref) : Calls { s with refs := s.refs.erase ref } :=
  calls.setRefs fun d mem => (List.mem_erase_of_ne (other d)).mpr mem

theorem lookup (entered : s.caller c = .entered now) : Calls (s.lookup c now) := by
  obtain ⟨task, joined, -⟩ := (calls c).early (by rw [entered]; rfl)
  have refs := (calls c).refs (by rw [entered]; rfl)
  have joins : ∀ waiters leader (pc : CallerPC), pc.early = false → pc.inside →
      Calls (((s.setPending (s.key c) waiters).join c leader).setCaller c pc) := by
    intro waiters leader pc late inside
    refine move (c := c) (fun d other => ?_) ⟨?_, fun _ => task, fun _ => refs, fun _ _ => ?_⟩
    · simpa [State.setPending, State.join, State.setCaller, other] using calls d
    · simp [State.setCaller, late]
    · simpa [State.setCaller] using inside
  unfold State.lookup
  split
  · refine move (c := c) (fun d other => ?_) ⟨?_, fun _ => task, fun _ => refs, ?_⟩
    · simpa [State.setPromise, State.setCaller, other] using calls d
    · simp [State.setCaller, CallerPC.early]
    · simp [State.setCaller, State.setPromise, joined]
  split
  · exact joins _ _ _ rfl rfl
  · exact joins _ _ _ rfl rfl

theorem setPromise (joined : s.joined c = some leader) (o : Outcome A) :
    Calls (s.setPromise c o) := by
  refine move (c := c) (fun d other => ?_) { calls c with
    early := fun early => ?_
    waits := fun _ silent => ?_ }
  · simpa [State.setPromise, other] using calls d
  · cases joined.symm.trans ((calls c).early early).2.1
  · simp [State.setPromise] at silent

theorem step (inv : SingleFlight.Inv f) (follows : Follows s f)
    (took : s.step strerror label = some t) : Calls t := by
  cases effect_of_step took with
  | @call c q idle =>
    have early := (calls c).early (by rw [idle]; rfl)
    have asked : Calls { s with query := update s.query c q } := calls
    exact asked.setCaller ⟨fun _ => early, fun _ => early.1, nofun, by simp [early]⟩
  | @gone c called =>
    have early := (calls c).early (by rw [called]; rfl)
    exact calls.setCaller ⟨fun _ => early, fun _ => early.1, nofun, by simp [early]⟩
  | @enter c called =>
    have early := (calls c).early (by rw [called]; rfl)
    have held : Calls { s with refs := s.refs ++ [.caller c] } :=
      calls.setRefs fun d mem => List.mem_append_left _ mem
    exact held.setCaller ⟨fun _ => early, fun _ => early.1, by simp, by simp [early]⟩
  | lookup entered => exact calls.lookup entered
  | @post c posting =>
    have refs := (calls c).refs (by rw [posting]; rfl)
    refine move (c := c) (fun d other => ?_) ⟨?_, ?_, fun _ => refs, fun _ _ => ?_⟩
    · simpa [State.setTask, State.setCaller, other] using calls d
    all_goals simp [State.setTask, State.setCaller, CallerPC.early, CallerPC.inside]
  | @resume c waiting answered =>
    refine move (c := c) (fun d other => ?_) ⟨?_, ?_, ?_, fun _ silent => absurd silent answered⟩
    · simpa [State.setCaller, other] using calls d
    all_goals simp [State.setCaller, CallerPC.early, CallerPC.inside]
  | take queued => exact calls.setTask (by simp [queued])
  | @found c result resolving =>
    unfold State.found
    split
    · exact calls.setTask (by simp [resolving])
    have more : Calls { s with
        refs := s.refs ++ [.task c]
        outcome := update s.outcome c (some (outcome strerror result)) } :=
      calls.setRefs fun d mem => List.mem_append_left _ mem
    exact more.setTask (by simp [resolving])
  | @settle c o now resolved =>
    have stored : Calls ((s.store (s.key c) now o).setPending (s.key c) none) ∧
        (s.store (s.key c) now o).task = s.task := by
      cases o <;> exact ⟨calls, rfl⟩
    apply stored.1.setTask
    simp [State.setPending, stored.2, resolved]
  | count counting =>
    have counted : Calls { s with writeCount := s.writeCount + 1 } := calls
    exact counted.setTask (by simp [counting])
  | @expire c addresses now waiters expiring =>
    have expired : Calls (s.expire now) := calls
    exact expired.setTask (by simp [State.expire, expiring])
  | @answer c o waiter waiters answering =>
    have alike := follows.flight c
    rw [answering] at alike
    have joined := (inv.landed c _ _ alike.1).2.1 waiter List.mem_cons_self
    rw [follows.joined] at joined
    exact (calls.setPromise joined o).setTask (by simp [State.setPromise, answering])
  | @finish c o answering =>
    have released : Calls { s with refs := s.refs.erase (.task c) } := calls.erase nofun
    exact released.setTask (by simp [answering])
  | destroy => exact calls.erase nofun
  | tick => exact calls

end

end Calls

namespace Follows

theorem setTask (follows : Follows s f)
    (alike : Alike (s.caller c) (s.outcome c) pc (f.flight c)) : Follows (s.setTask c pc) f := by
  refine { follows with flight := fun d => ?_ }
  rcases eq_or_ne d c with rfl | other
  · simpa [State.setTask] using alike
  · simpa [State.setTask, other] using follows.flight d

theorem setCaller (follows : Follows s f)
    (alike : Alike pc (s.outcome c) (s.task c) (f.flight c)) : Follows (s.setCaller c pc) f := by
  refine { follows with flight := fun d => ?_ }
  rcases eq_or_ne d c with rfl | other
  · simpa [State.setCaller] using alike
  · simpa [State.setCaller, other] using follows.flight d

theorem join (follows : Follows s f) (silent : s.answers c = []) (silent' : f.answers c = []) :
    Follows ((s.setPending (s.key c) (some waiters)).join c leader)
      (f.join c leader (s.key c) waiters) := by
  constructor <;> simp only [State.setPending, State.join, SingleFlight.State.join]
  · rw [follows.pending]
  · rw [follows.joined]
  · intro d leader' joined
    rcases eq_or_ne d c with rfl | other
    · exact update_self ..
    · rw [update_of_ne other] at joined ⊢
      exact follows.key d leader' joined
  · intro d leader' joined
    rcases eq_or_ne d c with rfl | other
    · rw [silent, silent']
    · rw [update_of_ne other] at joined
      exact follows.answers d leader' joined
  · exact follows.flight

end Follows

def Goes (f g : SingleFlight.State String C (Outcome A)) : Prop :=
  g = f ∨ ∃ label, f.step label = some g

/-- A call that has not asked yet is not known to the shared lookups. -/
theorem lookup_follows (calls : Calls s) (inv : SingleFlight.Inv f) (follows : Follows s f)
    (entered : s.caller c = .entered now) : ∃ g, Goes f g ∧ Follows (s.lookup c now) g := by
  obtain ⟨task, joined, silent⟩ := (calls c).early (by rw [entered]; rfl)
  have alike := follows.flight c
  rw [task] at alike
  have open_ := alike.2
  have fresh : f.joined c = none := by
    rw [follows.joined]
    exact joined
  obtain ⟨grounded, answers⟩ := inv.fresh c fresh
  have asks : f.step (.ask c (s.key c)) = some (f.ask c (s.key c)) := if_pos fresh
  unfold State.lookup
  split
  · rename_i addresses _
    refine ⟨f, .inl rfl, ?_⟩
    have answered : Follows (s.setPromise c (.ok addresses)) f := by
      refine { follows with answers := fun d leader joined' => ?_ }
      have other : d ≠ c := by
        rintro rfl
        cases joined.symm.trans joined'
      exact (follows.answers d leader joined').trans (update_of_ne other ..).symm
    apply answered.setCaller
    simp [State.setPromise, task, Alike, grounded, open_]
  · split
    · rename_i waiters pending
      refine ⟨_, .inr ⟨_, asks⟩, ?_⟩
      rw [← follows.pending] at pending
      simp only [SingleFlight.State.ask, pending]
      apply (follows.join silent answers).setCaller
      simp [State.setPending, State.join, SingleFlight.State.join, task, Alike, grounded, open_]
    rename_i pending
    refine ⟨_, .inr ⟨_, asks⟩, ?_⟩
    rw [← follows.pending] at pending
    simp only [SingleFlight.State.ask, pending]
    have led : Follows ((s.setPending (s.key c) (some [c])).join c c)
        (f.join c c (s.key c) [c]) := follows.join silent answers
    refine { led with flight := fun d => ?_ }
    rcases eq_or_ne d c with rfl | other
    · simp [State.setCaller, State.setPending, State.join, SingleFlight.State.setFlight, task,
        Alike, open_]
    · simpa [State.setCaller, SingleFlight.State.setFlight, other] using led.flight d

theorem found_follows (calls : Calls s) (inv : SingleFlight.Inv f) (follows : Follows s f)
    (resolving : s.task c = .resolving) (result : Found A) :
    Follows (s.found strerror c result) f := by
  have alike := follows.flight c
  rw [resolving] at alike
  have flying := alike.1
  have held := (resolving_held calls inv follows resolving).2
  unfold State.found
  rw [if_neg (by rw [held]; exact nofun)]
  refine { follows with flight := fun d => ?_ }
  rcases eq_or_ne d c with rfl | other
  · simp [State.setTask, Alike, flying]
  · simpa [State.setTask, other] using follows.flight d

theorem settle_follows (calls : Calls s) (inv : SingleFlight.Inv f) (follows : Follows s f)
    (resolved : s.task c = .resolved o now) : ∃ g, Goes f g ∧ Follows (s.settle c o now) g := by
  have alike := follows.flight c
  rw [resolved] at alike
  obtain ⟨flying, outcome⟩ := alike
  have joined := (leader_inside calls inv follows flying).1
  have key := follows.key c c joined
  have lands : f.step (.land c o) = some (f.land c o) := by
    simp only [SingleFlight.State.step, flying]
  refine ⟨_, .inr ⟨_, lands⟩, ?_⟩
  have stored : Follows (s.store (s.key c) now o) f := by
    cases o <;> exact { follows with }
  have same : (s.store (s.key c) now o).task = s.task ∧
      (s.store (s.key c) now o).outcome = s.outcome ∧
      (s.store (s.key c) now o).pending = s.pending := by
    cases o <;> exact ⟨rfl, rfl, rfl⟩
  unfold State.settle SingleFlight.State.land
  refine { stored with pending := ?_, flight := fun d => ?_ }
  · simp only [State.setPending, State.setTask, SingleFlight.State.setFlight, key, same,
      follows.pending]
  rcases eq_or_ne d c with rfl | other
  · simp only [State.setTask, SingleFlight.State.setFlight, update_self, key, follows.pending]
    cases o <;> exact ⟨rfl, outcome⟩
  · simpa [State.setPending, State.setTask, SingleFlight.State.setFlight, other] using stored.flight d

theorem answer_follows (inv : SingleFlight.Inv f) (follows : Follows s f)
    (answering : s.task c = .answering o (waiter :: waiters)) :
    ∃ g, Goes f g ∧ Follows ((s.setPromise waiter o).setTask c (.answering o waiters)) g := by
  have alike := follows.flight c
  rw [answering] at alike
  obtain ⟨landed, outcome⟩ := alike
  have joined := (inv.landed c o _ landed).2.1 waiter List.mem_cons_self
  rw [follows.joined] at joined
  have answers : f.step (.answer c) = some ({ f with
      answers := update f.answers waiter (f.answers waiter ++ [o]) }.setFlight c
      (.landed o waiters)) := by
    simp only [SingleFlight.State.step, landed]
  refine ⟨_, .inr ⟨_, answers⟩, ?_⟩
  refine { follows with answers := fun d leader joined' => ?_, flight := fun d => ?_ }
  · simp only [State.setPromise, State.setTask, SingleFlight.State.setFlight,
      update_apply, follows.answers waiter c joined, follows.answers d leader joined']
  rcases eq_or_ne d c with rfl | other
  · simp only [State.setTask, SingleFlight.State.setFlight, update_self]
    exact ⟨rfl, outcome⟩
  · simpa [State.setPromise, State.setTask, SingleFlight.State.setFlight, other]
      using follows.flight d

theorem step_follows (calls : Calls s) (inv : SingleFlight.Inv f) (follows : Follows s f)
    (took : s.step strerror label = some t) : ∃ g, Goes f g ∧ Follows t g := by
  cases effect_of_step took with
  | @call c q idle =>
    obtain ⟨-, fresh, -⟩ := (calls c).early (by rw [idle]; rfl)
    have alike := follows.flight c
    have asked : Follows { s with query := update s.query c q } f := by
      refine { follows with key := fun d leader joined => ?_ }
      have other : d ≠ c := by
        rintro rfl
        cases fresh.symm.trans joined
      simpa [State.key, other] using follows.key d leader joined
    refine ⟨f, .inl rfl, asked.setCaller ?_⟩
    simp_all [Alike]
  | @gone c called =>
    have alike := follows.flight c
    refine ⟨f, .inl rfl, follows.setCaller ?_⟩
    simp_all [Alike]
  | @enter c called =>
    have alike := follows.flight c
    have held : Follows { s with refs := s.refs ++ [Ref.caller c] } f :=
      { follows with }
    refine ⟨f, .inl rfl, held.setCaller ?_⟩
    simp_all [Alike]
  | lookup entered => exact lookup_follows calls inv follows entered
  | @post c posting =>
    have alike := follows.flight c
    rw [(calls c).posting posting, posting] at alike
    have queued : Alike (s.caller c) (s.outcome c) .queued (f.flight c) := alike
    refine ⟨f, .inl rfl, (follows.setTask queued).setCaller ?_⟩
    simpa [State.setTask, Alike] using queued
  | @resume c waiting =>
    have released : Follows { s with refs := s.refs.erase (Ref.caller c) } f :=
      { follows with }
    have alike := follows.flight c
    refine ⟨f, .inl rfl, released.setCaller ?_⟩
    cases task : s.task c <;> simp_all [Alike]
  | @take c queued =>
    have alike := follows.flight c
    rw [queued] at alike
    exact ⟨f, .inl rfl, follows.setTask alike⟩
  | found resolving => exact ⟨f, .inl rfl, found_follows calls inv follows resolving _⟩
  | settle resolved => exact settle_follows calls inv follows resolved
  | @count c addresses now waiters counting =>
    have alike := follows.flight c
    rw [counting] at alike
    have counted : Follows { s with writeCount := s.writeCount + 1 } f :=
      { follows with }
    refine ⟨f, .inl rfl, counted.setTask ?_⟩
    split <;> exact alike
  | @expire c addresses now waiters expiring =>
    have alike := follows.flight c
    rw [expiring] at alike
    have expired : Follows (s.expire now) f := { follows with }
    exact ⟨f, .inl rfl, expired.setTask alike⟩
  | answer answering => exact answer_follows inv follows answering
  | @finish c o answering =>
    have alike := follows.flight c
    rw [answering] at alike
    have released : Follows { s with refs := s.refs.erase (Ref.task c) } f :=
      { follows with }
    exact ⟨f, .inl rfl, released.setTask ⟨o, alike⟩⟩
  | destroy | tick => exact ⟨f, .inl rfl, { follows with }⟩

namespace Inv

theorem step (inv : Inv s) (took : s.step strerror label = some t) : Inv t := by
  obtain ⟨calls, f, shared, follows⟩ := inv
  obtain ⟨g, goes, follows'⟩ := step_follows calls shared follows took
  refine ⟨calls.step shared follows took, g, ?_, follows'⟩
  rcases goes with rfl | ⟨label, goes⟩
  · exact shared
  · exact shared.step goes

theorem reached (run : Reaches strerror ttl labels s) : Inv s :=
  run.invariant (start ttl) fun inv _ took => inv.step took

end Inv

def Action.leader : Action C A → Option C
  | .post c | .take c | .found c _ | .settle c | .count c | .expire c | .answer c => some c
  | _ => none

/-- Steps of the task alone answer the call, with the outcome that the task has or that `result`
gives it. -/
def Served (strerror : Int → String) (s : State C A) (l c : C) (result : Found A) : Prop :=
  ∃ labels u, Run (State.step strerror) (fun _ label => label.leader = some l) s labels u ∧
    u.outcome l = some ((s.outcome l).getD (outcome strerror result)) ∧
    u.answers c = [(s.outcome l).getD (outcome strerror result)]

theorem Served.of_step (own : label.leader = some l) (took : s.step strerror label = some t)
    (same : (t.outcome l).getD (outcome strerror result) =
      (s.outcome l).getD (outcome strerror result))
    (served : Served strerror t l c result) : Served strerror s l c result := by
  obtain ⟨labels, u, run, outcome, answers⟩ := served
  have first : Run (State.step strerror) (fun _ label => label.leader = some l) s
      ([] ++ [label]) t := .next .refl own took
  refine ⟨_, u, first.trans run, ?_, ?_⟩
  · rw [← same]
    exact outcome
  · rw [← same]
    exact answers

namespace Inv

section
variable (inv : Inv s)
include inv

theorem served_of_answered (joined : s.joined c = some l) (answered : s.answers c ≠ [])
    (result : Found A) : Served strerror s l c result := by
  rcases inv.fate joined with silent | ⟨o, outcome, answers⟩
  · exact absurd silent answered
  refine ⟨[], s, .refl, ?_, ?_⟩
  · rw [outcome]
    rfl
  · rw [answers, outcome]
    rfl

theorem served_answering (joined : s.joined c = some l)
    (answering : s.task l = .answering o waiters) (result : Found A) :
    Served strerror s l c result := by
  induction waiters generalizing s with
  | nil =>
    refine inv.served_of_answered joined (fun silent => ?_) result
    rcases inv.unanswered joined silent with inFlight | mem
    · rcases inFlight with posting | queued | resolving | ⟨_, _, resolved⟩
      · cases ((inv.1 l).posting posting).symm.trans answering
      · cases queued.symm.trans answering
      · cases resolving.symm.trans answering
      · cases resolved.symm.trans answering
    · rw [answering] at mem
      cases mem
  | cons waiter waiters ih =>
    have took : s.step strerror (.answer l) =
        some ((s.setPromise waiter o).setTask l (.answering o waiters)) := by
      simp only [State.step, answering]
    exact .of_step rfl took rfl (ih (inv.step took) joined (update_self ..))

theorem served_expiring {found : List A} (joined : s.joined c = some l)
    (expiring : s.task l = .expiring found now waiters) (result : Found A) :
    Served strerror s l c result := by
  have took : s.step strerror (.expire l) =
      some ((s.expire now).setTask l (.answering (.ok found) waiters)) := by
    simp only [State.step, expiring]
  exact .of_step rfl took rfl
    ((inv.step took).served_answering joined (update_self ..) result)

theorem served_counting {found : List A} (joined : s.joined c = some l)
    (counting : s.task l = .counting found now waiters) (result : Found A) :
    Served strerror s l c result := by
  have took : s.step strerror (.count l) =
      some ({ s with writeCount := s.writeCount + 1 }.setTask l
        (if s.writeCount &&& 15 = 0 then .expiring found now waiters
          else .answering (.ok found) waiters)) := by
    simp only [State.step, counting]
  refine .of_step rfl took rfl ?_
  have counted := inv.step took
  split at counted <;> rename_i sixteenth
  · rw [if_pos sixteenth]
    exact counted.served_expiring joined (update_self ..) result
  · rw [if_neg sixteenth]
    exact counted.served_answering joined (update_self ..) result

theorem served_resolved (joined : s.joined c = some l)
    (resolved : s.task l = .resolved o now) (result : Found A) : Served strerror s l c result := by
  have took : s.step strerror (.settle l) = some (s.settle l o now) := by
    simp only [State.step, resolved]
  have settled := inv.step took
  cases o with
  | ok addresses =>
    exact .of_step rfl took rfl (settled.served_counting joined (update_self ..) result)
  | error e =>
    exact .of_step rfl took rfl (settled.served_answering joined (update_self ..) result)

theorem served_resolving (joined : s.joined c = some l)
    (resolving : s.task l = .resolving) (result : Found A) : Served strerror s l c result := by
  have took : s.step strerror (.found l result) = some (s.found strerror l result) := by
    simp only [State.step, resolving]
  have locked := inv.step took
  obtain ⟨calls, f, shared, follows⟩ := inv
  obtain ⟨unsolved, held⟩ := resolving_held calls shared follows resolving
  unfold State.found at took locked
  rw [if_neg (by rw [held]; exact nofun)] at took locked
  refine .of_step rfl took ?_ (locked.served_resolved joined (update_self ..) result)
  simp [State.setTask, unsolved]

theorem served_queued (joined : s.joined c = some l) (queued : s.task l = .queued)
    (result : Found A) : Served strerror s l c result := by
  have took : s.step strerror (.take l) = some (s.setTask l .resolving) := by
    simp only [State.step, queued]
  exact .of_step rfl took rfl
    ((inv.step took).served_resolving joined (update_self ..) result)

theorem served_posting (joined : s.joined c = some l)
    (posting : s.caller l = .posting) (result : Found A) : Served strerror s l c result := by
  have took : s.step strerror (.post l) = some ((s.setTask l .queued).setCaller l .waiting) :=
    if_pos posting
  exact .of_step rfl took rfl
    ((inv.step took).served_queued joined (update_self ..) result)

theorem served (joined : s.joined c = some l) (result : Found A) :
    Served strerror s l c result := by
  by_cases silent : s.answers c = []
  case neg => exact inv.served_of_answered joined silent result
  rcases inv.unanswered joined silent with
    (posting | queued | resolving | ⟨o, now, resolved⟩) | mem
  · exact inv.served_posting joined posting result
  · exact inv.served_queued joined queued result
  · exact inv.served_resolving joined resolving result
  · exact inv.served_resolved joined resolved result
  cases task : s.task l with
  | counting => exact inv.served_counting joined task result
  | expiring => exact inv.served_expiring joined task result
  | answering => exact inv.served_answering joined task result
  | _ =>
    rw [task] at mem
    cases mem

end

end Inv

theorem joined_step (calls : Calls s) (took : s.step strerror label = some t)
    (joined : s.joined c = some l) : t.joined c = some l := by
  cases effect_of_step took with
  | @lookup d now entered =>
    have fresh := ((calls d).early (by rw [entered]; rfl)).2.1
    have other : c ≠ d := by
      rintro rfl
      cases fresh.symm.trans joined
    unfold State.lookup
    split
    · exact joined
    · split <;> exact (update_of_ne other _ _).trans joined
  | found =>
    unfold State.found
    split <;> exact joined
  | @settle d o => cases o <;> exact joined
  | _ => exact joined

/-- The section of `resolveImpl` under the lock answers from the cache, or finds or makes the lookup
that the call waits for. -/
theorem lookup_joins (inv : Inv s) (took : s.step strerror (.lookup c) = some t) :
    (∃ now addresses, s.caller c = .entered now ∧ s.hit (s.key c) now = some addresses ∧
      t.answers c = [.ok addresses]) ∨
    ∃ l, t.joined c = some l ∧ t.InFlight l := by
  obtain ⟨calls, f, shared, follows⟩ := inv
  simp only [State.step] at took
  split at took <;> cases took
  rename_i now entered
  have silent := ((calls c).early (by rw [entered]; rfl)).2.2
  cases hit : s.hit (s.key c) now with
  | some addresses =>
    refine .inl ⟨now, addresses, entered, hit, ?_⟩
    simp [State.lookup, hit, State.setPromise, State.setCaller, silent]
  | none =>
    right
    simp only [State.lookup, hit]
    cases pending : s.pending (s.key c) with
    | none =>
      refine ⟨c, update_self .., .inl ?_⟩
      exact update_self ..
    | some waiters =>
      rw [← follows.pending] at pending
      obtain ⟨l, -, rfl, flying, -⟩ := shared.leader pending
      refine ⟨l, update_self .., ?_⟩
      rcases (inFlight_iff calls follows l).mpr flying with posting | task
      · have other : l ≠ c := by
          rintro rfl
          cases entered.symm.trans posting
        exact .inl ((update_of_ne other _ _).trans posting)
      · exact .inr task

/-- A key is pending while a lookup for it is in flight, and no key has two; a call that does not
hit the cache is answered once, with the outcome of the lookup that its section under the lock
found or made, and the steps of that lookup are enough for it. -/
theorem lookups_shared (reached : Reaches strerror ttl labels s) :
    (∀ k, (s.pending k).isSome ↔ ∃ c, s.InFlight c ∧ s.key c = k) ∧
    (∀ c d, s.InFlight c → s.InFlight d → s.key c = s.key d → c = d) ∧
    ∀ c t, s.step strerror (.lookup c) = some t →
      (∃ now addresses, s.caller c = .entered now ∧ s.hit (s.key c) now = some addresses ∧
        t.answers c = [.ok addresses]) ∨
      ∃ l, t.InFlight l ∧ t.key l = t.key c ∧
        ∀ more u, Run (State.step strerror) free t more u →
          (u.answers c = [] ∨ ∃ o, u.outcome l = some o ∧ u.answers c = [o]) ∧
          ∀ result, Served strerror u l c result := by
  have inv := Inv.reached reached
  refine ⟨inv.pending_iff, fun c d => inv.unique, fun c t stepped => ?_⟩
  apply (lookup_joins inv stepped).imp_right
  rintro ⟨l, joined, inFlight⟩
  have after := inv.step stepped
  refine ⟨l, inFlight, after.key_eq joined, fun more u run => ?_⟩
  obtain ⟨later, joined⟩ : Inv u ∧ u.joined c = some l := by
    refine run.invariant (P := fun u => Inv u ∧ u.joined c = some l) ⟨after, joined⟩ ?_
    rintro u v label ⟨inv, joined⟩ - next
    exact ⟨inv.step next, joined_step inv.1 next joined⟩
  exact ⟨later.fate joined, later.served joined⟩

/-- A second call comes while the task of the first one is queued. -/
def twoCalls : List (Action Nat Unit) :=
  [.call 0 ⟨"h", "s", 0⟩, .enter 0, .lookup 0, .post 0, .call 1 ⟨"h", "s", 0⟩, .enter 1]

theorem lookups_shared_two_calls : ∃ s : State Nat Unit,
    Reaches (fun _ => "") 300 twoCalls s ∧ ∃ c, s.InFlight c ∧ s.key c = s.key 1 := by
  obtain ⟨s, done, pending⟩ : ∃ s : State Nat Unit,
      exec (State.step fun _ => "") { ttl := 300 } twoCalls = some s ∧
        (s.pending (s.key 1)).isSome := exec_any (by decide)
  exact ⟨s, .of_exec done, ((lookups_shared (.of_exec done)).1 _).mp pending⟩

def TaskPC.unfinished : TaskPC C A → Bool
  | .none | .returned => false
  | _ => true

/-- `getaddrinfo` has failed, and the task has taken its waiter and not answered it yet. -/
def failedLookup : List (Action Nat Unit) :=
  [.call 0 ⟨"h", "s", 0⟩, .enter 0, .lookup 0, .post 0, .take 0, .found 0 ⟨-2, none⟩, .settle 0]

def secondLookup : List (Action Nat Unit) :=
  failedLookup ++ [.call 1 ⟨"h", "s", 0⟩, .enter 1, .lookup 1, .post 1]

/-- A task takes its waiters before it answers them. Meanwhile its key is not pending, and when the
task has failed the next call posts a second one for the key. -/
theorem unfinished_lookups_overlap : (∃ s : State Nat Unit,
      exec (State.step fun _ => "") { ttl := 300 } failedLookup = some s ∧
        (s.task 0).unfinished ∧ s.pending (s.key 0) = none) ∧
    ∃ s : State Nat Unit, exec (State.step fun _ => "") { ttl := 300 } secondLookup = some s ∧
        (s.task 0).unfinished ∧ (s.task 1).unfinished ∧ s.key 0 = s.key 1 :=
  ⟨exec_any (by decide), exec_any (by decide)⟩

end Nitrocoro.Net.DnsResolver
