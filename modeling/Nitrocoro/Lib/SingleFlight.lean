import Mathlib.Logic.Function.Basic
import Nitrocoro.Lib.Transition

/-! Callers that ask for a key share one flight. The first one leads it, and those that come while
it is open join; a flight that lands takes all of them along and answers them one by one. -/

namespace SingleFlight
open Function
variable {K C O : Type}

inductive Flight (C O : Type) where
  | none
  | flying
  /-- With the outcome, and the callers that are still to be answered. -/
  | landed (outcome : O) (waiters : List C)

structure State (K C O : Type) where
  pending : K → Option (List C) := fun _ => none
  key : C → K
  flight : C → Flight C O := fun _ => .none
  /-- The leader whose flight a caller waits for. -/
  joined : C → Option C := fun _ => none
  answers : C → List O := fun _ => []

inductive Action (K C O : Type) where
  | ask (c : C) (k : K)
  | land (c : C) (outcome : O)
  | answer (c : C)

variable [DecidableEq K] [DecidableEq C]

namespace State

def setFlight (s : State K C O) (c : C) (flight : Flight C O) : State K C O :=
  { s with flight := update s.flight c flight }

def join (s : State K C O) (c leader : C) (k : K) (waiters : List C) : State K C O :=
  { s with
    pending := update s.pending k (some waiters)
    key := update s.key c k
    joined := update s.joined c (some leader) }

def ask (s : State K C O) (c : C) (k : K) : State K C O :=
  match s.pending k with
  | some waiters => s.join c (waiters.headD c) k (waiters ++ [c])
  | none => (s.join c c k [c]).setFlight c .flying

def land (s : State K C O) (c : C) (outcome : O) : State K C O :=
  { s with pending := update s.pending (s.key c) none }.setFlight c
    (.landed outcome ((s.pending (s.key c)).getD []))

def step (s : State K C O) : Action K C O → Option (State K C O)
  | .ask c k => if s.joined c = none then some (s.ask c k) else none
  | .land c outcome =>
    match s.flight c with
    | .flying => some (s.land c outcome)
    | _ => none
  | .answer c =>
    match s.flight c with
    | .landed outcome (waiter :: waiters) =>
      some ({ s with
        answers := update s.answers waiter (s.answers waiter ++ [outcome]) }.setFlight c
        (.landed outcome waiters))
    | _ => none

end State

/-- The callers of a leader are the waiters of its key, and later those that it has still to answer
and those that it has answered. -/
structure Inv (s : State K C O) : Prop where
  led : ∀ k waiters, s.pending k = some waiters → ∃ c, s.flight c = .flying ∧ s.key c = k
  listed : ∀ c, s.flight c = .flying → ∃ rest, s.pending (s.key c) = some (c :: rest) ∧
    (c :: rest).Nodup ∧ ∀ d, s.joined d = some c ↔ d ∈ c :: rest
  unanswered : ∀ c d, s.flight c = .flying → s.joined d = some c → s.answers d = []
  landed : ∀ c outcome waiters, s.flight c = .landed outcome waiters → waiters.Nodup ∧
    (∀ d ∈ waiters, s.joined d = some c) ∧ ∀ d, s.joined d = some c →
      d ∈ waiters ∧ s.answers d = [] ∨ d ∉ waiters ∧ s.answers d = [outcome]
  joined : ∀ d c, s.joined d = some c → s.flight c ≠ .none ∧ s.key d = s.key c
  fresh : ∀ c, s.joined c = none → s.flight c = .none ∧ s.answers c = []

namespace Inv
variable {s t : State K C O}

omit [DecidableEq K] [DecidableEq C] in
theorem start (key : C → K) : Inv ({ key } : State K C O) :=
  ⟨nofun, nofun, nofun, nofun, nofun, fun _ _ => ⟨rfl, rfl⟩⟩

omit [DecidableEq K] [DecidableEq C] in
theorem leader (inv : Inv s) (pending : s.pending k = some waiters) :
    ∃ c rest, waiters = c :: rest ∧ s.flight c = .flying ∧ s.key c = k := by
  obtain ⟨c, open_, rfl⟩ := inv.led k waiters pending
  obtain ⟨rest, listed, -⟩ := inv.listed c open_
  cases pending.symm.trans listed
  exact ⟨c, rest, rfl, open_, rfl⟩

omit [DecidableEq K] [DecidableEq C] in
theorem unique (inv : Inv s) (open_ : s.flight c = .flying) (open' : s.flight d = .flying)
    (same : s.key c = s.key d) : c = d := by
  obtain ⟨rest, listed, -⟩ := inv.listed c open_
  obtain ⟨rest', listed', -⟩ := inv.listed d open'
  rw [same, listed'] at listed
  cases listed
  rfl

omit [DecidableEq K] [DecidableEq C] in
theorem pending_iff (inv : Inv s) (k : K) :
    (s.pending k).isSome ↔ ∃ c, s.flight c = .flying ∧ s.key c = k := by
  constructor
  · intro pending
    obtain ⟨waiters, listed⟩ := Option.isSome_iff_exists.mp pending
    exact inv.led k waiters listed
  · rintro ⟨c, open_, rfl⟩
    obtain ⟨rest, listed, -⟩ := inv.listed c open_
    rw [listed]
    rfl

theorem follow (inv : Inv s) (fresh : s.joined c = none) (open_ : s.flight l = .flying)
    (pending : s.pending (s.key l) = some (l :: rest)) :
    Inv (s.join c l (s.key l) (l :: rest ++ [c])) := by
  obtain ⟨rest', listed, nodup, -⟩ := inv.listed l open_
  cases pending.symm.trans listed
  obtain ⟨grounded, silent⟩ := inv.fresh c fresh
  have keys : ∀ d, d ≠ c → update s.key c (s.key l) d = s.key d :=
    fun d other => update_of_ne other ..
  have leads : ∀ d, s.flight d = .flying → d ≠ c := by
    rintro d open' rfl
    cases grounded.symm.trans open'
  constructor <;> simp only [State.join]
  · intro k waiters found
    by_cases here : k = s.key l
    · exact ⟨l, open_, (keys l (leads l open_)).trans here.symm⟩
    · rw [update_of_ne here] at found
      obtain ⟨d, open', rfl⟩ := inv.led k waiters found
      exact ⟨d, open', keys d (leads d open')⟩
  · intro d open'
    obtain ⟨rest', listed', nodup', members'⟩ := inv.listed d open'
    rw [keys d (leads d open')]
    by_cases here : s.key d = s.key l
    · cases inv.unique open' open_ here
      refine ⟨rest ++ [c], update_self .., ?_, fun e => ?_⟩
      · exact List.nodup_append.mpr ⟨nodup, by simp, by grind⟩
      · grind
    · refine ⟨rest', (update_of_ne here _ _).trans listed', nodup', fun e => ?_⟩
      grind
  · intro d e open' joined
    by_cases here : e = c
    · rw [here]
      exact silent
    · rw [update_of_ne here] at joined
      exact inv.unanswered d e open' joined
  · intro d outcome waiters landed
    obtain ⟨nodup', joined', answered⟩ := inv.landed d outcome waiters landed
    have other : ∀ e ∈ waiters, e ≠ c := by
      rintro e mem rfl
      cases fresh.symm.trans (joined' e mem)
    refine ⟨nodup', fun e mem => ?_, fun e joined => ?_⟩
    · rw [update_of_ne (other e mem)]
      exact joined' e mem
    by_cases here : e = c
    · subst here
      rw [update_self] at joined
      cases joined
      cases open_.symm.trans landed
    · rw [update_of_ne here] at joined
      exact answered e joined
  · intro e d joined
    by_cases here : e = c
    · subst here
      rw [update_self] at joined
      cases joined
      refine ⟨by rw [open_]; exact nofun, ?_⟩
      rw [update_self, keys l (leads l open_)]
    rw [update_of_ne here] at joined
    obtain ⟨flies, same⟩ := inv.joined e d joined
    have other : d ≠ c := by
      rintro rfl
      exact flies grounded
    refine ⟨flies, ?_⟩
    rw [keys e here, keys d other]
    exact same
  · intro e none
    by_cases here : e = c
    · subst here
      rw [update_self] at none
      cases none
    · rw [update_of_ne here] at none
      exact inv.fresh e none

theorem lead (inv : Inv s) (fresh : s.joined c = none) (none : s.pending k = none) :
    Inv ((s.join c c k [c]).setFlight c .flying) := by
  obtain ⟨grounded, silent⟩ := inv.fresh c fresh
  have unled : ∀ d, s.joined d ≠ some c := fun d joined => (inv.joined d c joined).1 grounded
  constructor <;> simp only [State.join, State.setFlight]
  · intro k' waiters found
    by_cases here : k' = k
    · exact ⟨c, update_self .., by rw [update_self, here]⟩
    rw [update_of_ne here] at found
    obtain ⟨d, open_, rfl⟩ := inv.led k' waiters found
    have other : d ≠ c := by
      rintro rfl
      cases grounded.symm.trans open_
    refine ⟨d, ?_, update_of_ne other _ _⟩
    rw [update_of_ne other]
    exact open_
  · intro d open_
    by_cases here : d = c
    · subst here
      refine ⟨[], by rw [update_self, update_self], by simp, fun e => ?_⟩
      grind
    rw [update_of_ne here] at open_
    obtain ⟨rest, listed, nodup, members⟩ := inv.listed d open_
    have other : s.key d ≠ k := by
      rintro rfl
      cases none.symm.trans listed
    rw [update_of_ne here, update_of_ne other]
    refine ⟨rest, listed, nodup, fun e => ?_⟩
    grind
  · intro d e open_ joined
    by_cases here : e = c
    · rw [here]
      exact silent
    rw [update_of_ne here] at joined
    have other : d ≠ c := by
      rintro rfl
      exact unled e joined
    rw [update_of_ne other] at open_
    exact inv.unanswered d e open_ joined
  · intro d outcome waiters landed
    by_cases here : d = c
    · subst here
      rw [update_self] at landed
      cases landed
    rw [update_of_ne here] at landed
    obtain ⟨nodup, joined, answered⟩ := inv.landed d outcome waiters landed
    refine ⟨nodup, fun e mem => ?_, fun e joined' => answered e ?_⟩
    · grind
    · grind
  · intro e d joined
    have := inv.joined e d
    grind
  · intro e none
    have := inv.fresh e
    grind

omit [DecidableEq K] in
theorem flying_of_landed (open_ : update s.flight c (.landed outcome waiters) d = .flying) :
    d ≠ c ∧ s.flight d = .flying := by
  have other : d ≠ c := by
    rintro rfl
    simp at open_
  exact ⟨other, (update_of_ne other _ _).symm.trans open_⟩

omit [DecidableEq K] in
theorem joined_landed (inv : Inv s) (joined : s.joined e = some d) (outcome : O)
    (waiters : List C) : update s.flight c (.landed outcome waiters) d ≠ .none ∧
      s.key e = s.key d := by
  obtain ⟨flies, same⟩ := inv.joined e d joined
  refine ⟨?_, same⟩
  by_cases here : d = c
  · subst here
    rw [update_self]
    exact nofun
  · rw [update_of_ne here]
    exact flies

theorem land (inv : Inv s) (open_ : s.flight c = .flying) (outcome : O) : Inv (s.land c outcome) := by
  obtain ⟨rest, listed, nodup, members⟩ := inv.listed c open_
  simp only [State.land, listed]
  constructor <;> simp only [State.setFlight]
  · intro k waiters found
    have other : k ≠ s.key c := by
      rintro rfl
      simp at found
    rw [update_of_ne other] at found
    obtain ⟨d, open', rfl⟩ := inv.led k waiters found
    have outside : d ≠ c := by
      rintro rfl
      exact other rfl
    exact ⟨d, (update_of_ne outside _ _).trans open', rfl⟩
  · intro d open'
    obtain ⟨outside, open'⟩ := flying_of_landed open'
    obtain ⟨rest', listed', nodup', members'⟩ := inv.listed d open'
    have other : s.key d ≠ s.key c := fun same => outside (inv.unique open' open_ same)
    exact ⟨rest', (update_of_ne other _ _).trans listed', nodup', members'⟩
  · intro d e open' joined
    exact inv.unanswered d e (flying_of_landed open').2 joined
  · intro d outcome' waiters landed
    by_cases here : d = c
    · subst here
      rw [update_self] at landed
      cases landed
      refine ⟨nodup, fun e mem => (members e).mpr mem, fun e joined => .inl ?_⟩
      exact ⟨(members e).mp joined, inv.unanswered d e open_ joined⟩
    · rw [update_of_ne here] at landed
      exact inv.landed d outcome' waiters landed
  · intro e d joined
    exact inv.joined_landed joined _ _
  intro e none
  have grounded := inv.fresh e none
  have outside : e ≠ c := by
    rintro rfl
    cases grounded.1.symm.trans open_
  rw [update_of_ne outside]
  exact grounded

omit [DecidableEq K] in
theorem answer (inv : Inv s) (landed : s.flight c = .landed outcome (waiter :: waiters)) :
    Inv ({ s with
      answers := update s.answers waiter (s.answers waiter ++ [outcome]) }.setFlight c
      (.landed outcome waiters)) := by
  obtain ⟨nodup, joined, answered⟩ := inv.landed c outcome _ landed
  have first := joined waiter List.mem_cons_self
  have silent : s.answers waiter = [] := by
    rcases answered waiter first with ⟨-, silent⟩ | ⟨outside, -⟩
    · exact silent
    · exact absurd List.mem_cons_self outside
  obtain ⟨outside, nodup⟩ := List.nodup_cons.mp nodup
  -- nobody else waits for the one that is answered
  have others : ∀ e d, s.joined e = some d → d ≠ c → e ≠ waiter := by
    rintro e d joined' other rfl
    cases joined'.symm.trans first
    exact other rfl
  rw [silent]
  constructor <;> simp only [State.setFlight]
  · intro k waiters' found
    obtain ⟨d, open_, rfl⟩ := inv.led k waiters' found
    have other : d ≠ c := by
      rintro rfl
      cases landed.symm.trans open_
    exact ⟨d, (update_of_ne other _ _).trans open_, rfl⟩
  · intro d open_
    exact inv.listed d (flying_of_landed open_).2
  · intro d e open_ joined'
    obtain ⟨other, open_⟩ := flying_of_landed open_
    rw [update_of_ne (others e d joined' other)]
    exact inv.unanswered d e open_ joined'
  · intro d outcome' waiters' landed'
    by_cases here : d = c
    · subst here
      rw [update_self] at landed'
      cases landed'
      refine ⟨nodup, fun e mem => joined e (List.mem_cons_of_mem _ mem), fun e joined' => ?_⟩
      by_cases same : e = waiter
      · subst same
        exact .inr ⟨outside, update_self ..⟩
      · have fate := answered e joined'
        simpa [same] using fate
    · rw [update_of_ne here] at landed'
      obtain ⟨nodup', joined', answered'⟩ := inv.landed d outcome' waiters' landed'
      refine ⟨nodup', joined', fun e joined'' => ?_⟩
      rw [update_of_ne (others e d joined'' here)]
      exact answered' e joined''
  · intro e d joined'
    exact inv.joined_landed joined' _ _
  intro e none
  have grounded := inv.fresh e none
  have other : e ≠ c := by
    rintro rfl
    cases grounded.1.symm.trans landed
  have other' : e ≠ waiter := by
    rintro rfl
    cases none.symm.trans first
  rw [update_of_ne other, update_of_ne other']
  exact grounded

theorem step (inv : Inv s) (took : s.step label = some t) : Inv t := by
  cases label with
  | ask c k =>
    obtain ⟨fresh, rfl⟩ := Transition.of_ite took
    unfold State.ask
    split
    · rename_i waiters pending
      obtain ⟨l, rest, rfl, open_, rfl⟩ := inv.leader pending
      exact inv.follow fresh open_ pending
    · rename_i none
      exact inv.lead fresh none
  | land c outcome =>
    simp only [State.step] at took
    split at took <;> cases took
    rename_i open_
    exact inv.land open_ outcome
  | answer c =>
    simp only [State.step] at took
    split at took <;> cases took
    rename_i landed
    exact inv.answer landed

omit [DecidableEq K] [DecidableEq C] in
/-- A caller waits for its flight, waits to be answered, or was answered with its outcome. -/
theorem fate (inv : Inv s) (joined : s.joined d = some c) :
    s.answers d = [] ∧ s.flight c = .flying ∨
    ∃ outcome waiters, s.flight c = .landed outcome waiters ∧
      (d ∈ waiters ∧ s.answers d = [] ∨ s.answers d = [outcome]) := by
  cases flight : s.flight c with
  | none => exact absurd flight (inv.joined d c joined).1
  | flying => exact .inl ⟨inv.unanswered c d flight joined, rfl⟩
  | landed outcome waiters =>
    refine .inr ⟨outcome, waiters, rfl, ?_⟩
    exact ((inv.landed c outcome waiters flight).2.2 d joined).imp_right And.right

end Inv

end SingleFlight
