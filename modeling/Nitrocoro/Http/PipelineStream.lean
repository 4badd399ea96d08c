import Nitrocoro.Http.PipelineProofs

/-! What stands on the stream between the final responses of a connection and behind them: the
interim responses, and the shutdown of the stream. Neither waits for the chain of promises. -/
namespace Nitrocoro.Http.Pipeline
open Text Transition List Option State

namespace State
variable {s t u : State}

def Written (n : Nat) (s : State) : Prop :=
  tagged (wire ·.script) (s.responses.take n) <+: s.final

/-- Bytes of an interim response go out behind the final responses to the requests before. -/
def InterimInTurn (s : State) : Label → Prop
  | .interim _ => s.Written (s.responses.length - 1)
  | _ => True

/-- A request that expects a 100 is taken when all responses before it are complete. -/
def ExpectReady (s : State) : Label → Prop
  | .request _ _ _ true => s.Written s.responses.length
  | _ => True

def Endable (k : Nat) (s : State) : Prop :=
  k < s.responses.length ∧ ∀ j ≤ k, s.promise j ≠ .broken

/-- The stream is not shut down while a response that can end has bytes to send. -/
def ShutsLate (s : State) (label : Label) : Prop :=
  ∀ t, s.step label = some t → s.shut = false → t.shut = true →
    ∀ k, s.Endable k → s.Written (k + 1)

section Growth

structure Grows (s t : State) : Prop where
  scripts : s.responses.map Response.script <+: t.responses.map Response.script
  final : s.final <+: t.final
  frozen : s.shut = true → t.shut = true ∧ t.final = s.final ∧
    t.responses.length = s.responses.length
  broken : ∀ k, s.promise k = .broken → t.promise k = .broken

theorem Grows.refl (s : State) : Grows s s where
  scripts := prefix_rfl
  final := prefix_rfl
  frozen shut := ⟨shut, rfl, rfl⟩
  broken _ := id

theorem Grows.trans (first : Grows s t) (second : Grows t u) : Grows s u where
  scripts := first.scripts.trans second.scripts
  final := first.final.trans second.final
  frozen shut := by
    obtain ⟨shut', same, count⟩ := first.frozen shut
    obtain ⟨shut'', same', count'⟩ := second.frozen shut'
    exact ⟨shut'', same'.trans same, count'.trans count⟩
  broken k := second.broken k ∘ first.broken k

theorem Grows.keep (same : t.responses = s.responses) (final : t.final = s.final)
    (shut : s.shut = true → t.shut = true) : Grows s t where
  scripts := by rw [same]
  final := by rw [final]
  frozen closed := ⟨shut closed, final, by rw [same]⟩
  broken k := by
    rw [promise, promise, same]
    exact id

theorem final_put (origin : Origin) (bytes : Bytes) (s : State) : (s.put origin bytes).final =
      s.final ++ if s.shut then [] else (bytes.map (origin, ·)).filterMap ofResponse := by
  rw [put]
  split
  · exact (append_nil _).symm
  · exact filterMap_append

theorem map_script_set {l : List Response} (known : l[k]? = some r) (kept : r'.script = r.script) :
    (l.set k r').map Response.script = l.map Response.script := by
  obtain ⟨below, rfl⟩ := List.getElem?_eq_some_iff.mp known
  have below' : k < (l.map Response.script).length := by rwa [length_map]
  have same : (l.map Response.script)[k] = r'.script := by rw [getElem_map, kept]
  rw [map_set, ← same, set_getElem_self]

theorem promise_set (known : s.responses[k]? = some r) (r' : Response) (j : Nat) :
    (s.setResponse k r').promise j = if j = k then r'.promise else s.promise j := by
  have below := (List.getElem?_eq_some_iff.mp known).1
  rw [promise, setResponse, List.getElem?_set]
  by_cases here : j = k
  · rw [if_pos here, if_pos here.symm, if_pos below]
    rfl
  · rw [if_neg here, if_neg (Ne.symm here)]
    rfl

theorem promise_eq (known : s.responses[k]? = some r) : s.promise k = r.promise := by
  rw [promise, known]
  rfl

theorem promise_put (origin : Origin) (bytes : Bytes) (s : State) (k : Nat) :
    (s.put origin bytes).promise k = s.promise k := by
  rw [promise, promise, put_responses]

theorem Grows.set (known : s.responses[k]? = some r) (kept : r'.script = r.script)
    (stays : r.promise = .broken → r'.promise = .broken) (bytes : Bytes) :
    Grows s ((s.setResponse k r').put (.response k) bytes) where
  scripts := by
    rw [put_responses, setResponse, map_script_set known kept]
  final := by
    rw [final_put]
    exact prefix_append _ _
  frozen shut := by
    refine ⟨by rw [put_shut]; exact shut, ?_, by simp [setResponse]⟩
    rw [final_put, if_pos (show (s.setResponse k r').shut = true from shut), append_nil]
    rfl
  broken j was := by
    rw [promise_put, promise_set known]
    split
    · rename_i here
      rw [here, promise_eq known] at was
      exact stays was
    · exact was

theorem Inv.grows (inv : Inv s) (moves : Moves s t) : Grows s t := by
  cases moves with
  | create answer handler keepAlive expects parsing =>
    refine ⟨?_, prefix_rfl, fun shut => ?_, fun k broken => ?_⟩
    · rw [State.create, map_append]
      exact prefix_append _ _
    · cases (inv.left shut).symm.trans parsing
    have below : k < s.responses.length := by
      by_contra beyond
      rw [promise, List.getElem?_eq_none (Nat.le_of_not_lt beyond)] at broken
      cases broken
    rw [promise, State.create, List.getElem?_append_left below]
    exact broken
  | shutdown => exact .keep rfl rfl fun _ => rfl
  | loop => exact .keep rfl rfl id
  | interim left bytes =>
    refine .keep (by simp) ?_ (by simp)
    rw [final_put, filterMap_interim, ite_self]
    exact append_nil _
  | resume k r r' bytes known next =>
    apply Grows.set known next.script.1
    intro broken
    have none := inv.broken_rest (mem_of_getElem? known) broken
    cases next <;> simp_all
  | fails k r known pending =>
    have grows := Grows.set known (show r.abandon.script = r.script from rfl) (fun _ => rfl) []
    have silent : (s.setResponse k r.abandon).put (.response k) [] = s.setResponse k r.abandon := by
      rw [put]
      split <;> simp
    rwa [silent] at grows

theorem Inv.run_from {allowed : State → Label → Prop} (inv : Inv s)
    (run : Run State.step allowed s labels t) : Inv t ∧ Grows s t := by
  induction run with
  | refl => exact ⟨inv, .refl s⟩
  | next _ _ took ih =>
    obtain ⟨inv', grows⟩ := ih
    have moves := step_moves took
    exact ⟨inv'.step moves, grows.trans (inv'.grows moves)⟩

theorem tagged_scripts (l : List Response) : tagged (wire ·.script) l =
    (l.map Response.script).zipIdx.flatMap fun entry => (wire entry.1).map (entry.2, ·) := by
  rw [zipIdx_map, flatMap_map]
  rfl

theorem Grows.tagged_take (grows : Grows s t) (known : n ≤ s.responses.length) :
    tagged (wire ·.script) (t.responses.take n) = tagged (wire ·.script) (s.responses.take n) := by
  obtain ⟨more, split⟩ := grows.scripts
  rw [tagged_scripts, tagged_scripts, map_take, map_take, ← split,
    take_append_of_le_length (by rwa [length_map])]

theorem Written.grow (written : s.Written n) (known : n ≤ s.responses.length) (grows : Grows s t) :
    t.Written n := by
  rw [Written, grows.tagged_take known]
  exact written.trans grows.final

end Growth

section Interim

/-- An interim response that is still to be written comes behind complete responses. -/
def Settled (s : State) : Prop :=
  s.interim ≠ [] → s.loop ≠ .parsing ∧ s.Written (s.responses.length - 1)

theorem Settled.keep (settled : s.Settled) (grows : Grows s t)
    (interim : t.interim ≠ [] → s.interim ≠ []) (loop : s.loop ≠ .parsing → t.loop ≠ .parsing)
    (count : t.responses.length = s.responses.length) : t.Settled := by
  intro pending
  obtain ⟨here, written⟩ := settled (interim pending)
  rw [count]
  exact ⟨loop here, written.grow (Nat.sub_le _ _) grows⟩

@[simp] theorem put_interim (origin : Origin) (bytes : Bytes) (s : State) :
    (s.put origin bytes).interim = s.interim := by
  rw [put]
  split <;> rfl

/-- What a step does to the loop and to the interim response it has to write. -/
inductive LoopEffect (s : State) (label : Label) (t : State) : Prop where
  | creates (answer : Answer) (handler keepAlive expects : Bool)
      (same : t = s.create answer handler keepAlive expects)
      (ready : expects = true → s.ExpectReady label → s.Written s.responses.length)
  | leaves (away : ∀ k handler keepAlive, t.loop ≠ .answering k handler keepAlive)
      (idle : t.interim = [] ∨ t.loop ≠ .parsing) (interim : t.interim = s.interim)
      (count : t.responses.length = s.responses.length)
  | keeps (loop : t.loop = s.loop) (interim : t.interim ≠ [] → s.interim ≠ [])
      (count : t.responses.length = s.responses.length)

theorem loopEffect_step (took : s.step label = some t) : LoopEffect s label t := by
  cases label with
  | request answer handler keepAlive expects =>
    obtain ⟨-, rfl⟩ := of_ite took
    refine .creates answer handler keepAlive expects rfl ?_
    rintro rfl ready
    exact ready
  | badRequest env sendDateHeader =>
    obtain ⟨-, rfl⟩ := of_ite took
    exact .creates _ _ _ _ rfl (by rintro ⟨⟩)
  | interim count =>
    obtain ⟨pending, ⟨⟩⟩ := ite_none_left_eq_some.mp took
    exact .keeps (put_loop _ _) (fun _ => pending) (by simp)
  | returns =>
    simp only [step] at took
    split at took
    · obtain ⟨free, took⟩ := ite_none_left_eq_some.mp took
      have none : s.interim = [] := not_not.mp (not_or.mp free).1
      split at took
      · cases took
        exact .leaves (fun _ _ _ at_ => by cases at_) (.inl none) rfl rfl
      · cases took
        exact .leaves (fun _ _ _ at_ => by cases at_) (.inl none) rfl rfl
    · cases took
  | throws =>
    simp only [step] at took
    split at took
    · obtain ⟨free, ⟨⟩⟩ := ite_none_left_eq_some.mp took
      exact .leaves (fun _ _ _ at_ => by cases at_) (.inl (not_not.mp free)) rfl rfl
    · cases took
  | upgraded =>
    simp only [step] at took
    split at took
    · cases took
      exact .leaves (fun _ _ _ at_ => by cases at_) (.inr (by rintro ⟨⟩)) rfl rfl
    · cases took
  | resume k count =>
    obtain ⟨r, -, took⟩ := bind_eq_some_iff.mp took
    obtain ⟨⟨r', bytes⟩, -, same⟩ := bind_eq_some_iff.mp took
    cases same
    exact .keeps (put_loop _ _) (by simp [setResponse]) (by simp [setResponse])
  | fails k =>
    obtain ⟨r, -, took⟩ := bind_eq_some_iff.mp took
    obtain ⟨-, rfl⟩ := of_ite took
    exact .keeps rfl id (by simp [setResponse])

theorem Settled.step (settled : s.Settled) (inv : Inv s) (ready : s.ExpectReady label)
    (took : s.step label = some t) : t.Settled := by
  have grows := inv.grows (step_moves took)
  cases loopEffect_step took with
  | creates answer handler keepAlive expects same written =>
    subst same
    cases expects with
    | false => exact fun pending => absurd rfl pending
    | true =>
      intro _
      refine ⟨nofun, ?_⟩
      have count : (s.create answer handler keepAlive true).responses.length - 1 =
          s.responses.length := by simp [create]
      rw [count]
      exact (written rfl ready).grow (Nat.le_refl _) grows
  | leaves _ idle interim count =>
    intro pending
    exact settled.keep grows (interim ▸ id) (fun _ => idle.resolve_left pending) count pending
  | keeps loop interim count => exact settled.keep grows interim (loop ▸ id) count

theorem Settled.inTurn (settled : s.Settled) (took : s.step label = some t) :
    s.InterimInTurn label := by
  cases label with
  | interim count =>
    obtain ⟨pending, -⟩ := ite_none_left_eq_some.mp took
    exact (settled pending).2
  | _ => trivial

theorem Settled.run (settled : s.Settled) (inv : Inv s)
    (run : Run State.step ExpectReady s labels t) : Run State.step InterimInTurn s labels t := by
  have both : Run State.step InterimInTurn s labels t ∧ t.Settled := by
    induction run with
    | refl => exact ⟨.refl, settled⟩
    | next before ready took ih =>
      obtain ⟨turn, settled'⟩ := ih
      have inv' := (inv.run_from before).1
      exact ⟨.next turn (settled'.inTurn took) took, settled'.step inv' ready took⟩
  exact both.1

/-- The interim response may go out at once, so that the responses before it have to be there. -/
theorem written_of_runs (pending : s.interim ≠ [])
    (turn : ∀ more u, Run step ExpectReady s more u → Run step InterimInTurn s more u) :
    s.Written (s.responses.length - 1) := by
  have goes : s.step (.interim 1) = some _ := if_neg pending
  have split : [Label.interim 1] = [] ++ .interim 1 :: [] := rfl
  exact (turn [.interim 1] _ (.next .refl trivial goes)).allowed_at split rfl

end Interim

section Shutdown

theorem promise_of_ended (ordered : Ordered s done later part) (below : k < done.length) :
    s.promise k = .satisfied := by
  rw [promise, ordered.split, List.getElem?_append_left below, List.getElem?_eq_getElem below]
  exact (ordered.ended _ (getElem_mem below)).promise

theorem Ordered.lt_of_ended (ordered : Ordered s done later part)
    (ended : s.promise k = .satisfied) : k < done.length := by
  by_contra beyond
  exact ordered.promise_unended (Nat.le_of_not_lt beyond) ended

theorem Inv.ended_before (inv : Inv s) (ended : s.promise k = .satisfied) (le : j ≤ k) :
    j < s.responses.length ∧ s.promise j = .satisfied := by
  obtain ⟨done, later, part, ordered⟩ := inv.order
  have below := ordered.lt_of_ended ended
  refine ⟨?_, promise_of_ended ordered (Nat.lt_of_le_of_lt le below)⟩
  rw [ordered.split, length_append]
  omega

theorem tagged_ahead (bytes : Response → Bytes) (front : a <+: b) :
    tagged bytes a <+: tagged bytes b := by
  obtain ⟨-, rfl⟩ := front
  rw [tagged_append]
  exact prefix_append _ _

theorem Inv.written_of_ended (inv : Inv s) (isOpen : s.shut = false)
    (ended : s.promise k = .satisfied) : s.Written (k + 1) := by
  obtain ⟨done, later, part, ordered⟩ := inv.order
  have below := ordered.lt_of_ended ended
  have offered : s.offered = s.final := by
    rw [offered_eq, lostBytes, inv.dry isOpen]
    exact append_nil _
  rw [Written, ← offered, ordered.sent, ordered.split, take_append_of_le_length below]
  exact (tagged_ahead _ (List.take_prefix _ _)).trans (prefix_append _ _)

/-- A response ends only if none up to it was broken before. -/
theorem Grows.endable (grows : Grows s t) (inv : Inv t) (ended : t.promise k = .satisfied)
    (count : t.responses.length = s.responses.length) : s.Endable k := by
  constructor
  · rw [← count]
    exact (inv.ended_before ended (Nat.le_refl k)).1
  · intro j le broken
    have both := (inv.ended_before ended le).2.symm.trans (grows.broken j broken)
    cases both

theorem Inv.pending_rest (inv : Inv s) (mem : r ∈ s.responses) (pending : r.promise = .pending) :
    r.rest ≠ [] := by
  obtain ⟨done, later, part, ordered⟩ := inv.order
  have waits : r.Waiting → r.rest ≠ [] := by
    rintro (⟨-, whole⟩ | ⟨broken, -⟩)
    · obtain ⟨sending, -, split⟩ := inv.scripts r mem
      rw [whole, split]
      exact cons_ne_nil _ _
    · cases pending.symm.trans broken
  rw [ordered.split] at mem
  rcases mem_append.mp mem with early | late
  · cases pending.symm.trans (ordered.ended r early).promise
  cases later with
  | nil => cases late
  | cons q rs =>
    rcases mem_cons.mp late with rfl | behind
    · rcases ordered.turn _ rfl with (⟨-, ⟨sends, -, split⟩, -⟩ | ⟨broken, -⟩) | ⟨waiting, -⟩
      · rw [split]
        exact append_ne_nil_of_right_ne_nil _ (cons_ne_nil _ _)
      · cases pending.symm.trans broken
      · exact waits waiting
    · exact waits (ordered.behind r behind)

theorem next_shut {r : Response} {previous : Option Promise} (first : r.rest = event :: rest)
    (turn : ∀ p ∈ previous, p = .satisfied) (pending : r.promise = .pending) :
    ∃ r' bytes, r.next previous true 0 = some (r', bytes) ∧ r'.rest = rest ∧
      r'.prevFuture = r.prevFuture ∧ r'.promise ≠ .broken := by
  cases event with
  | awaitPrev =>
    have goes : r.next previous true 0 = some ({ r with rest }, []) := by
      rw [Response.next, first]
      cases previous with
      | none => rfl
      | some p =>
        cases turn p rfl
        rfl
    exact ⟨_, _, goes, rfl, rfl, by simp [pending]⟩
  | send bytes =>
    have goes : r.next previous true 0 = some ({ r with rest }, bytes) := by
      rw [Response.next, first]
      exact if_pos (.inl rfl)
    exact ⟨_, _, goes, rfl, rfl, by simp [pending]⟩
  | finish =>
    have goes : r.next previous true 0 = some ({ r with rest, promise := .satisfied }, []) := by
      rw [Response.next, first]
    exact ⟨_, _, goes, rfl, rfl, by rintro ⟨⟩⟩

structure Turn (k : Nat) (r : Response) (s : State) : Prop where
  known : s.responses[k]? = some r
  passed : ∀ p ∈ r.prevFuture.map s.promise, p = .satisfied
  whole : r.promise ≠ .broken

theorem Turn.step (at_k : s.Turn k r) (inv : Inv s) (shut : s.shut = true)
    (first : r.rest = event :: rest) (pending : r.promise = .pending) :
    ∃ r' t, s.step (.resume k 0) = some t ∧ t.Turn k r' ∧ r'.rest = rest ∧
      ∀ j ≠ k, t.responses[j]? = s.responses[j]? := by
  obtain ⟨known, passed, -⟩ := at_k
  obtain ⟨r', bytes, next, left, future, whole⟩ := next_shut first passed pending
  have below := (List.getElem?_eq_some_iff.mp known).1
  have took : s.step (.resume k 0) = some ((s.setResponse k r').put (.response k) bytes) := by
    simp only [State.step, known, shut, next, bind, Option.bind]
  have others : ∀ j ≠ k, ((s.setResponse k r').put (.response k) bytes).responses[j]? =
      s.responses[j]? := by
    intro j other
    rw [put_responses, setResponse, List.getElem?_set_ne other.symm]
  refine ⟨r', _, took, ⟨?_, ?_, whole⟩, left, others⟩
  · rw [put_responses, setResponse, List.getElem?_set_self below]
  rw [future]
  rw [inv.chain k r known] at passed ⊢
  split
  · intro p mem
    cases mem
  rename_i later
  rw [if_neg later] at passed
  rintro p ⟨⟩
  rw [promise, others _ (by omega)]
  exact passed _ rfl

theorem Turn.finish {s : State} {r : Response} (at_k : s.Turn k r) (inv : Inv s)
    (shut : s.shut = true) :
    ∃ labels t, Run State.step free s labels t ∧ t.promise k = .satisfied ∧
      ∀ j ≠ k, t.responses[j]? = s.responses[j]? := by
  cases here : r.promise with
  | broken => exact absurd here at_k.whole
  | satisfied => exact ⟨[], s, .refl, (promise_eq at_k.known).trans here, fun _ _ => rfl⟩
  | pending =>
    obtain ⟨event, rest, first⟩ :=
      exists_cons_of_ne_nil (inv.pending_rest (mem_of_getElem? at_k.known) here)
    obtain ⟨r', t, took, at_k', left, others⟩ := at_k.step inv shut first here
    have moves := step_moves took
    obtain ⟨labels, u, run, ended, same⟩ :=
      at_k'.finish (inv.step moves) ((inv.grows moves).frozen shut).1
    refine ⟨_, u, (Run.next .refl trivial took).trans run, ended, fun j other => ?_⟩
    rw [same j other, others j other]
termination_by r.rest.length
decreasing_by
  rw [left, first]
  exact Nat.lt_succ_self _

theorem finish_responses (inv : Inv s) (shut : s.shut = true) (endable : s.Endable k) :
    ∃ labels t, Run step free s labels t ∧ t.promise k = .satisfied ∧
      ∀ j > k, t.responses[j]? = s.responses[j]? := by
  obtain ⟨below, whole⟩ := endable
  have known := List.getElem?_eq_getElem below
  have sound := promise_eq known ▸ whole k (Nat.le_refl k)
  induction k with
  | zero =>
    have first : s.Turn 0 s.responses[0] := by
      refine ⟨known, ?_, sound⟩
      rw [inv.chain 0 _ known]
      nofun
    obtain ⟨labels, t, run, ended, same⟩ := first.finish inv shut
    exact ⟨labels, t, run, ended, fun j later => same j (Nat.ne_of_gt later)⟩
  | succ k ih =>
    have below' : k < s.responses.length := Nat.lt_of_succ_lt below
    have known' := List.getElem?_eq_getElem below'
    obtain ⟨labels, t, run, ended, same⟩ := ih below'
      (fun j le => whole j (Nat.le_succ_of_le le)) known'
      (promise_eq known' ▸ whole k (Nat.le_succ k))
    obtain ⟨inv', grows⟩ := inv.run_from run
    have next : t.Turn (k + 1) s.responses[k + 1] := by
      have known'' := (same _ (Nat.lt_succ_self k)).trans known
      refine ⟨known'', ?_, sound⟩
      rw [inv'.chain _ _ known'']
      rintro p ⟨⟩
      exact ended
    obtain ⟨more, u, run', ended', same'⟩ := next.finish inv' (grows.frozen shut).1
    refine ⟨_, u, run.trans run', ended', fun j later => ?_⟩
    rw [same' j (Nat.ne_of_gt later), same j (Nat.lt_of_succ_lt later)]

theorem Written.frozen (written : t.Written n) (grows : Grows s t) (shut : s.shut = true)
    (known : n ≤ s.responses.length) : s.Written n := by
  rw [Written, grows.tagged_take known, (grows.frozen shut).2.1] at written
  exact written

def Closed (s : State) : Prop := s.shut = true → ∀ k, s.Endable k → s.Written (k + 1)

theorem Closed.step (closed : s.Closed) (inv : Inv s) (late : s.ShutsLate label)
    (took : s.step label = some t) : t.Closed := by
  have moves := step_moves took
  have grows := inv.grows moves
  intro shut k endable
  cases before : s.shut with
  | false =>
    cases moves.eq_shutdown before shut
    exact late _ took before shut k endable
  | true =>
    obtain ⟨-, -, count⟩ := grows.frozen before
    have earlier : s.Endable k := by
      refine ⟨count ▸ endable.1, fun j le broken => ?_⟩
      exact endable.2 j le (grows.broken j broken)
    exact (closed before k earlier).grow earlier.1 grows

theorem Closed.run (run : Run State.step ShutsLate {} labels s) : Inv s ∧ s.Closed := by
  apply run.invariant ⟨Inv.initial, nofun⟩
  rintro t u label ⟨inv, closed⟩ late took
  exact ⟨inv.step (step_moves took), closed.step inv late took⟩

theorem Inv.endable_of_ended (inv : Inv s) (ended : s.promise k = .satisfied) : s.Endable k :=
  (Grows.refl s).endable inv ended rfl

end Shutdown

end State

/-- Interim responses go out between complete final responses if every request that expects one is
taken when all responses before it are complete. Where a request is taken earlier, some
continuation sends its interim response too early, and only there. -/
theorem interim_in_turn_iff (labels : List Label) (s : State) :
    (Run step State.ExpectReady {} labels s →
      Run step State.InterimInTurn {} labels s) ∧
    ∀ answer keepAlive t, Run step free {} labels s →
      s.step (.request answer true keepAlive true) = some t →
        ((∀ more u, Run step State.ExpectReady t more u →
          Run step State.InterimInTurn t more u) ↔ s.Written s.responses.length) := by
  constructor
  · intro run
    exact State.Settled.run (fun pending => absurd rfl pending) State.Inv.initial run
  intro answer keepAlive t run taken
  have inv := State.Inv.run run
  have inv' := inv.step (step_moves taken)
  obtain ⟨-, rfl⟩ := of_ite taken
  have earlier : (s.create answer true keepAlive true).Written
      ((s.create answer true keepAlive true).responses.length - 1) ↔
        s.Written s.responses.length := by
    simp only [create, State.Written, length_append, length_singleton,
      Nat.add_sub_cancel, take_left, take_length]
    rfl
  constructor
  · intro turn
    apply earlier.mp
    apply written_of_runs _ turn
    simp [create, continueText, crlf]
  · intro written more u
    apply State.Settled.run _ inv'
    exact fun _ => ⟨by rintro ⟨⟩, earlier.mpr written⟩

/-- The response to the first request is there when the second one is taken. -/
theorem interim_in_turn_behind :
    ∃ s t, exec step {} [.request hello true true false, .resume 0 0, .resume 0 100, .returns] =
        some s ∧ s.step (.request hello true true true) = some t ∧
      ∀ more u, Run step State.ExpectReady t more u → Run step State.InterimInTurn t more u := by
  obtain ⟨s, done, written, taken⟩ : ∃ s, exec step {}
      [.request hello true true false, .resume 0 0, .resume 0 100, .returns] = some s ∧
      tagged (wire ·.script) (s.responses.take s.responses.length) <+: s.final ∧
      (s.step (.request hello true true true)).isSome := exec_any (by decide +kernel)
  obtain ⟨t, taken⟩ := Option.isSome_iff_exists.mp taken
  exact ⟨s, t, done, taken,
    ((interim_in_turn_iff _ s).2 hello true t (.of_exec done) taken).mpr written⟩

def continueInside : List Label :=
  [.request hello true true false, .resume 0 0, .resume 0 5, .returns,
    .request hello true true true, .interim 25, .resume 0 100]

/-- The interim response to the second request stands behind the first five bytes of the response
to the first one. -/
theorem interim_inside_response : ∃ s, Run step free {} continueInside s ∧
      s.stream.map Prod.snd = ascii "HTTP/" ++ continueText ++
        ascii "1.1 200 OK\r\ncontent-length: 2\r\n\r\nhi" ∧
      ¬ Run step State.InterimInTurn {} continueInside s := by
  have ends : ∃ s, exec step {} continueInside = some s ∧
      s.stream.map Prod.snd = ascii "HTTP/" ++ continueText ++
        ascii "1.1 200 OK\r\ncontent-length: 2\r\n\r\nhi" := exec_any (by decide +kernel)
  have there : ∃ t, exec step {} (continueInside.take 5) = some t ∧
      ¬ tagged (wire ·.script) (t.responses.take (t.responses.length - 1)) <+: t.final :=
    exec_any (by decide +kernel)
  obtain ⟨s, done, stream⟩ := ends
  obtain ⟨t, reached, early⟩ := there
  refine ⟨s, .of_exec done, stream, fun turn => early ?_⟩
  have split : continueInside = continueInside.take 5 ++ .interim 25 :: [.resume 0 100] := rfl
  exact turn.allowed_at split reached

/-- Every response that ends is sent in full if the stream is not shut down while a response that
can end has bytes to send. Where it is shut down earlier, some continuation ends a response of
which not all is on the stream, and only there. -/
theorem ended_sent_iff (labels : List Label) (s : State) : (Run step State.ShutsLate {} labels s →
      ∀ k, s.promise k = .satisfied → s.Written (k + 1)) ∧
    ∀ label t, Run step free {} labels s → s.step label = some t →
      s.shut = false → t.shut = true →
        ((∀ more u, Run step free t more u →
          ∀ k, u.promise k = .satisfied → u.Written (k + 1)) ↔
            ∀ k, s.Endable k → s.Written (k + 1)) := by
  constructor
  · intro run k ended
    obtain ⟨inv, closed⟩ := State.Closed.run run
    cases shut : s.shut with
    | false => exact inv.written_of_ended shut ended
    | true => exact closed shut k (inv.endable_of_ended ended)
  intro label t run stepped isOpen shut
  have inv := State.Inv.run run
  have moves := step_moves stepped
  have inv' := inv.step moves
  cases moves.eq_shutdown isOpen shut
  constructor
  · intro sent k endable
    obtain ⟨more, u, run', ended, -⟩ := finish_responses inv' shut endable
    have grows := (inv'.run_from run').2
    exact State.Written.frozen (s := s.shutdown) (sent more u run' k ended) grows shut endable.1
  · intro written more u run' k ended
    obtain ⟨inv'', grows⟩ := inv'.run_from run'
    have endable := grows.endable inv'' ended (grows.frozen shut).2.2
    exact State.Written.grow (s := s.shutdown) (written k endable) endable.1 grows

/-- The handler of a request that is not kept alive ends its response before it returns. -/
theorem ended_sent_before :
    ∃ s t, exec step {} [.request hello true false false, .resume 0 0, .resume 0 100] = some s ∧
      s.step .returns = some t ∧ s.shut = false ∧ t.shut = true ∧
      ∀ more u, Run step free t more u → ∀ k, u.promise k = .satisfied → u.Written (k + 1) := by
  obtain ⟨s, done, one, written, isOpen, shuts⟩ : ∃ s, exec step {}
      [.request hello true false false, .resume 0 0, .resume 0 100] = some s ∧
      s.responses.length = 1 ∧ tagged (wire ·.script) (s.responses.take 1) <+: s.final ∧
      s.shut = false ∧ (s.step .returns).any (·.shut) := exec_any (by decide +kernel)
  obtain ⟨t, stepped, shut⟩ := (Option.any_eq_true _ _).mp shuts
  refine ⟨s, t, done, stepped, isOpen, shut,
    ((ended_sent_iff _ s).2 .returns t (.of_exec done) stepped isOpen shut).mpr ?_⟩
  intro k endable
  cases Nat.lt_one_iff.mp (one ▸ endable.1)
  exact written

/-- The first handler leaves its response to another coroutine, and the second one throws. -/
def throwsBehind : List Label :=
  [.request hello true true false, .returns, .request hello true true false, .throws,
    .resume 0 0, .resume 0 100, .resume 0 0]

/-- The first response is ended after the shutdown, and no byte of it is on the stream. -/
theorem ended_unsent :
    ∃ s, Run step free {} throwsBehind s ∧ s.promise 0 = .satisfied ∧ s.stream = [] ∧
      ¬ s.Written 1 := by
  have ends : ∃ s, exec step {} throwsBehind = some s ∧ s.promise 0 = .satisfied ∧
      s.stream = [] ∧ ¬ tagged (wire ·.script) (s.responses.take 1) <+: s.final :=
    exec_any (by decide +kernel)
  obtain ⟨s, done, ended, nothing, unsent⟩ := ends
  exact ⟨s, .of_exec done, ended, nothing, unsent⟩

end Nitrocoro.Http.Pipeline
