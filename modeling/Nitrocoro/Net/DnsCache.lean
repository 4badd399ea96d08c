import Mathlib.Data.Fin.Basic
import Mathlib.Data.Int.Order.Basic
import Mathlib.Data.Set.Function
import Nitrocoro.Net.DnsResolverProofs

/-! What the cache of a resolver answers with. A call gets addresses that were found for its cache
key, which is its own query as long as the bar between the parts of a key is in no hostname; and an
entry of the cache has an element of the queue that expires it. -/

namespace Nitrocoro.Net.DnsResolver
open Function Transition List
variable {C A : Type} [DecidableEq C] {s t : State C A} {strerror : Int → String}

theorem append_cons_inj_right {x : α} {a a' b b' : List α} (none : x ∉ b) (none' : x ∉ b')
    (same : a ++ x :: b = a' ++ x :: b') : a = a' ∧ b = b' := by
  have split : ∀ {a a' b b' c : List α}, x ∉ b → a' = a ++ c → x :: b = c ++ x :: b' →
      a = a' ∧ b = b' := by
    intro a a' b b' c none front rest
    cases c with
    | nil =>
      cases rest
      exact ⟨by simpa using front.symm, rfl⟩
    | cons y c =>
      cases rest
      exact absurd (mem_append_right _ mem_cons_self) none
  rcases append_eq_append_iff.mp same with ⟨c, front, rest⟩ | ⟨c, front, rest⟩
  · exact split none front rest
  · exact (split none' front rest).imp Eq.symm Eq.symm

theorem not_mem_repr (plain : c.isDigit = false) (n : Nat) : c ∉ n.repr.toList := by
  rw [Nat.repr_eq_ofList_toDigits, String.toList_ofList]
  intro mem
  cases plain.symm.trans (Nat.isDigit_of_mem_toDigits (by decide) (by decide) mem)

theorem bar_not_mem_toString (n : Int) : '|' ∉ (toString n).toList := by
  rw [Int.toString_eq_repr, Int.repr_eq_if]
  split
  · exact not_mem_repr rfl _
  · rw [String.toList_append, mem_append, not_or]
    exact ⟨by decide, not_mem_repr rfl _⟩

theorem toString_inj {m n : Int} (same : toString m = toString n) : m = n := by
  have digits : ∀ {a b : Nat}, a.repr = b.repr → a = b := by
    intro a b same
    rw [Nat.repr_eq_ofList_toDigits, Nat.repr_eq_ofList_toDigits, String.ofList_inj] at same
    rw [← Nat.ofDigitChars_ten_toDigits (n := a), same, Nat.ofDigitChars_ten_toDigits]
  have minus : ∀ {a b : Nat}, a.repr ≠ "-" ++ b.repr := by
    intro a b same
    apply not_mem_repr (c := '-') rfl a
    rw [same, String.toList_append]
    exact mem_append_left _ (by decide)
  rw [Int.toString_eq_repr, Int.toString_eq_repr, Int.repr_eq_if, Int.repr_eq_if] at same
  split at same <;> split at same
  · have := digits same
    omega
  · exact absurd same minus
  · exact absurd same.symm minus
  · rw [← String.toList_inj, String.toList_append, String.toList_append] at same
    have := digits (String.toList_inj.mp (append_cancel_left same))
    omega

/-- The family can be told from a key, and what stands in front of it as a whole. -/
theorem cacheKey_eq_iff (q q' : Query) : cacheKey q = cacheKey q' ↔ q.family = q'.family ∧
    q.hostname ++ "|" ++ q.service = q'.hostname ++ "|" ++ q'.service := by
  unfold cacheKey
  generalize q.hostname ++ "|" ++ q.service = front
  generalize q'.hostname ++ "|" ++ q'.service = front'
  constructor
  · intro same
    have bar : "|".toList = ['|'] := by decide
    have lists := congrArg String.toList same
    simp only [String.toList_append, append_assoc] at lists
    obtain ⟨front, back⟩ := append_cons_inj_right (bar_not_mem_toString q.family)
      (bar_not_mem_toString q'.family) lists
    exact ⟨toString_inj (String.toList_inj.mp back), String.toList_inj.mp front⟩
  · rintro ⟨family, front⟩
    rw [family, front]

theorem cacheKey_injOn {asked : Set Query} (plain : ∀ q ∈ asked, '|' ∉ q.hostname.toList) :
    Set.InjOn cacheKey asked := by
  intro q mem q' mem' same
  obtain ⟨family, front⟩ := (cacheKey_eq_iff q q').mp same
  have bar : "|".toList = ['|'] := by decide
  have lists := congrArg (List.reverse ∘ String.toList) front
  simp only [Function.comp_apply, String.toList_append, reverse_append] at lists
  obtain ⟨service, -⟩ := append_cons_inj_right (mt mem_reverse.mp (plain q mem))
    (mt mem_reverse.mp (plain q' mem')) lists
  cases q
  simp_all [String.toList_inj]

omit [DecidableEq C] in
theorem hit_eq_some_iff {held : List A} : s.hit k now = some held ↔
    ∃ entry, s.cache k = some entry ∧ now < entry.expiry ∧ entry.addresses = held := by
  unfold State.hit
  cases s.cache k <;> simp

theorem mem_setPromise {o p : Outcome A} : o ∈ (s.setPromise c p).answers d ↔
    o ∈ s.answers d ∨ d = c ∧ o = p := by
  rcases eq_or_ne d c with rfl | other
  · simp [State.setPromise]
  · simp [State.setPromise, other]

def Asks (asked : Set Query) (_ : State C A) : Action C A → Prop
  | .call _ q => q ∈ asked
  | _ => True

/-- `getaddrinfo` gave these addresses to a task with the query of the call. -/
def State.Exact (s : State C A) : Prop :=
  ∀ c addresses, .ok addresses ∈ s.answers c →
    ∃ l, s.query l = s.query c ∧ s.outcome l = some (.ok addresses)

/-- Addresses of the cache, and of the calls that it answered, are those of a task with their
key. -/
structure Traced (s : State C A) : Prop where
  cache : ∀ k entry, s.cache k = some entry →
    ∃ l, s.key l = k ∧ s.outcome l = some (.ok entry.addresses)
  answers : ∀ c addresses, s.joined c = none → .ok addresses ∈ s.answers c →
    ∃ l, s.key l = s.key c ∧ s.outcome l = some (.ok addresses)

namespace Traced

omit [DecidableEq C] in
theorem mono (traced : Traced s)
    (kept : ∀ l o, s.outcome l = some o → t.key l = s.key l ∧ t.outcome l = some o)
    (cache : ∀ k entry, t.cache k = some entry → s.cache k = some entry ∨
      ∃ l, s.key l = k ∧ s.outcome l = some (.ok entry.addresses))
    (answers : ∀ c addresses, t.joined c = none → .ok addresses ∈ t.answers c →
      t.key c = s.key c ∧ (s.joined c = none ∧ .ok addresses ∈ s.answers c ∨
        ∃ l, s.key l = s.key c ∧ s.outcome l = some (.ok addresses))) : Traced t := by
  have carry : ∀ {k addresses}, (∃ l, s.key l = k ∧ s.outcome l = some (.ok addresses)) →
      ∃ l, t.key l = k ∧ t.outcome l = some (.ok addresses) := by
    rintro k addresses ⟨l, key, outcome⟩
    obtain ⟨same, outcome⟩ := kept l _ outcome
    exact ⟨l, same.trans key, outcome⟩
  constructor
  · intro k entry held
    rcases cache k entry held with before | found
    · exact carry (traced.cache k entry before)
    · exact carry found
  intro c addresses fresh mem
  obtain ⟨key, before | found⟩ := answers c addresses fresh mem
  · rw [key]
    exact carry (traced.answers c addresses before.1 before.2)
  · rw [key]
    exact carry found

omit [DecidableEq C] in
theorem outcome_early (inv : Inv s) (early : (s.caller c).early) : s.outcome c = none := by
  obtain ⟨calls, f, -, follows⟩ := inv
  have alike := follows.flight c
  rw [((calls c).early early).1] at alike
  exact alike.2

section
variable (traced : Traced s)
include traced

theorem call (inv : Inv s) (idle : s.caller c = .idle) (q : Query) :
    Traced ({ s with query := update s.query c q }.setCaller c .called) := by
  have early : (s.caller c).early := by rw [idle]; rfl
  have none := outcome_early inv early
  have silent := ((inv.1 c).early early).2.2
  have key : ∀ d, d ≠ c → State.key
      ({ s with query := update s.query c q }.setCaller c .called) d = s.key d :=
    fun d other => congrArg cacheKey (update_of_ne other ..)
  refine traced.mono ?_ (fun _ _ => .inl) ?_
  · intro l o outcome
    refine ⟨key l ?_, outcome⟩
    rintro rfl
    cases none.symm.trans outcome
  intro d addresses fresh mem
  refine ⟨key d ?_, .inl ⟨fresh, mem⟩⟩
  rintro rfl
  have mem : .ok addresses ∈ s.answers d := mem
  rw [silent] at mem
  cases mem

theorem join (c leader : C) (waiters : List C) (pc : CallerPC) :
    Traced (((s.setPending (s.key c) (some waiters)).join c leader).setCaller c pc) := by
  refine traced.mono (fun _ _ found => ⟨rfl, found⟩) (fun _ _ => .inl) ?_
  intro d addresses fresh mem
  have other : d ≠ c := by
    rintro rfl
    cases (update_self ..).symm.trans fresh
  exact ⟨rfl, .inl ⟨(update_of_ne other ..).symm.trans fresh, mem⟩⟩

theorem lookup (c : C) (now : Int) : Traced (s.lookup c now) := by
  unfold State.lookup
  split
  · rename_i held hit
    refine traced.mono (fun _ _ found => ⟨rfl, found⟩) (fun _ _ => .inl) ?_
    intro d addresses fresh mem
    refine ⟨rfl, ?_⟩
    rcases mem_setPromise.mp mem with before | ⟨rfl, ⟨⟩⟩
    · exact .inl ⟨fresh, before⟩
    · obtain ⟨entry, cached, -, rfl⟩ := hit_eq_some_iff.mp hit
      exact .inr (traced.cache _ entry cached)
  · split
    · exact traced.join ..
    · exact traced.join ..

theorem found (inv : Inv s) (resolving : s.task c = .resolving)
    (result : Found A) : Traced (s.found strerror c result) := by
  obtain ⟨calls, f, shared, follows⟩ := inv
  obtain ⟨none, held⟩ := resolving_held calls shared follows resolving
  unfold State.found
  rw [if_neg (by rw [held]; exact Bool.false_ne_true)]
  refine traced.mono (fun l o found => ⟨rfl, ?_⟩) (fun _ _ => .inl)
    fun _ _ fresh mem => ⟨rfl, .inl ⟨fresh, mem⟩⟩
  have other : l ≠ c := by
    rintro rfl
    cases none.symm.trans found
  exact (update_of_ne other ..).trans found

theorem settle (inv : Inv s) (resolved : s.task c = .resolved o now) :
    Traced (s.settle c o now) := by
  obtain ⟨-, f, -, follows⟩ := inv
  have alike := follows.flight c
  rw [resolved] at alike
  cases o with
  | error e => exact { traced with }
  | ok addresses =>
    refine traced.mono (fun _ _ found => ⟨rfl, found⟩) (fun k entry held => ?_)
      fun _ _ fresh mem => ⟨rfl, .inl ⟨fresh, mem⟩⟩
    rcases eq_or_ne k (s.key c) with rfl | other
    · cases (update_self ..).symm.trans held
      exact .inr ⟨c, rfl, alike.2⟩
    · exact .inl ((update_of_ne other ..).symm.trans held)

theorem setPromise (joined : s.joined c = some l) (o : Outcome A) : Traced (s.setPromise c o) := by
  refine traced.mono (fun _ _ found => ⟨rfl, found⟩) (fun _ _ => .inl) ?_
  intro d addresses fresh mem
  rcases mem_setPromise.mp mem with before | ⟨rfl, -⟩
  · exact ⟨rfl, .inl ⟨fresh, before⟩⟩
  · cases joined.symm.trans fresh

theorem step (inv : Inv s) (took : s.step strerror label = some t) : Traced t := by
  cases effect_of_step took with
  | @call c q idle => exact traced.call inv idle q
  | @lookup c now => exact traced.lookup c now
  | found resolving => exact traced.found inv resolving _
  | settle resolved => exact traced.settle inv resolved
  | expire =>
    exact traced.mono (fun _ _ found => ⟨rfl, found⟩)
      (fun _ _ held => .inl (Option.filter_eq_some_iff.mp held).1)
      fun _ _ fresh mem => ⟨rfl, .inl ⟨fresh, mem⟩⟩
  | @answer c o waiter waiters answering =>
    obtain ⟨-, f, shared, follows⟩ := inv
    have alike := follows.flight c
    rw [answering] at alike
    have joined := (shared.landed c _ _ alike.1).2.1 waiter mem_cons_self
    rw [follows.joined] at joined
    exact { traced.setPromise joined o with }
  | _ => exact { traced with }

end

omit [DecidableEq C] in
theorem start (ttl : Int) : Traced ({ ttl } : State C A) := by
  constructor
  · intro k entry held
    cases held
  · intro c addresses fresh mem
    cases mem

theorem reached (run : Reaches strerror ttl labels s) : Inv s ∧ Traced s :=
  run.invariant (P := fun s => Inv s ∧ Traced s) ⟨Inv.start ttl, start ttl⟩
    fun ⟨inv, traced⟩ _ took => ⟨inv.step took, traced.step inv took⟩

omit [DecidableEq C] in
theorem answered {addresses : List A} (traced : Traced s) (inv : Inv s)
    (mem : .ok addresses ∈ s.answers c) :
    ∃ l, s.key l = s.key c ∧ s.outcome l = some (.ok addresses) := by
  cases joined : s.joined c with
  | none => exact traced.answers c addresses joined mem
  | some l =>
    refine ⟨l, inv.key_eq joined, ?_⟩
    rcases inv.fate joined with silent | ⟨o, outcome, answers⟩
    · rw [silent] at mem
      cases mem
    · rw [answers, mem_singleton] at mem
      rw [mem]
      exact outcome

end Traced

theorem setCaller_idle (begun : s.caller d ≠ .idle) (idle : s.caller c = .idle) :
    (s.setCaller d pc).caller c = .idle := by
  have other : c ≠ d := by
    rintro rfl
    exact begun idle
  exact (update_of_ne other ..).trans idle

theorem lookup_idle (begun : s.caller d ≠ .idle) (idle : s.caller c = .idle) :
    (s.lookup d now).caller c = .idle := by
  unfold State.lookup
  split
  · exact setCaller_idle begun idle
  · split <;> exact setCaller_idle begun idle

theorem idle_step (took : s.step strerror label = some t) :
    (∃ c q, label = .call c q ∧ t = { s with query := update s.query c q }.setCaller c
      .called) ∨ t.query = s.query ∧ ∀ c, s.caller c = .idle → t.caller c = .idle := by
  cases effect_of_step took with
  | @call d q => exact .inl ⟨d, q, rfl, rfl⟩
  | @gone d called | @enter d called =>
    have begun : s.caller d ≠ .idle := by simp [called]
    exact .inr ⟨rfl, fun c => setCaller_idle begun⟩
  | @lookup d now entered =>
    refine .inr ⟨?_, fun c => lookup_idle (by simp [entered])⟩
    unfold State.lookup
    split
    · rfl
    · split <;> rfl
  | @post d posting =>
    have begun : s.caller d ≠ .idle := by simp [posting]
    exact .inr ⟨rfl, fun c => setCaller_idle begun⟩
  | @resume d waiting =>
    have begun : s.caller d ≠ .idle := by simp [waiting]
    exact .inr ⟨rfl, fun c => setCaller_idle begun⟩
  | found =>
    unfold State.found
    split <;> exact .inr ⟨rfl, fun _ => id⟩
  | @settle d o => cases o <;> exact .inr ⟨rfl, fun _ => id⟩
  | _ => exact .inr ⟨rfl, fun _ => id⟩

theorem asked_of_run (run : Run (State.step strerror) (Asks asked) { ttl } labels s)
    (c : C) (begun : s.caller c ≠ .idle) : s.query c ∈ asked := by
  refine run.invariant (P := fun s => ∀ c, s.caller c ≠ .idle → s.query c ∈ asked) ?_ ?_ c begun
  · exact fun c begun => absurd rfl begun
  intro s t label known asks took c begun
  rcases idle_step took with ⟨d, q, rfl, rfl⟩ | ⟨query, idle⟩
  · rcases eq_or_ne c d with rfl | other
    · simpa [State.setCaller, Asks] using asks
    · have same : s.caller c ≠ .idle := by simpa [State.setCaller, other] using begun
      simpa [State.setCaller, other] using known c same
  · rw [query]
    exact known c (mt (idle c) begun)

theorem exact_of_injOn (injective : Set.InjOn cacheKey asked)
    (run : Run (State.step strerror) (Asks asked) { ttl } labels s) : s.Exact := by
  obtain ⟨inv, traced⟩ := Traced.reached (run.relax fun _ => trivial)
  intro c addresses mem
  obtain ⟨l, key, outcome⟩ := traced.answered inv mem
  refine ⟨l, injective (asked_of_run run l ?_) (asked_of_run run c ?_) key, outcome⟩
  · intro idle
    cases (Traced.outcome_early inv (by rw [idle]; rfl)).symm.trans outcome
  · intro idle
    rw [((inv.1 c).early (by rw [idle]; rfl)).2.2] at mem
    cases mem

/-- A call that joins the lookup of another one, which then finds an address. -/
def joining (c d : C) (q q' : Query) (a : A) : List (Action C A) :=
  [.call c q, .enter c, .lookup c, .call d q', .enter d, .lookup d, .post c, .take c,
    .found c ⟨0, some [⟨true, some a⟩]⟩, .settle c, .count c, .expire c, .answer c, .answer c]

theorem joining_answers (strerror : Int → String) (ttl : Int) {c d : C} (other : d ≠ c)
    (same : cacheKey q = cacheKey q') (a : A) :
    ∃ s, exec (State.step strerror) { ttl } (joining c d q q' a) = some s ∧
      s.answers d = [.ok [a]] ∧ s.query d = q' ∧ s.query c = q ∧
      ∀ l, l ≠ c → s.outcome l = none := by
  simp [joining, exec, State.step, State.setCaller, State.lookup, State.hit, State.key,
    State.setPending, State.join, State.setTask, State.found, State.settle, State.store,
    State.taken, State.expire, State.setPromise, outcome, addresses, other, other.symm, same]
  exact fun l away => update_of_ne away ..

theorem joining_asks (known : q ∈ asked) (known' : q' ∈ asked)
    (run : Reaches strerror ttl (joining c d q q' a) s) :
    Run (State.step strerror) (Asks asked) { ttl } (joining c d q q' a) s := by
  refine run.restrict fun label mem => ?_
  simp only [joining, mem_cons, not_mem_nil, or_false] at mem
  rcases mem with rfl | rfl | rfl | rfl | mem
  · exact known
  · trivial
  · trivial
  · exact known'
  · rcases mem with rfl | rfl | rfl | rfl | rfl | rfl | rfl | rfl | rfl | rfl <;> trivial

/-- A call gets only addresses of its own hostname, service and family as long as no two queries of
the run are equal with the bar between their parts. -/
theorem answers_exact_iff [Nontrivial C] [Nonempty A] (strerror : Int → String) (ttl : Int)
    (asked : Set Query) :
    (∀ labels (s : State C A), Run (State.step strerror) (Asks asked) { ttl } labels s →
      s.Exact) ↔
    ∀ q ∈ asked, ∀ q' ∈ asked, q.family = q'.family →
      q.hostname ++ "|" ++ q.service = q'.hostname ++ "|" ++ q'.service → q = q' := by
  constructor
  · intro always q known q' known' family front
    obtain ⟨c, d, other⟩ := exists_pair_ne C
    obtain ⟨a⟩ := ‹Nonempty A›
    obtain ⟨s, done, answers, query', query, outcomes⟩ := joining_answers strerror ttl other.symm
      ((cacheKey_eq_iff q q').mpr ⟨family, front⟩) a
    have mem : .ok [a] ∈ s.answers d := by simp [answers]
    obtain ⟨l, same, outcome⟩ :=
      always _ s (joining_asks known known' (Run.of_exec done)) d [a] mem
    -- the only task of the run is that of the first call
    rcases eq_or_ne l c with rfl | away
    · rw [← query, ← query', same]
    · cases (outcomes l away).symm.trans outcome
  · intro apart labels s run
    refine exact_of_injOn (fun q known q' known' same => ?_) run
    obtain ⟨family, front⟩ := (cacheKey_eq_iff q q').mp same
    exact apart q known q' known' family front

def plainQueries : Set Query := { q | '|' ∉ q.hostname.toList }

theorem answers_exact_plain : ∃ s : State Bool Unit, Run (State.step fun _ => "")
    (Asks plainQueries) { ttl := 300 } (joining false true ⟨"h", "s", 0⟩ ⟨"h", "s", 0⟩ ()) s ∧
    s.answers true = [.ok [()]] ∧ s.Exact := by
  obtain ⟨s, done, answers, -⟩ := joining_answers (fun _ => "") 300 Bool.false_ne_true.symm
    (rfl : cacheKey ⟨"h", "s", 0⟩ = cacheKey ⟨"h", "s", 0⟩) ()
  have plain : ⟨"h", "s", 0⟩ ∈ plainQueries := by
    change '|' ∉ "h".toList
    decide
  have run := joining_asks plain plain (Run.of_exec done)
  have apart : ∀ q ∈ plainQueries, ∀ q' ∈ plainQueries, q.family = q'.family →
      q.hostname ++ "|" ++ q.service = q'.hostname ++ "|" ++ q'.service → q = q' := by
    intro q plain q' plain' family front
    exact cacheKey_injOn (fun _ => id) plain plain' ((cacheKey_eq_iff q q').mpr ⟨family, front⟩)
  exact ⟨s, run, answers, (answers_exact_iff _ 300 _).mpr apart _ s run⟩

/-- A lookup of `h|x` is cached, and a lookup of `h` with the service `x|` is answered with it. -/
def mixing : List (Action Bool Unit) :=
  [.call false ⟨"h|x", "", 0⟩, .enter false, .lookup false, .post false, .take false,
    .found false ⟨0, some [⟨true, some ()⟩]⟩, .settle false, .count false, .expire false,
    .answer false, .answer false, .call true ⟨"h", "x|", 0⟩, .enter true, .lookup true]

theorem cached_answer_mixed : ∃ s, Reaches (fun _ => "") 300 mixing s ∧
    s.answers true = [.ok [()]] ∧ ¬ s.Exact := by
  obtain ⟨s, done, answers, others⟩ : ∃ s, exec (State.step fun _ => "")
      { ttl := 300 } mixing = some s ∧ s.answers true = [.ok [()]] ∧
      ∀ l, s.query l = s.query true → s.outcome l ≠ some (.ok [()]) := exec_any (by decide)
  refine ⟨s, Run.of_exec done, answers, fun same => ?_⟩
  obtain ⟨l, query, outcome⟩ := same true [()] (by simp [answers])
  exact others l query outcome

def evict (now : Int) (k : String) (cache : String → Option (CacheEntry A)) :
    String → Option (CacheEntry A) :=
  match cache k with
  | some entry => if entry.expiry ≤ now then update cache k none else cache
  | none => cache

/-- The loop over `expiryQueue`, which gives its elements in the order of their expiry: the rest of
the queue and the cache. -/
def sweep (now : Int) : List (Int × String) → (String → Option (CacheEntry A)) →
    List (Int × String) × (String → Option (CacheEntry A))
  | [], cache => ([], cache)
  | top :: queue, cache =>
    if top.1 ≤ now then sweep now queue (evict now top.2 cache) else (top :: queue, cache)

theorem evict_apply (now : Int) (k : String) (cache : String → Option (CacheEntry A)) (j : String) :
    evict now k cache j =
      if j = k then (cache j).filter fun entry => now < entry.expiry else cache j := by
  unfold evict
  rcases eq_or_ne j k with rfl | other
  · cases held : cache j with
    | none => simp [held]
    | some entry =>
      by_cases old : entry.expiry ≤ now
      · simp [Option.filter, old]
      · simp [Option.filter, old, held]
  · cases held : cache k with
    | none => simp [other]
    | some entry => by_cases old : entry.expiry ≤ now <;> simp [old, other]

def swept (now : Int) (queue : List (Int × String)) (k : String) (entry : CacheEntry A) : Bool :=
  queue.any (fun top => decide (top.1 ≤ now) && top.2 == k) && decide (entry.expiry ≤ now)

theorem sweep_eq (now : Int) {queue : List (Int × String)}
    (sorted : queue.Pairwise fun top next => top.1 ≤ next.1)
    (cache : String → Option (CacheEntry A)) :
    (sweep now queue cache).1 = queue.filter (fun top => now < top.1) ∧
      ∀ k, (sweep now queue cache).2 k =
        (cache k).filter fun entry => !swept now queue k entry := by
  induction queue generalizing cache with
  | nil =>
    refine ⟨rfl, fun k => ?_⟩
    cases held : cache k <;> simp [sweep, swept, held, Option.filter]
  | cons top queue ih =>
    obtain ⟨first, rest⟩ := pairwise_cons.mp sorted
    by_cases due : top.1 ≤ now
    · rw [sweep, if_pos due]
      obtain ⟨queued, cached⟩ := ih rest (evict now top.2 cache)
      refine ⟨?_, fun k => ?_⟩
      · simpa [due] using queued
      rw [cached, evict_apply]
      cases cache k with
      | none => simp
      | some entry => by_cases same : k = top.2 <;> grind [swept]
    · rw [sweep, if_neg due]
      -- nothing behind is older
      have later : ∀ next ∈ top :: queue, now < next.1 := by
        intro next mem
        rcases mem_cons.mp mem with rfl | mem
        · exact not_le.mp due
        · exact lt_of_lt_of_le (not_le.mp due) (first next mem)
      refine ⟨(filter_eq_self.mpr (by simpa using later)).symm, fun k => ?_⟩
      have none : ∀ entry : CacheEntry A, swept now (top :: queue) k entry = false := by
        intro entry
        have : (top :: queue).any (fun top => decide (top.1 ≤ now) && top.2 == k) = false := by
          rw [any_eq_false]
          intro next mem
          simp [later next mem]
        rw [swept, this, Bool.false_and]
      cases held : cache k <;> simp [none, Option.filter, held]

omit [DecidableEq C] in
/-- The loop does what `expire` says, in whatever order the queue has equal expiries. -/
theorem expire_eq_sweep (now : Int) (queue : List (Int × String))
    (same : queue.Perm s.expiryQueue) (sorted : queue.Pairwise fun top next => top.1 ≤ next.1) :
    (sweep now queue s.cache).1.Perm (s.expire now).expiryQueue ∧
      (sweep now queue s.cache).2 = (s.expire now).cache := by
  obtain ⟨queued, cached⟩ := sweep_eq now sorted s.cache
  constructor
  · rw [queued]
    exact same.filter _
  · funext k
    rw [cached]
    refine congrArg (Option.filter · _) (funext fun entry => ?_)
    rw [swept, any_filter, same.any_eq]

def Queued (s : State C A) : Prop :=
  ∀ k entry, s.cache k = some entry → (entry.expiry, k) ∈ s.expiryQueue

omit [DecidableEq C] in
theorem Queued.expire (queued : Queued s) (now : Int) (k : String) :
    (s.expire now).cache k = (s.cache k).filter fun entry => now < entry.expiry := by
  simp only [State.expire]
  cases held : s.cache k with
  | none => rfl
  | some entry =>
    by_cases old : entry.expiry ≤ now
    · have popped : (s.expiryQueue.filter fun top => top.1 ≤ now).any (fun top => top.2 == k) := by
        rw [any_eq_true]
        exact ⟨_, mem_filter.mpr ⟨queued k entry held, by simpa using old⟩, by simp⟩
      simp [Option.filter, popped]
    · simp [Option.filter, not_le.mp old]

theorem Queued.settle (queued : Queued s) (c : C) (o : Outcome A) (now : Int) :
    Queued (s.settle c o now) := by
  cases o with
  | error e => exact queued
  | ok addresses =>
    intro k entry held
    rcases eq_or_ne k (s.key c) with rfl | other
    · cases (update_self ..).symm.trans held
      exact mem_append_right _ mem_cons_self
    · have before := (update_of_ne other ..).symm.trans held
      exact mem_append_left _ (queued k entry before)

theorem Queued.step (queued : Queued s) (took : s.step strerror label = some t) : Queued t := by
  cases effect_of_step took with
  | lookup =>
    unfold State.lookup
    split
    · exact queued
    · split <;> exact queued
  | found =>
    unfold State.found
    split <;> exact queued
  | settle => exact queued.settle _ _ _
  | @expire c _ now =>
    intro k entry held
    obtain ⟨held, fresh⟩ := Option.filter_eq_some_iff.mp ((queued.expire now k).symm.trans held)
    exact mem_filter.mpr ⟨queued k entry held, fresh⟩
  | _ => exact queued

/-- A sweep at a time removes exactly the entries that are expired then, and an expired entry
answers no call. -/
theorem cache_expires (run : Reaches strerror ttl labels s) :
    (∀ k entry, s.cache k = some entry → (entry.expiry, k) ∈ s.expiryQueue) ∧
    (∀ c addresses now waiters t, s.task c = .expiring addresses now waiters →
      s.step strerror (.expire c) = some t →
      (∀ queue, queue.Perm s.expiryQueue → queue.Pairwise (fun top next => top.1 ≤ next.1) →
        (sweep now queue s.cache).1.Perm t.expiryQueue ∧ (sweep now queue s.cache).2 = t.cache) ∧
      ∀ k, t.cache k = (s.cache k).filter fun entry => now < entry.expiry) ∧
    ∀ c now t, s.caller c = .entered now → s.step strerror (.lookup c) = some t →
      ∀ o ∈ t.answers c, ∃ entry, s.cache (s.key c) = some entry ∧ o = .ok entry.addresses ∧
        now < entry.expiry := by
  have queued : Queued s := run.invariant (fun _ _ held => by cases held)
    fun queued _ stepped => queued.step stepped
  refine ⟨queued, ?_, ?_⟩
  · intro c addresses now waiters t expiring stepped
    rw [State.step, expiring] at stepped
    cases stepped
    exact ⟨expire_eq_sweep now, queued.expire now⟩
  intro c now t entered stepped o mem
  rw [State.step, entered] at stepped
  cases stepped
  have silent := (((Inv.reached run).1 c).early (by rw [entered]; rfl)).2.2
  unfold State.lookup at mem
  split at mem
  · rename_i held hit
    rcases mem_setPromise.mp mem with before | ⟨-, rfl⟩
    · rw [silent] at before
      cases before
    · obtain ⟨entry, cached, fresh, rfl⟩ := hit_eq_some_iff.mp hit
      exact ⟨entry, cached, rfl, fresh⟩
  · have mem : o ∈ s.answers c := by split at mem <;> exact mem
    rw [silent] at mem
    cases mem

theorem cache_expires_first : ∃ s, Reaches (fun _ => "") 300 mixing s ∧ (s.cache "h|x||0").isSome ∧
    ∀ k entry, s.cache k = some entry → (entry.expiry, k) ∈ s.expiryQueue := by
  obtain ⟨s, done, held⟩ : ∃ s, exec (State.step fun _ => "") { ttl := 300 } mixing =
      some s ∧ (s.cache "h|x||0").isSome := exec_any (by decide)
  exact ⟨s, Run.of_exec done, held, (cache_expires (Run.of_exec done)).1⟩

end Nitrocoro.Net.DnsResolver
