import Nitrocoro.Http.StaticFiles

/-! A response that is suspended in `resp.write` reads the node of the cache that it was called
with. A request keeps the nodes that others are sending exactly if it does not replace an entry
that is being sent and the cache has room for what it puts in. -/

namespace Nitrocoro.Http.StaticFiles
open Text Function Transition FileCache
open List hiding length
variable {R : Type} [DecidableEq R] {h : StaticFiles} {platform : Platform} {disk : Disk}
variable {t : Target} {req : HttpRequest} {c : FileCache} {s u : State R}

def hit (h : StaticFiles) (t : Target) (now : Int) (c : FileCache) : Bool :=
  match c.find t.cacheKey with
  | some (_, cached) => !(cached.expireAt < now) && h.fresh t cached
  | none => false

def filled (disk : Disk) (t : Target) (req : HttpRequest) : Option Bytes :=
  if req.method = .head then none
  else
    match disk.fopen t.actualPath with
    | none => none
    | some content =>
      if (content.take t.stat.size).length = t.stat.size then some (content.take t.stat.size)
      else none

structure Handles (c : FileCache) (result : Handled × FileCache) : Prop where
  evolves : c.Evolves result.2
  sends : ∀ calls addr node, result.1 = .sends calls addr node → (addr, node) ∈ result.2.lru

theorem fill_disabled (disabled : h.cacheEnabled t = false) (sound : c.Sound) :
    (h.fill platform disk t req now c).2 = c ∧ Handles c (h.fill platform disk t req now c) := by
  unfold fill
  simp only [disabled]
  split
  · exact ⟨rfl, .refl sound, nofun⟩
  · split <;> exact ⟨rfl, .refl sound, nofun⟩

theorem fill_none (enabled : h.cacheEnabled t = true) (sound : c.Sound)
    (none : filled disk t req = none) :
    (h.fill platform disk t req now c).2 = c ∧ Handles c (h.fill platform disk t req now c) := by
  unfold filled at none
  unfold fill
  by_cases head : req.method = .head
  · rw [if_pos head]
    exact ⟨rfl, .refl sound, nofun⟩
  rw [if_neg head] at none ⊢
  cases opened : disk.fopen t.actualPath with
  | none => exact ⟨rfl, .refl sound, nofun⟩
  | some content =>
    rw [opened] at none
    have short : (content.take t.stat.size).length ≠ t.stat.size := fun whole => by
      cases (if_pos whole).symm.trans none
    dsimp only
    rw [if_pos enabled, if_pos short]
    exact ⟨rfl, .refl sound, nofun⟩

theorem fill_some (enabled : h.cacheEnabled t = true) (sound : c.Sound)
    (put : filled disk t req = some data) : (h.fill platform disk t req now c).2 =
        (c.put (h.cacheNode platform disk t now data) h.opts.cacheMaxCacheSize).2 ∧
      Handles c (h.fill platform disk t req now c) := by
  unfold filled at put
  unfold fill
  by_cases head : req.method = .head
  · cases (if_pos head).symm.trans put
  rw [if_neg head] at put ⊢
  cases opened : disk.fopen t.actualPath with
  | none =>
    rw [opened] at put
    cases put
  | some content =>
    rw [opened] at put
    by_cases short : (content.take t.stat.size).length ≠ t.stat.size
    · cases (if_neg short).symm.trans put
    cases (if_pos (not_not.mp short)).symm.trans put
    dsimp only
    rw [if_pos enabled, if_neg short]
    refine ⟨rfl, .put sound _ _, ?_⟩
    rintro calls addr node ⟨⟩
    obtain ⟨-, -, -⟩ := sound.put
      (h.cacheNode platform disk t now (content.take t.stat.size)) h.opts.cacheMaxCacheSize
    exact mem_cons_self

theorem fill_handles (sound : c.Sound) : Handles c (h.fill platform disk t req now c) := by
  cases enabled : h.cacheEnabled t with
  | false => exact (fill_disabled enabled sound).2
  | true =>
    cases put : filled disk t req with
    | none => exact (fill_none enabled sound put).2
    | some data => exact (fill_some enabled sound put).2

theorem serve_miss (platform : Platform) (disk : Disk) (req : HttpRequest)
    (enabled : h.cacheEnabled t = true) (sound : c.Sound) (miss : h.hit t now c = false) :
    ∃ d, c.Evolves d ∧ d.lru = c.without t.cacheKey ∧
      h.serve platform disk t req now c = h.fill platform disk t req now d := by
  unfold serve
  rw [if_pos enabled]
  cases found : c.find t.cacheKey with
  | none =>
    refine ⟨c, .refl sound, (sound.without_of_none found).symm, ?_⟩
    simp only [FileCache.get, found]
  | some entry =>
    obtain ⟨addr, node⟩ := entry
    rw [sound.get_of_find found]
    by_cases expired : node.expireAt < now
    · refine ⟨_, .invalidate sound _, (sound.invalidate _).2.1, ?_⟩
      rw [if_pos expired]
    have stale : h.fresh t node = false := by simpa [hit, found, not_lt.mp expired] using miss
    obtain ⟨mem, key⟩ := sound.find_iff.mp found
    have spliced := key ▸ Evolves.splice sound mem
    have cleared := spliced.sound.invalidate t.cacheKey
    refine ⟨_, spliced.trans (.invalidate spliced.sound t.cacheKey), ?_, ?_⟩
    · rw [cleared.2.1]
      simp [without, key]
    · simp only [if_neg expired, stale]
      rfl

theorem serve_hit (platform : Platform) (disk : Disk) (req : HttpRequest)
    (enabled : h.cacheEnabled t = true) (sound : c.Sound) (answered : h.hit t now c = true) :
    c.lru.Perm (h.serve platform disk t req now c).2.lru ∧
      Handles c (h.serve platform disk t req now c) := by
  unfold hit at answered
  split at answered
  case h_2 => cases answered
  rename_i addr node found
  obtain ⟨current, fresh⟩ := Bool.and_eq_true_iff.mp answered
  obtain ⟨mem, key⟩ := sound.find_iff.mp found
  have perm := key ▸ sound.perm_without mem
  have spliced := key ▸ Evolves.splice sound mem
  unfold serve
  rw [if_pos enabled, sound.get_of_find found, if_neg (by simpa using current)]
  simp only [fresh]
  by_cases head : req.method = .head
  · rw [if_pos head]
    exact ⟨perm, spliced, fun _ _ _ sends => by cases sends⟩
  · rw [if_neg head]
    refine ⟨perm, spliced, ?_⟩
    rintro calls addr node ⟨⟩
    exact mem_cons_self

theorem serve_handles (sound : c.Sound) : Handles c (h.serve platform disk t req now c) := by
  cases enabled : h.cacheEnabled t with
  | false =>
    unfold serve
    rw [enabled]
    exact fill_handles sound
  | true =>
    cases answered : h.hit t now c with
    | true => exact (serve_hit platform disk req enabled sound answered).2
    | false =>
      obtain ⟨d, evolves, -, same⟩ := serve_miss platform disk req enabled sound answered
      rw [same]
      exact ⟨evolves.trans (fill_handles evolves.sound).evolves, (fill_handles evolves.sound).sends⟩

def Keeps (h : StaticFiles) (disk : Disk) (t : Target) (req : HttpRequest) (now : Int)
    (c : FileCache) (addr : Nat) (node : CacheNode) : Prop :=
  h.cacheEnabled t = true → h.hit t now c = false → node.key ≠ t.cacheKey ∧
    ∀ data, filled disk t req = some data →
      data.length + c.ahead t.cacheKey addr + node.data.length ≤ h.opts.cacheMaxCacheSize

/-- A node stays exactly if the request is answered from the cache, or has another key and leaves
room for it. -/
theorem serve_keeps_iff (sound : c.Sound) (mem : (addr, node) ∈ c.lru) :
    (∃ kept, (addr, kept) ∈ (h.serve platform disk t req now c).2.lru) ↔
      Keeps h disk t req now c addr node := by
  unfold Keeps
  cases enabled : h.cacheEnabled t with
  | false =>
    have same : (h.serve platform disk t req now c).2 = c := by
      unfold serve
      rw [enabled]
      exact (fill_disabled enabled sound).1
    rw [same]
    exact iff_of_true ⟨node, mem⟩ nofun
  | true =>
    cases answered : h.hit t now c with
    | true =>
      have perm := (serve_hit platform disk req enabled sound answered).1
      exact iff_of_true ⟨node, perm.mem_iff.mp mem⟩ nofun
    | false =>
      obtain ⟨d, evolves, others, same⟩ := serve_miss platform disk req enabled sound answered
      rw [same, imp_iff_right rfl, imp_iff_right rfl]
      have listed : (∃ kept, (addr, kept) ∈ d.lru) ↔ node.key ≠ t.cacheKey := by
        rw [others]
        exact sound.mem_without_iff mem
      cases put : filled disk t req with
      | none =>
        rw [(fill_none enabled evolves.sound put).1, listed]
        exact (and_iff_left nofun).symm
      | some data =>
        rw [(fill_some enabled evolves.sound put).1]
        by_cases here : node.key = t.cacheKey
        · refine iff_of_false ?_ fun both => both.1 here
          rintro ⟨kept, mem'⟩
          have old := (sound.allocated _ mem).trans_le evolves.allocated
          exact listed.mp ⟨kept, (Evolves.put evolves.sound _ _).node_eq old mem'⟩ here
        have listed' : (addr, node) ∈ d.lru := by
          rw [others]
          exact mem_filter.mpr ⟨mem, decide_eq_true here⟩
        have ahead : d.ahead t.cacheKey addr = c.ahead t.cacheKey addr := by
          simp only [ahead, without, others, filter_filter, Bool.and_self]
        rw [evolves.sound.mem_put_iff listed', ← ahead]
        simp only [Option.some.injEq, forall_eq', cacheNode]

theorem handle_handles (sound : c.Sound) (params : PathParams) :
    Handles c (h.handle platform disk req params now c) := by
  unfold handle
  split
  · exact ⟨.refl sound, nofun⟩
  · exact serve_handles sound

def State.Sends (s : State R) (r : R) (addr : Nat) : Prop :=
  ∃ length sent, s.phase r = .sending addr length sent

def State.Held (s : State R) : Prop :=
  ∀ r addr, s.Sends r addr → ∃ node, (addr, node) ∈ s.cache.lru

/-- A request that is not answered from the cache finds no response that is still sending the entry
of its key, and leaves room for the nodes that are being sent. -/
def Spares (h : StaticFiles) (platform : Platform) (s : State R) : Action R → Prop
  | .request _ req params disk =>
    match h.target platform disk req params with
    | .error _ => True
    | .ok t => ∀ r addr node, s.Sends r addr → (addr, node) ∈ s.cache.lru →
        Keeps h disk t req s.now s.cache addr node
  | _ => True

/-- The steps of the coroutine of one request behind its first suspension: the phase, the data and
the body that it has then. -/
inductive Moves (s : State R) (r : R) : Phase → Bytes → Bytes → Prop where
  | send (phase : s.phase r = .sending addr length sent) (within : sent + n ≤ length) :
      Moves s r (.sending addr length (sent + n)) (s.data r)
        (s.body r ++ s.memory addr sent n junk)
  | sent (phase : s.phase r = .sending addr length length) :
      Moves s r .ending (s.data r) (s.body r)
  | read (phase : s.phase r = .reading remaining) :
      Moves s r (.writing chunk 0 (remaining - chunk.length)) (s.data r ++ chunk) (s.body r)
  | done (phase : s.phase r = .reading remaining) : Moves s r .ending (s.data r) (s.body r)
  | write (phase : s.phase r = .writing buf sent remaining) :
      Moves s r (.writing buf (sent + n) remaining) (s.data r)
        (s.body r ++ (buf.drop sent).take n)
  | written (phase : s.phase r = .writing buf buf.length remaining) :
      Moves s r (.reading remaining) (s.data r) (s.body r)
  | finish (phase : s.phase r = .ending) : Moves s r .returned (s.data r) (s.body r)
  | fail (phase : s.phase r ≠ .idle) : Moves s r .failed (s.data r) (s.body r)

def State.move (s : State R) (r : R) (phase : Phase) (data body : Bytes) : State R :=
  { s with
    phase := update s.phase r phase
    data := update s.data r data
    body := update s.body r body }

theorem setPhase_eq_move (s : State R) (r : R) (phase : Phase) :
    s.setPhase r phase = s.move r phase (s.data r) (s.body r) := by
  simp only [State.setPhase, State.move, update_eq_self]

theorem emit_eq_move (s : State R) (r : R) (phase : Phase) (bytes : Bytes) :
    (s.emit r bytes).setPhase r phase = s.move r phase (s.data r) (s.body r ++ bytes) := by
  simp only [State.emit, State.setPhase, State.move, update_eq_self]

theorem read_eq_move (s : State R) (r : R) (phase : Phase) (bytes : Bytes) :
    { s with data := update s.data r (s.data r ++ bytes) }.setPhase r phase =
      s.move r phase (s.data r ++ bytes) (s.body r) := by
  simp only [State.setPhase, State.move, update_eq_self]

/-- What a step can do: a request comes to its first suspension, the coroutine of one request goes
on, or time passes. -/
theorem step_cases (took : s.step h platform label = some u) :
    (∃ r req params disk, label = .request r req params disk ∧ s.phase r = .idle ∧
      u = { s with
        cache := (h.handle platform disk req params s.now s.cache).2
        now := s.now + disk.elapsed }.begin r
          (h.handle platform disk req params s.now s.cache).1) ∨
    (∀ r req params disk, label ≠ .request r req params disk) ∧
      ((∃ r phase data body, Moves s r phase data body ∧ u = s.move r phase data body) ∨
        ∃ later : Nat, u = { s with now := s.now + later }) := by
  cases label with
  | request r req params disk =>
    obtain ⟨idle, rfl⟩ := of_ite took
    exact .inl ⟨r, req, params, disk, rfl, idle, rfl⟩
  | send r n junk =>
    refine .inr ⟨nofun, .inl ?_⟩
    simp only [State.step] at took
    split at took
    case h_3 => cases took
    · rename_i phase
      obtain ⟨guard, rfl⟩ := of_ite took
      exact ⟨r, _, _, _, .send phase guard.2.1, emit_eq_move ..⟩
    · rename_i phase
      split at took <;> cases took
      exact ⟨r, _, _, _, .write phase, emit_eq_move ..⟩
  | written r =>
    refine .inr ⟨nofun, .inl ?_⟩
    simp only [State.step] at took
    split at took
    case h_3 => cases took
    · rename_i phase
      obtain ⟨through, rfl⟩ := of_ite took
      subst through
      exact ⟨r, _, _, _, .sent phase, setPhase_eq_move ..⟩
    · rename_i phase
      obtain ⟨through, rfl⟩ := of_ite took
      subst through
      exact ⟨r, _, _, _, .written phase, setPhase_eq_move ..⟩
  | read r chunk =>
    refine .inr ⟨nofun, .inl ?_⟩
    simp only [State.step] at took
    split at took
    case h_2 => cases took
    rename_i phase
    split at took
    · cases took
      exact ⟨r, _, _, _, .done phase, setPhase_eq_move ..⟩
    · split at took <;> cases took
      exact ⟨r, _, _, _, .read phase, read_eq_move ..⟩
  | finish r =>
    refine .inr ⟨nofun, .inl ?_⟩
    obtain ⟨phase, rfl⟩ := of_ite took
    exact ⟨r, _, _, _, .finish phase, setPhase_eq_move ..⟩
  | fail r =>
    refine .inr ⟨nofun, .inl ?_⟩
    simp only [State.step] at took
    have begun : s.phase r ≠ .idle := fun idle => by
      rw [idle] at took
      cases took
    split at took <;> cases took <;>
      exact ⟨r, _, _, _, .fail begun, setPhase_eq_move ..⟩
  | tick later =>
    cases took
    exact .inr ⟨nofun, .inr ⟨later, rfl⟩⟩

omit [DecidableEq R] in
theorem Moves.sending {addr length sent : Nat} (moves : Moves s r (.sending addr length sent) data body) :
    (∃ sent', s.phase r = .sending addr length sent') ∧ data = s.data r := by
  cases moves with
  | send phase => exact ⟨⟨_, phase⟩, rfl⟩

/-- The node of a response that is sending has the data that was looked up or read, if it is there
at all. -/
structure Inv (s : State R) : Prop where
  sound : s.cache.Sound
  sending : ∀ r addr length sent, s.phase r = .sending addr length sent →
    addr < s.cache.allocated ∧ length = (s.data r).length ∧
      ∀ node, (addr, node) ∈ s.cache.lru → node.data = s.data r

section Begin
variable (s : State R) (r : R) (handled : Handled)

theorem cache_begin : (s.begin r handled).cache = s.cache := by
  rcases handled with (_ | _) | _ | _ <;> rfl

theorem begin_of_ne (other : r' ≠ r) :
    (s.begin r handled).phase r' = s.phase r' ∧ (s.begin r handled).data r' = s.data r' ∧
      (s.begin r handled).body r' = s.body r' := by
  rcases handled with (_ | _) | _ | _ <;> simp [State.begin, State.setPhase, other]

theorem begin_sending (sending : (s.begin r handled).phase r = .sending addr length sent) :
    ∃ calls node, handled = .sends calls addr node ∧ length = node.data.length ∧
      (s.begin r handled).data r = node.data := by
  rcases handled with (_ | _) | ⟨calls, addr', node⟩ | _ <;>
    simp only [State.begin, State.setPhase, update_self] at sending <;> cases sending
  exact ⟨calls, node, rfl, rfl, update_self ..⟩

end Begin

namespace Inv

omit [DecidableEq R] in
theorem start : Inv ({} : State R) := ⟨sound_empty, nofun⟩

/-- A request finds its node in the cache that it leaves, and the nodes at the old addresses are
the old ones. -/
theorem begin {d : FileCache} {now : Int} {handled : Handled} (inv : Inv s)
    (handles : Handles s.cache (handled, d)) (r : R) :
    Inv ({ s with cache := d, now := now }.begin r handled) := by
  have evolves := handles.evolves
  refine ⟨by rw [cache_begin]; exact evolves.sound, fun r' addr length sent sending => ?_⟩
  rw [cache_begin]
  rcases eq_or_ne r' r with rfl | other
  · obtain ⟨calls, node, rfl, rfl, data⟩ := begin_sending _ _ _ sending
    have mem := handles.sends calls addr node rfl
    rw [data]
    refine ⟨evolves.sound.allocated _ mem, rfl, fun node' mem' => ?_⟩
    cases evolves.sound.same_of_address mem' mem rfl
    rfl
  obtain ⟨phase, data, -⟩ := begin_of_ne { s with cache := d, now := now } r handled other
  rw [phase] at sending
  obtain ⟨old, length, same⟩ := inv.sending r' addr length sent sending
  rw [data]
  exact ⟨old.trans_le evolves.allocated, length,
    fun node mem => same node (evolves.node_eq old mem)⟩

theorem step (inv : Inv s) (took : s.step h platform label = some u) : Inv u := by
  rcases step_cases took with ⟨r, -, params, -, -, -, rfl⟩ |
    ⟨-, ⟨r, phase, data, body, moves, rfl⟩ | ⟨later, rfl⟩⟩
  · exact inv.begin (handle_handles inv.sound params) r
  · refine ⟨inv.sound, fun r' addr length sent sending => ?_⟩
    rcases eq_or_ne r' r with rfl | other
    · simp only [State.move, update_self] at sending ⊢
      subst sending
      obtain ⟨⟨sent', before⟩, rfl⟩ := moves.sending
      exact inv.sending _ _ _ _ before
    · simp only [State.move, update_of_ne other] at sending ⊢
      exact inv.sending r' addr length sent sending
  · exact { inv with }

end Inv

omit [DecidableEq R] in
theorem spares_request_iff (inv : Inv s) (held : s.Held) (r : R) (params : PathParams) :
    Spares h platform s (.request r req params disk) ↔ ∀ r' addr, s.Sends r' addr →
      ∃ node, (addr, node) ∈ (h.handle platform disk req params s.now s.cache).2.lru := by
  simp only [Spares, handle]
  cases h.target platform disk req params with
  | error answer => exact iff_of_true trivial held
  | ok t =>
    constructor
    · intro spares r' addr sends
      obtain ⟨node, mem⟩ := held r' addr sends
      exact (serve_keeps_iff inv.sound mem).mpr (spares r' addr node sends mem)
    · intro kept r' addr node sends mem
      exact (serve_keeps_iff inv.sound mem).mp (kept r' addr sends)

theorem held_begin_iff {d : FileCache} {now : Int} {handled : Handled}
    (handles : Handles s.cache (handled, d)) (idle : s.phase r = .idle) :
    ({ s with cache := d, now := now }.begin r handled).Held ↔
      ∀ r' addr, s.Sends r' addr → ∃ node, (addr, node) ∈ d.lru := by
  unfold State.Held
  rw [cache_begin]
  constructor
  · rintro held r' addr ⟨length, sent, sending⟩
    have other : r' ≠ r := by
      rintro rfl
      cases idle.symm.trans sending
    refine held r' addr ⟨length, sent, ?_⟩
    rw [(begin_of_ne _ r handled other).1]
    exact sending
  · rintro kept r' addr ⟨length, sent, sending⟩
    rcases eq_or_ne r' r with rfl | other
    · obtain ⟨calls, node, same, -⟩ := begin_sending _ _ _ sending
      exact ⟨node, handles.sends calls addr node same⟩
    · rw [(begin_of_ne _ r handled other).1] at sending
      exact kept r' addr ⟨length, sent, sending⟩

theorem Moves.held (moves : Moves s r phase data body) (held : s.Held) :
    (s.move r phase data body).Held := by
  rintro r' addr ⟨length, sent, sending⟩
  rcases eq_or_ne r' r with rfl | other
  · simp only [State.move, update_self] at sending
    subst sending
    obtain ⟨⟨sent', before⟩, -⟩ := moves.sending
    exact held r' addr ⟨length, sent', before⟩
  · simp only [State.move, update_of_ne other] at sending
    exact held r' addr ⟨length, sent, sending⟩

omit [DecidableEq R] in
theorem spares_of_quiet (quiet : ∀ r req params disk, label ≠ .request r req params disk) :
    Spares h platform s label := by
  cases label with
  | request r req params disk => exact absurd rfl (quiet r req params disk)
  | _ => trivial

theorem held_step_iff (inv : Inv s) (held : s.Held)
    (took : s.step h platform label = some u) : u.Held ↔ Spares h platform s label := by
  rcases step_cases took with ⟨r, -, params, -, rfl, idle, rfl⟩ |
    ⟨quiet, ⟨r, phase, data, body, moves, rfl⟩ | ⟨later, rfl⟩⟩
  · exact (held_begin_iff (handle_handles inv.sound params) idle).trans
      (spares_request_iff inv held r params).symm
  · exact iff_of_true (moves.held held) (spares_of_quiet quiet)
  · exact iff_of_true held (spares_of_quiet quiet)

def Progress (data body : Bytes) : Phase → Prop
  | .idle => data = [] ∧ body = []
  | .sending _ _ sent => body = data.take sent
  | .reading _ | .ending | .returned => body = data
  | .writing buf sent _ => ∃ before, data = before ++ buf ∧ body = before ++ buf.take sent
  | .failed => body <+: data

theorem Progress.isPrefix {data body : Bytes} (progress : Progress data body phase) :
    body <+: data := by
  cases phase with
  | idle => rw [progress.2]; exact nil_prefix
  | sending _ _ sent =>
    rw [show body = data.take sent from progress]
    exact take_prefix ..
  | writing buf sent _ =>
    obtain ⟨-, rfl, rfl⟩ := progress
    refine (prefix_append_right_inj _).mpr ?_
    exact take_prefix ..
  | failed => exact progress
  | _ =>
    rw [show body = data from progress]

omit [DecidableEq R] in
/-- As long as the nodes are there, the bytes that go out are those that were looked up. -/
theorem Moves.progress (inv : Inv s) (held : s.Held) (moves : Moves s r phase data body)
    (progress : Progress (s.data r) (s.body r) (s.phase r)) : Progress data body phase := by
  cases moves with
  | @send addr length sent n junk before within =>
    obtain ⟨node, mem⟩ := held r addr ⟨length, sent, before⟩
    have same := (inv.sending r addr length sent before).2.2 node mem
    rw [before] at progress
    have sofar : s.body r = (s.data r).take sent := progress
    simp only [State.memory, inv.sound.lookup_iff.mpr mem, same, sofar]
    exact (take_add ..).symm
  | @sent addr length before =>
    have whole := (inv.sending r addr length length before).2.1
    rw [before] at progress
    have sofar : s.body r = (s.data r).take length := progress
    simp only [Progress, sofar, whole, take_length]
  | read before =>
    rw [before] at progress
    have sofar : s.body r = s.data r := progress
    exact ⟨s.data r, rfl, by simp [sofar]⟩
  | done before | finish before =>
    rw [before] at progress
    exact progress
  | @write buf sent remaining n before =>
    rw [before] at progress
    obtain ⟨front, data, body⟩ := progress
    exact ⟨front, data, by rw [body, append_assoc, take_add]⟩
  | written before =>
    rw [before] at progress
    obtain ⟨front, data, body⟩ := progress
    simp only [Progress, data, body, take_length]
  | fail => exact progress.isPrefix

def State.Intact (s : State R) : Prop := ∀ r, Progress (s.data r) (s.body r) (s.phase r)

theorem State.Intact.begin (intact : s.Intact) (idle : s.phase r = .idle) (handled : Handled) :
    (s.begin r handled).Intact := by
  intro r'
  rcases eq_or_ne r' r with rfl | other
  · have fresh := intact r'
    rw [idle] at fresh
    obtain ⟨data, body⟩ := fresh
    rcases handled with (_ | _) | _ | _ <;>
      simp [State.begin, State.setPhase, Progress, data, body]
  · obtain ⟨phase, data, body⟩ := begin_of_ne s r handled other
    rw [phase, data, body]
    exact intact r'

theorem intact_step (inv : Inv s) (held : s.Held) (intact : s.Intact)
    (took : s.step h platform label = some u) : u.Intact := by
  rcases step_cases took with ⟨r, req, params, disk, -, idle, rfl⟩ |
    ⟨-, ⟨r, phase, data, body, moves, rfl⟩ | ⟨later, rfl⟩⟩
  · have served : { s with
        cache := (h.handle platform disk req params s.now s.cache).2
        now := s.now + disk.elapsed }.Intact := intact
    exact served.begin idle _
  · intro r'
    rcases eq_or_ne r' r with rfl | other
    · simp only [State.move, update_self]
      exact moves.progress inv held (intact r')
    · simp only [State.move, update_of_ne other]
      exact intact r'
  · exact intact

omit [DecidableEq R] in
theorem held_start : ({} : State R).Held := nofun

/-- The nodes that suspended responses are sending are in the cache all along exactly if every
request spares them, and then each response has the data that was looked up or read as its body. -/
theorem nodes_held_iff (run : Reaches h platform labels s) : ((∀ before u, before <+: labels →
        exec (State.step h platform) {} before = some u → u.Held) ↔
      Run (State.step h platform) (Spares h platform) {} labels s) ∧
    (Run (State.step h platform) (Spares h platform) {} labels s →
      ∀ r, s.body r <+: s.data r ∧ (s.phase r = .returned → s.body r = s.data r)) := by
  refine ⟨run.always_iff .start held_start (fun inv stepped => inv.step stepped)
    (fun inv held stepped => held_step_iff inv held stepped), fun spared => ?_⟩
  obtain ⟨-, -, intact⟩ : Inv s ∧ s.Held ∧ s.Intact := by
    refine spared.invariant (P := fun s => Inv s ∧ s.Held ∧ s.Intact)
      ⟨.start, held_start, fun r => ⟨rfl, rfl⟩⟩ ?_
    rintro s u label ⟨inv, held, intact⟩ spares stepped
    exact ⟨inv.step stepped, (held_step_iff inv held stepped).mpr spares,
      intact_step inv held intact stepped⟩
  refine fun r => ⟨(intact r).isPrefix, fun returned => ?_⟩
  have progress := intact r
  rw [returned] at progress
  exact progress

/-- A handler with room for one byte, and files of one byte that have their own names as contents. -/
def oneByte : StaticFiles :=
  staticFiles [] { enableEtag := false, cacheTtl := 60, cacheMaxCacheSize := 1 }

def plainPaths : Platform where
  append _ path := path
  filename path := path
  extension _ := []
  lexicallyRelative path _ := [path]
  date _ := []

def plainDisk : Disk where
  weaklyCanonical := some
  isDirectory _ := some false
  stat _ _ := some ⟨0, 1, true⟩
  fopen := some

def getFile (r : R) (path : Bytes) : Action R :=
  .request r { method := .get } [([], path)] plainDisk

/-- Two responses send the same node by turns. -/
def sharedNode : List (Action Bool) :=
  [getFile false [97], getFile true [97], .send true 1 [0], .send false 1 [0], .written false,
    .finish false]

def State.sendsHeld (s : State R) (r : R) : Bool :=
  match s.phase r with
  | .sending addr _ _ => (s.cache.lru.map Prod.fst).contains addr
  | _ => true

theorem nodes_held_iff_two : ∃ s : State Bool, Reaches oneByte plainPaths sharedNode s ∧
    s.phase false = .returned ∧ s.phase true = .sending 0 1 1 ∧ s.body false = s.data false ∧
    s.body true <+: s.data true := by
  obtain ⟨s, done, returned, sending⟩ : ∃ s : State Bool,
      exec (State.step oneByte plainPaths) {} sharedNode = some s ∧
        s.phase false = .returned ∧ s.phase true = .sending 0 1 1 := exec_any (by decide)
  have checked : ∀ before ∈ sharedNode.inits,
      (exec (State.step oneByte plainPaths) {} before).all fun u => ∀ r, u.sendsHeld r := by decide
  have held : ∀ before u, before <+: sharedNode →
      exec (State.step oneByte plainPaths) {} before = some u → u.Held := by
    rintro before u front reached r addr ⟨length, sent, here⟩
    have known := checked before ((mem_inits _ _).mpr front)
    rw [reached] at known
    have known := of_decide_eq_true known r
    simpa [State.sendsHeld, here] using known
  obtain ⟨iff, intact⟩ := nodes_held_iff (.of_exec done)
  have run := iff.mp held
  exact ⟨s, .of_exec done, returned, sending, (intact run false).2 returned, (intact run true).1⟩

/-- The second request needs the place of the node that the first response is still sending, and
the first client gets what is in memory then. -/
theorem evicted_while_sending : ∃ s : State Bool, exec (State.step oneByte plainPaths) {}
      [getFile false [97], getFile true [98], .send false 1 [0], .written false, .finish false] =
        some s ∧
    s.phase false = .returned ∧ s.data false = [97] ∧ s.body false = [0] :=
  exec_any (by decide)

/-- Whatever is asked of a cache, `index_` has exactly the nodes of `lru_`, no key is there twice
and `currentSize_` is the sum of the sizes, so that no subtraction goes below zero. The list is in
the order of use; `put` drops the end of it, and no longer end than it has to. The sum is within
the limit if each node is, and the nodes that `staticFiles` puts in are. -/
theorem cache_lru (maxCacheSize : Nat) (ops : List Op) :
    let c := ops.foldl (apply maxCacheSize) {}
    c.Sound ∧ (∀ entry ∈ c.lru, nodeSize entry ≤ c.currentSize) ∧
    (∀ now key, (c.get now key).2.lru = (c.get now key).1.toList ++ c.without key) ∧
    (∀ key, (c.invalidate key).lru = c.without key) ∧
    (∀ node, ∃ kept, (c.put node maxCacheSize).2.lru = (c.allocated, node) :: kept ∧
      kept <+: c.without node.key ∧ ∀ more, more <+: c.without node.key →
        node.data.length + Budget.total nodeSize more ≤ maxCacheSize → more <+: kept) ∧
    ((∀ node, .put node ∈ ops → node.data.length ≤ maxCacheSize) →
      c.currentSize ≤ maxCacheSize) ∧
    ∀ (h : StaticFiles) platform disk t now (content : Bytes), h.cacheEnabled t →
      (h.cacheNode platform disk t now (content.take t.stat.size)).data.length ≤
        h.opts.cacheMaxCacheSize := by
  intro c
  have sound : c.Sound := sound_foldl ops
  refine ⟨sound, fun entry mem => ?_, sound.get_lru, fun key => (sound.invalidate key).2.1,
    fun node => ⟨_, (sound.put node _).2.2, Budget.fit_isPrefix _ _, fun more front within =>
      Budget.isPrefix_fit front within⟩, foldl_le ops, ?_⟩
  · rw [sound.size]
    obtain ⟨front, back, split⟩ := append_of_mem mem
    simp only [split, Budget.total, map_append, sum_append, map_cons, sum_cons]
    omega
  · intro h platform disk t now content enabled
    have small := of_decide_eq_true (Bool.and_eq_true_iff.mp enabled).2
    exact (length_take_le ..).trans (small.trans h.clamped)

end Nitrocoro.Http.StaticFiles
