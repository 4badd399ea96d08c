import Mathlib.Algebra.BigOperators.Group.List.Basic
import Mathlib.Data.List.Nodup
import Nitrocoro.Lib.Budget
import Nitrocoro.Lib.Loop
import Nitrocoro.Lib.OrderedMap
import Nitrocoro.Lib.Text

/-! `FileCache`, the LRU cache of file contents that each scheduler has. The data of all nodes is in
memory, so the sums of sizes are natural numbers. -/
namespace Nitrocoro.Http
open Text List OrderedMap Budget

structure CacheNode where
  key : Bytes
  data : Bytes
  etag : Bytes
  lastModified : Bytes
  mimeType : Bytes
  contentEncoding : Bytes
  expireAt : Int
  deriving DecidableEq

/-- A node of the list has the number of its allocation as its address, so that no address is used
twice; the iterators of `index_` are such addresses. -/
structure FileCache where
  lru : List (Nat × CacheNode) := []
  index : List (Bytes × Nat) := []
  currentSize : Nat := 0
  allocated : Nat := 0

namespace FileCache

/-- `index_.find(key)` and the node that its iterator points to. -/
def find (c : FileCache) (key : Bytes) : Option (Nat × CacheNode) :=
  match c.index.lookup key with
  | none => none
  | some addr => (c.lru.lookup addr).map (Prod.mk addr)

def evict (c : FileCache) (key : Bytes) (addr : Nat) (node : CacheNode) : FileCache :=
  { c with
    currentSize := c.currentSize - node.data.length
    lru := erase addr c.lru
    index := erase key c.index }

def get (c : FileCache) (now : Int) (key : Bytes) : Option (Nat × CacheNode) × FileCache :=
  match c.find key with
  | none => (none, c)
  | some (addr, node) =>
    if node.expireAt < now then (none, c.evict key addr node)
    else (some (addr, node), { c with lru := (addr, node) :: erase addr c.lru })

def invalidate (c : FileCache) (key : Bytes) : FileCache :=
  match c.find key with
  | none => c
  | some (addr, node) => c.evict key addr node

def popBack (c : FileCache) : FileCache :=
  match c.lru.getLast? with
  | none => c
  | some (_, node) =>
    { c with
      currentSize := c.currentSize - node.data.length
      index := erase node.key c.index
      lru := c.lru.dropLast }

def shrinkRound (incoming maxCacheSize : Nat) (c : FileCache) : FileCache ⊕ FileCache :=
  if c.lru ≠ [] ∧ maxCacheSize < c.currentSize + incoming then .inl c.popBack else .inr c

theorem shrinkRound_decreases (incoming maxCacheSize : Nat) :
    Loop.Decreases (shrinkRound incoming maxCacheSize) fun c => c.lru.length := by
  intro c d round
  unfold shrinkRound at round
  split at round <;> cases round
  rename_i guard
  unfold popBack
  split
  · rename_i empty
    exact absurd (List.getLast?_eq_none_iff.mp empty) guard.1
  · have some := length_pos_iff.mpr guard.1
    simp only [length_dropLast]
    omega

def shrink (incoming maxCacheSize : Nat) (c : FileCache) : FileCache :=
  Loop.run (shrinkRound_decreases incoming maxCacheSize) c

def pushFront (c : FileCache) (node : CacheNode) : FileCache :=
  { lru := (c.allocated, node) :: c.lru
    index := emplace node.key c.allocated c.index
    currentSize := c.currentSize + node.data.length
    allocated := c.allocated + 1 }

/-- The cache, and the address of the node in front. -/
def put (c : FileCache) (node : CacheNode) (maxCacheSize : Nat) : Nat × FileCache :=
  -- an entry of the same key goes first
  let c := (c.invalidate node.key).shrink node.data.length maxCacheSize
  (c.allocated, c.pushFront node)

end FileCache

def nodeSize (entry : Nat × CacheNode) : Nat := entry.2.data.length

namespace FileCache

/-- `index_` has the nodes of `lru_` under their keys, and `currentSize_` is the sum of their
sizes. -/
structure Sound (c : FileCache) : Prop where
  addresses : (c.lru.map Prod.fst).Nodup
  keys : (c.lru.map (·.2.key)).Nodup
  allocated : ∀ entry ∈ c.lru, entry.1 < c.allocated
  index : ∀ key addr, c.index.lookup key = some addr ↔
    ∃ node, (addr, node) ∈ c.lru ∧ node.key = key
  size : c.currentSize = total nodeSize c.lru

variable {c : FileCache} {addr : Nat} {node : CacheNode} {key : Bytes}

theorem sound_empty : Sound {} := by
  refine ⟨nodup_nil, nodup_nil, nofun, fun key addr => ?_, rfl⟩
  exact iff_of_false nofun fun ⟨_, mem, _⟩ => by cases mem

def without (c : FileCache) (key : Bytes) : List (Nat × CacheNode) :=
  c.lru.filter fun entry => entry.2.key ≠ key

namespace Sound

theorem same_of_address (sound : Sound c) (mem : e ∈ c.lru) (mem' : e' ∈ c.lru)
    (same : e.1 = e'.1) : e = e' :=
  inj_on_of_nodup_map sound.addresses mem mem' same

theorem same_of_key (sound : Sound c) (mem : e ∈ c.lru) (mem' : e' ∈ c.lru)
    (same : e.2.key = e'.2.key) : e = e' :=
  inj_on_of_nodup_map sound.keys mem mem' same

theorem lookup_iff (sound : Sound c) : c.lru.lookup addr = some node ↔ (addr, node) ∈ c.lru := by
  refine ⟨mem_of_lookup, fun mem => ?_⟩
  cases found : c.lru.lookup addr with
  | none =>
    have absent := lookup_eq_none_iff.mp found _ mem
    simp at absent
  | some other =>
    cases sound.same_of_address (mem_of_lookup found) mem rfl
    rfl

theorem find_iff (sound : Sound c) :
    c.find key = some (addr, node) ↔ (addr, node) ∈ c.lru ∧ node.key = key := by
  unfold find
  constructor
  · intro found
    split at found
    · cases found
    rename_i addr' indexed
    obtain ⟨node', mem, rfl⟩ := (sound.index _ _).mp indexed
    rw [sound.lookup_iff.mpr mem] at found
    cases found
    exact ⟨mem, rfl⟩
  · rintro ⟨mem, rfl⟩
    rw [(sound.index _ _).mpr ⟨node, mem, rfl⟩]
    simp only [sound.lookup_iff.mpr mem, Option.map_some]

theorem find_none_iff (sound : Sound c) :
    c.find key = none ↔ ∀ entry ∈ c.lru, entry.2.key ≠ key := by
  rw [Option.eq_none_iff_forall_ne_some]
  constructor
  · intro none entry mem here
    exact none entry (sound.find_iff.mpr ⟨mem, here⟩)
  · rintro absent ⟨addr, node⟩ found
    obtain ⟨mem, here⟩ := sound.find_iff.mp found
    exact absent _ mem here

theorem erase_eq (sound : Sound c) (mem : (addr, node) ∈ c.lru) :
    erase addr c.lru = c.without node.key := by
  refine filter_congr fun entry mem' => ?_
  have same : addr = entry.1 ↔ entry.2.key = node.key := by
    constructor
    · intro here
      rw [← sound.same_of_address mem mem' here]
    · intro here
      rw [sound.same_of_key mem' mem here]
  by_cases here : addr = entry.1
  · simp [here, same.mp here]
  · simp [here, mt same.mpr here]

theorem without_of_none (sound : Sound c) (none : c.find key = none) : c.without key = c.lru := by
  refine filter_eq_self.mpr fun entry mem => ?_
  exact decide_eq_true (sound.find_none_iff.mp none entry mem)

theorem perm_without (sound : Sound c) (mem : (addr, node) ∈ c.lru) :
    c.lru.Perm ((addr, node) :: c.without node.key) := by
  have nodup : c.lru.Nodup := sound.addresses.of_map _
  have filtered : c.without node.key = c.lru.erase (addr, node) := by
    rw [nodup.erase_eq_filter]
    refine filter_congr fun entry mem' => ?_
    by_cases here : entry = (addr, node)
    · simp [here]
    · have other : entry.2.key ≠ node.key := fun same => here (sound.same_of_key mem' mem same)
      simp [here, other]
  rw [filtered]
  exact perm_cons_erase mem

theorem mem_without_iff (sound : Sound c) (mem : (addr, node) ∈ c.lru) :
    (∃ kept, (addr, kept) ∈ c.without key) ↔ node.key ≠ key := by
  constructor
  · rintro ⟨kept, mem'⟩
    obtain ⟨mem', other⟩ := mem_filter.mp mem'
    cases sound.same_of_address mem' mem rfl
    exact of_decide_eq_true other
  · exact fun other => ⟨node, mem_filter.mpr ⟨mem, decide_eq_true other⟩⟩

theorem evict (sound : Sound c) (mem : (addr, node) ∈ c.lru) :
    Sound (c.evict node.key addr node) := by
  have perm := sound.perm_without mem
  unfold FileCache.evict
  rw [sound.erase_eq mem]
  constructor
  · exact sound.addresses.sublist (filter_sublist.map _)
  · exact sound.keys.sublist (filter_sublist.map _)
  · exact fun entry mem' => sound.allocated entry (mem_of_mem_filter mem')
  · intro key addr'
    simp only [lookup_erase, without]
    by_cases here : key = node.key
    · simp [here]
    · simp [sound.index]
      grind
  · have total := perm.map nodeSize |>.sum_eq
    rw [sound.size]
    simp only [Budget.total, total]
    simp [nodeSize]

theorem invalidate (sound : Sound c) (key : Bytes) :
    Sound (c.invalidate key) ∧ (c.invalidate key).lru = c.without key ∧
      (c.invalidate key).allocated = c.allocated := by
  unfold FileCache.invalidate
  split
  · rename_i none
    exact ⟨sound, (sound.without_of_none none).symm, rfl⟩
  · rename_i addr node found
    obtain ⟨mem, rfl⟩ := sound.find_iff.mp found
    exact ⟨sound.evict mem, sound.erase_eq mem, rfl⟩

theorem splice (sound : Sound c) (mem : (addr, node) ∈ c.lru) :
    Sound { c with lru := (addr, node) :: c.without node.key } := by
  have perm := sound.perm_without mem
  constructor
  · exact (perm.map _).nodup_iff.mp sound.addresses
  · exact (perm.map _).nodup_iff.mp sound.keys
  · exact fun entry mem' => sound.allocated entry (perm.mem_iff.mpr mem')
  · intro key addr'
    rw [sound.index]
    simp only [perm.mem_iff]
  · rw [sound.size]
    exact (perm.map nodeSize).sum_eq

theorem get_of_find (sound : Sound c) (found : c.find key = some (addr, node)) (now : Int) :
    c.get now key = if node.expireAt < now then (none, c.invalidate key)
      else (some (addr, node), { c with lru := (addr, node) :: c.without key }) := by
  obtain ⟨mem, rfl⟩ := sound.find_iff.mp found
  unfold FileCache.get FileCache.invalidate
  simp only [found, sound.erase_eq mem]

theorem get (sound : Sound c) (now : Int) (key : Bytes) : Sound (c.get now key).2 := by
  cases found : c.find key with
  | none =>
    unfold FileCache.get
    rw [found]
    exact sound
  | some entry =>
    rw [sound.get_of_find found]
    obtain ⟨mem, rfl⟩ := sound.find_iff.mp found
    split
    · exact (sound.invalidate _).1
    · exact sound.splice mem

theorem popBack_eq (sound : Sound c) (last : c.lru.getLast? = some (addr, node)) :
    c.popBack = c.evict node.key addr node ∧ c.lru = c.popBack.lru ++ [(addr, node)] := by
  obtain ⟨init, split⟩ := List.getLast?_eq_some_iff.mp last
  have addresses := sound.addresses
  rw [split, map_append, nodup_append] at addresses
  have erased : erase addr c.lru = init := by
    rw [split, erase, filter_append, filter_eq_self.mpr, filter_cons_of_neg]
    · simp
    · simp
    · intro entry mem
      have other := addresses.2.2 entry.1 (mem_map_of_mem mem) addr (by simp)
      simp [other.symm]
  have dropped : c.lru.dropLast = init := by
    rw [split]
    exact dropLast_concat
  have popped : c.popBack = c.evict node.key addr node := by
    simp only [FileCache.popBack, last, FileCache.evict, erased, dropped]
  refine ⟨popped, ?_⟩
  rw [popped, FileCache.evict, erased]
  exact split

theorem popBack (sound : Sound c) (last : c.lru.getLast? = some (addr, node)) :
    Sound c.popBack := by
  have mem := mem_of_getLast? last
  rw [(sound.popBack_eq last).1]
  exact sound.evict mem

/-- The loop of `put` keeps the longest part in front that leaves room for what comes. -/
theorem shrink (sound : Sound c) (incoming maxCacheSize : Nat) :
    Sound (c.shrink incoming maxCacheSize) ∧
      (c.shrink incoming maxCacheSize).lru = fit nodeSize maxCacheSize incoming c.lru ∧
      (c.shrink incoming maxCacheSize).allocated = c.allocated := by
  refine Loop.run_spec (shrinkRound_decreases incoming maxCacheSize)
    (fun d => Sound d ∧ fit nodeSize maxCacheSize incoming d.lru =
      fit nodeSize maxCacheSize incoming c.lru ∧ d.allocated = c.allocated)
    (fun d => Sound d ∧ d.lru = fit nodeSize maxCacheSize incoming c.lru ∧
      d.allocated = c.allocated) ?_ ?_ ⟨sound, rfl, rfl⟩
  · rintro d e ⟨sound, kept, allocated⟩ round
    unfold shrinkRound at round
    split at round <;> cases round
    rename_i guard
    have found := List.getLast?_eq_some_getLast guard.1
    obtain ⟨evicted, split⟩ := sound.popBack_eq found
    refine ⟨sound.popBack found, ?_, ?_⟩
    · rw [← kept, split]
      refine (fit_append_of_lt ?_).symm
      rw [← split, ← sound.size]
      omega
    · rw [evicted]
      exact allocated
  · rintro d e ⟨sound, kept, allocated⟩ round
    unfold shrinkRound at round
    split at round <;> cases round
    rename_i guard
    refine ⟨sound, ?_, allocated⟩
    rw [← kept]
    by_cases empty : d.lru = []
    · rw [empty]
      rfl
    · have room := not_lt.mp fun above => guard ⟨empty, above⟩
      rw [sound.size] at room
      exact (fit_of_le (by omega)).symm

theorem pushFront (sound : Sound c) (absent : ∀ entry ∈ c.lru, entry.2.key ≠ node.key) :
    Sound (c.pushFront node) := by
  have unindexed : c.index.lookup node.key = none := by
    cases found : c.index.lookup node.key with
    | none => rfl
    | some addr =>
      obtain ⟨other, mem, same⟩ := (sound.index _ _).mp found
      exact absurd same (absent _ mem)
  constructor <;> simp only [FileCache.pushFront]
  · rw [map_cons, nodup_cons]
    refine ⟨fun mem => ?_, sound.addresses⟩
    obtain ⟨entry, mem, same⟩ := mem_map.mp mem
    have old := sound.allocated entry mem
    omega
  · rw [map_cons, nodup_cons]
    refine ⟨fun mem => ?_, sound.keys⟩
    obtain ⟨entry, mem, same⟩ := mem_map.mp mem
    exact absent entry mem same
  · intro entry mem
    rcases mem_cons.mp mem with rfl | mem
    · exact Nat.lt_succ_self _
    · exact Nat.lt_succ_of_lt (sound.allocated entry mem)
  · intro key addr
    rw [lookup_emplace]
    by_cases here : key = node.key
    · rw [here, unindexed, if_pos BEq.rfl]
      constructor
      · rintro ⟨⟩
        exact ⟨node, mem_cons_self, rfl⟩
      rintro ⟨other, mem, same⟩
      rcases mem_cons.mp mem with first | mem
      · cases first
        rfl
      · exact absurd same (absent _ mem)
    · rw [if_neg (by simpa using here), Option.or_none, sound.index]
      refine exists_congr fun other => and_congr_left fun same => ?_
      rw [mem_cons, or_iff_right]
      rintro ⟨⟩
      exact here same.symm
  · rw [sound.size]
    exact Nat.add_comm ..

theorem put (sound : Sound c) (node : CacheNode) (maxCacheSize : Nat) :
    Sound (c.put node maxCacheSize).2 ∧ (c.put node maxCacheSize).1 = c.allocated ∧
      (c.put node maxCacheSize).2.lru = (c.allocated, node) ::
        fit nodeSize maxCacheSize node.data.length (c.without node.key) := by
  obtain ⟨cleared, others, allocated⟩ := sound.invalidate node.key
  obtain ⟨shrunk, kept, allocated'⟩ := cleared.shrink node.data.length maxCacheSize
  rw [others] at kept
  rw [allocated] at allocated'
  refine ⟨shrunk.pushFront fun entry mem => ?_, allocated', ?_⟩
  · rw [kept] at mem
    have mem := (fit_isPrefix _ _).subset mem
    exact of_decide_eq_true (mem_filter.mp mem).2
  · simp only [FileCache.put, FileCache.pushFront, kept, allocated']

end Sound

/-- What an operation leaves of the nodes: those that were there, and new ones at new addresses. -/
structure Evolves (c d : FileCache) : Prop where
  sound : Sound d
  allocated : c.allocated ≤ d.allocated
  old : ∀ entry ∈ d.lru, entry ∈ c.lru ∨ c.allocated ≤ entry.1

namespace Evolves
variable {d e : FileCache}

theorem refl (sound : Sound c) : Evolves c c := ⟨sound, le_rfl, fun _ => .inl⟩

theorem trans (first : Evolves c d) (second : Evolves d e) : Evolves c e := by
  refine ⟨second.sound, first.allocated.trans second.allocated, fun entry mem => ?_⟩
  rcases second.old entry mem with mem | new
  · exact first.old entry mem
  · exact .inr (first.allocated.trans new)

theorem node_eq (evolves : Evolves c d) (old : addr < c.allocated) (mem : (addr, node) ∈ d.lru) :
    (addr, node) ∈ c.lru := by
  rcases evolves.old _ mem with mem | new
  · exact mem
  · exact absurd old (not_lt.mpr new)

theorem invalidate (sound : Sound c) (key : Bytes) : Evolves c (c.invalidate key) := by
  obtain ⟨sound', kept, allocated⟩ := sound.invalidate key
  refine ⟨sound', allocated.ge, fun entry mem => .inl ?_⟩
  rw [kept] at mem
  exact mem_of_mem_filter mem

theorem splice (sound : Sound c) (mem : (addr, node) ∈ c.lru) :
    Evolves c { c with lru := (addr, node) :: c.without node.key } := by
  refine ⟨sound.splice mem, le_rfl, fun entry mem' => .inl ?_⟩
  exact (sound.perm_without mem).mem_iff.mpr mem'

theorem put (sound : Sound c) (node : CacheNode) (maxCacheSize : Nat) :
    Evolves c (c.put node maxCacheSize).2 := by
  obtain ⟨sound', -, kept⟩ := sound.put node maxCacheSize
  refine ⟨sound', ?_, fun entry mem => ?_⟩
  · have new := sound'.allocated (c.allocated, node) (by rw [kept]; exact mem_cons_self)
    exact new.le
  · rw [kept] at mem
    rcases mem_cons.mp mem with rfl | mem
    · exact .inr le_rfl
    · exact .inl (mem_of_mem_filter ((fit_isPrefix _ _).subset mem))

end Evolves

/-- The size of the nodes that are used more recently than the one at the address, without the node
of `key`. -/
def ahead (c : FileCache) (key : Bytes) (addr : Nat) : Nat :=
  total nodeSize ((c.without key).takeWhile (·.1 ≠ addr))

/-- A node of another key is still there after `put` if there is room for it, for the new node and
for those that are used more recently. -/
theorem Sound.mem_put_iff (sound : Sound c) (mem : (addr, old) ∈ c.lru) (node : CacheNode)
    (maxCacheSize : Nat) :
    (∃ kept, (addr, kept) ∈ (c.put node maxCacheSize).2.lru) ↔ old.key ≠ node.key ∧
      node.data.length + c.ahead node.key addr + old.data.length ≤ maxCacheSize := by
  obtain ⟨-, -, kept⟩ := sound.put node maxCacheSize
  have listed : (∃ kept, (addr, kept) ∈ (c.put node maxCacheSize).2.lru) ↔
      (addr, old) ∈ fit nodeSize maxCacheSize node.data.length (c.without node.key) := by
    rw [kept]
    constructor
    · rintro ⟨other, mem'⟩
      rcases mem_cons.mp mem' with new | mem'
      · cases new
        exact absurd (sound.allocated _ mem) (lt_irrefl _)
      · have before := mem_of_mem_filter ((fit_isPrefix _ _).subset mem')
        cases sound.same_of_address before mem rfl
        exact mem'
    · exact fun mem => ⟨old, mem_cons_of_mem _ mem⟩
  rw [listed]
  by_cases here : old.key = node.key
  · refine iff_of_false (fun mem => ?_) fun both => both.1 here
    have mem := (fit_isPrefix _ _).subset mem
    exact of_decide_eq_true (mem_filter.mp mem).2 here
  have nodup : ((c.without node.key).map Prod.fst).Nodup :=
    sound.addresses.sublist (filter_sublist.map _)
  have mem : (addr, old) ∈ c.without node.key :=
    mem_filter.mpr ⟨mem, decide_eq_true here⟩
  obtain ⟨before, after, split⟩ := append_of_mem mem
  rw [split, map_append, nodup_append] at nodup
  have others : ∀ entry ∈ before, entry.1 ≠ addr := fun entry mem =>
    nodup.2.2 _ (mem_map_of_mem mem) _ mem_cons_self
  have front : (c.without node.key).takeWhile (·.1 ≠ addr) = before := by
    rw [split, takeWhile_append_of_pos fun entry mem => by simpa using others entry mem,
      takeWhile_cons_of_neg (by simp), append_nil]
  rw [and_iff_right here, ahead, front, split]
  exact mem_fit_iff fun mem => others _ mem rfl

inductive Op where
  | get (now : Int) (key : Bytes)
  | put (node : CacheNode)
  | invalidate (key : Bytes)

def apply (maxCacheSize : Nat) (c : FileCache) : Op → FileCache
  | .get now key => (c.get now key).2
  | .put node => (c.put node maxCacheSize).2
  | .invalidate key => c.invalidate key

theorem Sound.apply (sound : Sound c) (op : Op) : Sound (c.apply maxCacheSize op) := by
  cases op with
  | get now key => exact sound.get now key
  | put node => exact (sound.put node maxCacheSize).1
  | invalidate key => exact (sound.invalidate key).1

theorem invalidate_le (c : FileCache) (key : Bytes) :
    (c.invalidate key).currentSize ≤ c.currentSize := by
  unfold invalidate
  split
  · exact le_rfl
  · exact Nat.sub_le ..

theorem Sound.apply_le (sound : Sound c) (within : c.currentSize ≤ maxCacheSize) {op : Op}
    (fits : ∀ node, op = .put node → node.data.length ≤ maxCacheSize) :
    (c.apply maxCacheSize op).currentSize ≤ maxCacheSize := by
  cases op with
  | get now key =>
    refine le_trans ?_ within
    cases found : c.find key with
    | none => simp only [FileCache.apply, FileCache.get, found, le_refl]
    | some entry =>
      simp only [FileCache.apply, sound.get_of_find found]
      split
      · exact c.invalidate_le key
      · exact le_rfl
  | put node =>
    obtain ⟨sound', -, kept⟩ := sound.put node maxCacheSize
    rw [FileCache.apply, sound'.size, kept]
    exact fit_le (fits node rfl) _
  | invalidate key => exact (c.invalidate_le key).trans within

theorem sound_foldl (ops : List Op) : Sound (ops.foldl (apply maxCacheSize) {}) :=
  foldlRecOn ops _ sound_empty fun _ sound op _ => sound.apply op

theorem foldl_le (ops : List Op)
    (fits : ∀ node, .put node ∈ ops → node.data.length ≤ maxCacheSize) :
    (ops.foldl (apply maxCacheSize) {}).currentSize ≤ maxCacheSize := by
  refine (foldlRecOn (motive := fun c => Sound c ∧ c.currentSize ≤ maxCacheSize) ops _
    ⟨sound_empty, Nat.zero_le _⟩ fun c bounded op mem => ⟨bounded.1.apply op, ?_⟩).2
  exact bounded.1.apply_le bounded.2 fun node same => fits node (same ▸ mem)

theorem Sound.get_lru (sound : Sound c) (now : Int) (key : Bytes) :
    (c.get now key).2.lru = (c.get now key).1.toList ++ c.without key := by
  cases found : c.find key with
  | none =>
    rw [sound.without_of_none found]
    simp only [FileCache.get, found, Option.toList_none, nil_append]
  | some entry =>
    rw [sound.get_of_find found]
    split
    · exact (sound.invalidate key).2.1
    · rfl

end FileCache

end Nitrocoro.Http
