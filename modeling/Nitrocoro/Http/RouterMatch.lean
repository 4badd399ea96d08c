import Nitrocoro.Http.RouterRoutes

/-! Which of several patterns that match a path a router selects, and the parameters that it then
reports. -/
namespace Nitrocoro.Http
open List RadixNode
open Text (Bytes ascii)
variable {H : Type} {key front : List Segment}

namespace RadixNode

theorem Before.asymm {key other : List Segment} (before : Before key other) :
    ¬ Before other key := by
  induction key generalizing other with
  | nil => exact fun _ => before
  | cons seg key ih =>
    cases other with
    | nil =>
      cases seg with
      | wild name => exact fun after => after
      | static | param => exact fun _ => before
    | cons seg' other =>
      cases seg with
      | static text =>
        cases seg' with
        | static text' =>
          intro after
          exact ih before.2 after.2
        | param | wild => exact fun after => after
      | param name =>
        cases seg' with
        | static text' => exact fun _ => before
        | wild name' => exact fun after => after
        | param name' =>
          rintro (smaller' | ⟨rfl, after⟩)
          · rcases before with smaller | ⟨rfl, _⟩
            · exact List.lt_asymm smaller smaller'
            · exact List.lt_irrefl _ smaller'
          · rcases before with smaller | ⟨_, before⟩
            · exact List.lt_irrefl _ smaller
            · exact ih before after
      | wild name =>
        cases seg' with
        | static | param => exact fun _ => before
        | wild name' => exact fun after => List.lt_asymm before after

theorem before_wild (shared : front <+: key) (plain : ∀ name, .wild name ∉ key)
    (longer : front ≠ key) (name : Bytes) : Before key (front ++ [.wild name]) := by
  obtain ⟨rest, rfl⟩ := shared
  induction front with
  | nil =>
    cases rest with
    | nil => exact absurd rfl longer
    | cons seg rest =>
      cases seg with
      | static | param => trivial
      | wild name => exact absurd mem_cons_self (plain name)
  | cons seg front ih =>
    have below := ih (fun name mem => plain name (mem_cons_of_mem _ mem))
      fun same => longer (congrArg (seg :: ·) same)
    cases seg with
    | static text => exact ⟨rfl, below⟩
    | param name => exact .inr ⟨rfl, below⟩
    | wild name => exact absurd mem_cons_self (plain name)

theorem wild_before (plain : ∀ name, .wild name ∉ key) (name : Bytes) :
    Before (key ++ [.wild name]) key := by
  induction key with
  | nil => trivial
  | cons seg key ih =>
    have below := ih fun name mem => plain name (mem_cons_of_mem _ mem)
    cases seg with
    | static text => exact ⟨rfl, below⟩
    | param name => exact .inr ⟨rfl, below⟩
    | wild name => exact absurd mem_cons_self (plain name)

end RadixNode

theorem accepts_wild {pieces : List Bytes} (shared : front <+: key)
    (accepts : Accepts key pieces) (name : Bytes) : Accepts (front ++ [.wild name]) pieces := by
  obtain ⟨rest, rfl⟩ := shared
  induction front generalizing pieces with
  | nil => trivial
  | cons seg front ih =>
    cases seg with
    | wild other => trivial
    | static text =>
      rw [cons_append, accepts_static] at *
      exact ⟨accepts.1, accepts.2.1, ih accepts.2.2⟩
    | param other =>
      rw [cons_append, accepts_param] at *
      exact ⟨accepts.1, ih accepts.2⟩

theorem depth_wild (shared : front <+: key) (name : Bytes) :
    depth (front ++ [.wild name]) ≤ depth key := by
  obtain ⟨-, rfl⟩ := shared
  induction front with
  | nil => exact Nat.zero_le _
  | cons seg front ih =>
    cases seg with
    | wild other => exact le_rfl
    | static | param => exact Nat.succ_le_succ ih

/-- The first element of a list in order is the one that comes before all others. -/
theorem head?_eq_some_iff {R : α → α → Prop} (asymm : ∀ {a b}, R a b → ¬ R b a) {l : List α}
    (sorted : l.Pairwise R) (mem : a ∈ l) : l.head? = some a ↔ ∀ b ∈ l, b ≠ a → R a b := by
  cases l with
  | nil => cases mem
  | cons first rest =>
    obtain ⟨least, _⟩ := pairwise_cons.mp sorted
    constructor
    · intro here b among other
      obtain rfl := Option.some.inj here
      exact least b ((mem_cons.mp among).resolve_left other)
    intro before
    rcases mem_cons.mp mem with rfl | later
    · rfl
    · by_contra differ
      have other : first ≠ a := fun same => differ (congrArg some same)
      exact asymm (least a later) (before first mem_cons_self other)

namespace HttpRouter
variable {regs : List (Registration H)} {path : Bytes}

/-- The patterns that the search meets are the registered ones that it accepts. -/
theorem mem_candidates_serve :
    key ∈ (serve regs).radixRoot.candidates (kMaxPathSegments + 1) (splitPath path) ↔
      history regs (.radix key) ≠ [] ∧ Accepts key (splitPath path) ∧
        depth key ≤ kMaxPathSegments := by
  have served := served_serve regs
  rw [mem_candidates_iff served.ordered, served.radix, entryFor, ne_eq,
    Entry.handlers_ofHistory, Nat.lt_succ_iff]
  constructor
  · rintro ⟨registered, accepts, deep, _⟩
    exact ⟨registered, accepts, deep⟩
  · rintro ⟨registered, accepts, deep⟩
    exact ⟨registered, accepts, deep, wildLast_of_registered registered⟩

theorem selected_radix_iff : (serve regs).selected path = some (.radix key) ↔
      path.length ≤ kMaxPathLength ∧ history regs (.exact path) = [] ∧
        ((serve regs).radixRoot.candidates (kMaxPathSegments + 1) (splitPath path)).head?
          = some key := by
  unfold selected
  rw [(served_serve regs).exact, ← Nat.not_lt]
  by_cases long : kMaxPathLength < path.length
  · simp [long]
  by_cases bare : history regs (.exact path) = []
  · simp only [bare, true_and]
    cases (serve regs).radixRoot.candidates (kMaxPathSegments + 1) (splitPath path) with
    | cons | nil => simp
  · simp [bare]

/-- A pattern without a wildcard that a path matches, and a wildcard in the place of its end or of
one of its segments: the pattern is selected unless the wildcard takes nothing, the path exceeds
a limit, or another route comes first. -/
theorem selected_over_wildcard_iff (regs : List (Registration H)) (path : Bytes)
    (key front : List Segment) (name : Bytes) (plain : ∀ name, .wild name ∉ key)
    (shared : front <+: key) (registered : history regs (.radix key) ≠ [])
    (wild_registered : history regs (.radix (front ++ [.wild name])) ≠ [])
    (accepts : Accepts key (splitPath path)) : ((serve regs).selected path = some (.radix key) ↔
      front ≠ key ∧ depth key ≤ kMaxPathSegments ∧ path.length ≤ kMaxPathLength ∧
        history regs (.exact path) = [] ∧
        ∀ other, history regs (.radix other) ≠ [] → Accepts other (splitPath path) →
          depth other ≤ kMaxPathSegments → other ≠ key → other ≠ front ++ [.wild name] →
          RadixNode.Before key other) ∧
      (front ≠ key → depth key ≤ kMaxPathSegments →
        (serve regs).selected path ≠ some (.radix (front ++ [.wild name]))) ∧
      (path.length ≤ kMaxPathLength → history regs (.exact path) ≠ [] →
        (serve regs).selected path = some (.exact path)) := by
  have sorted := candidates_sorted (kMaxPathSegments + 1) (served_serve regs).ordered
    (splitPath path)
  have wild_mem : depth key ≤ kMaxPathSegments → front ++ [.wild name] ∈
      (serve regs).radixRoot.candidates (kMaxPathSegments + 1) (splitPath path) := fun deep =>
    mem_candidates_serve.mpr ⟨wild_registered, accepts_wild shared accepts name,
      (depth_wild shared name).trans deep⟩
  have mem : depth key ≤ kMaxPathSegments →
      key ∈ (serve regs).radixRoot.candidates (kMaxPathSegments + 1) (splitPath path) :=
    fun deep => mem_candidates_serve.mpr ⟨registered, accepts, deep⟩
  have apart : front ++ [.wild name] ≠ key := by
    rintro rfl
    exact plain name (mem_append_right _ mem_cons_self)
  refine ⟨?_, ?_, ?_⟩
  · rw [selected_radix_iff]
    constructor
    · rintro ⟨short, inexact, first⟩
      have deep := (mem_candidates_serve.mp (mem_of_head? first)).2.2
      have before := (head?_eq_some_iff RadixNode.Before.asymm sorted (mem deep)).mp first
      refine ⟨?_, deep, short, inexact, ?_⟩
      · rintro rfl
        exact (wild_before plain name).asymm (before _ (wild_mem deep) apart)
      · intro other registered accepts deep differ _
        exact before other (mem_candidates_serve.mpr ⟨registered, accepts, deep⟩) differ
    · rintro ⟨longer, deep, short, inexact, others⟩
      refine ⟨short, inexact, (head?_eq_some_iff RadixNode.Before.asymm sorted (mem deep)).mpr ?_⟩
      intro other among differ
      obtain ⟨registered, accepts, other_deep⟩ := mem_candidates_serve.mp among
      by_cases wild : other = front ++ [.wild name]
      · rw [wild]
        exact before_wild shared plain longer name
      · exact others other registered accepts other_deep differ wild
  · intro longer deep chosen
    obtain ⟨_, _, first⟩ := selected_radix_iff.mp chosen
    have before :=
      (head?_eq_some_iff RadixNode.Before.asymm sorted (wild_mem deep)).mp first key (mem deep) apart.symm
    exact (before_wild shared plain longer name).asymm before
  · intro short exact
    rw [selected, if_neg (Nat.not_lt.mpr short), (served_serve regs).exact, if_neg exact]
    rfl

def paramOrMore : List (Registration Nat) :=
  [.route ⟨ascii "/:a", [.get], 1⟩, .route ⟨ascii "/:a/*r", [.get], 2⟩]

/-- The wildcard wins with nothing behind the parameter. -/
theorem empty_wildcard_wins : Matches [.param (ascii "a")] (splitPath (ascii "/x")) ∧
      (serve paramOrMore).selected (ascii "/x")
        = some (.radix [.param (ascii "a"), .wild (ascii "r")]) ∧
      (serve paramOrMore).route .get (ascii "/x")
        = { handler := some 2, params := [(ascii "a", ascii "x"), (ascii "r", [])], reason := .ok } := by
  refine ⟨?_, by decide +kernel, rfl⟩
  exact ⟨by decide, trivial, .inl rfl⟩

def fileOrFiles : List (Registration Nat) :=
  [.route ⟨ascii "/files/*rest", [.get], 1⟩, .route ⟨ascii "/files/:id", [.get], 2⟩]

theorem selected_over_wildcard_files : (serve fileOrFiles).selected (ascii "/files/7")
      = some (.radix [.static (ascii "files"), .param (ascii "id")]) := by
  have accepts : Accepts [.static (ascii "files"), .param (ascii "id")]
      (splitPath (ascii "/files/7")) := by
    exact ⟨by decide, rfl, by decide, trivial, rfl⟩
  refine (selected_over_wildcard_iff fileOrFiles (ascii "/files/7")
    [.static (ascii "files"), .param (ascii "id")] [.static (ascii "files")] (ascii "rest")
    (by simp) ⟨[.param (ascii "id")], rfl⟩ (by decide +kernel) (by decide +kernel) accepts).1.mpr
    ⟨by decide, by decide, by decide +kernel, by decide +kernel, ?_⟩
  intro other registered _ _ differ wild
  obtain ⟨reg, mem, stored⟩ := exists_registration registered
  rcases mem_pair.mp mem with rfl | rfl
  · exact absurd (Pattern.radix.inj stored).symm wild
  · exact absurd (Pattern.radix.inj stored).symm differ

end HttpRouter

/-- The names of a pattern with what they stand for in a path, the last segment first: a lookup
finds the last one of a name that repeats. -/
def bindings : List Segment → List Bytes → PathParams
  | [], _ => []
  | .static _ :: key, pieces => bindings key pieces.tail
  | .param name :: key, pieces => bindings key pieces.tail ++ [(name, pieces.headD [])]
  | .wild name :: _, pieces => [(name, [47].intercalate pieces)]

def bindOn (key : List Segment) (pieces : List Bytes) (f : Bytes → Option Bytes) (name : Bytes) :
    Option Bytes :=
  ((bindings key pieces).lookup name).or (f name)

theorem bindOn_param (name : Bytes) (key : List Segment) (pieces : List Bytes)
    (f : Bytes → Option Bytes) : bindOn (.param name :: key) pieces f
      = bindOn key pieces.tail (Function.update f name (some (pieces.headD []))) := by
  funext other
  rw [bindOn, bindings, lookup_append, OrderedMap.lookup_cons_ite]
  by_cases same : other = name
  · simp [bindOn, same]
  · simp [bindOn, same]

theorem bindOn_wild (name : Bytes) (key : List Segment) (pieces : List Bytes)
    (f : Bytes → Option Bytes) : bindOn (.wild name :: key) pieces f
      = Function.update f name (some ([47].intercalate pieces)) := by
  funext other
  rw [bindOn, bindings]
  by_cases same : other = name
  · simp [same]
  · simp [same]

namespace RadixNode
variable {node : RadixNode H} {pieces bound : List Bytes} {f g : Bytes → Option Bytes}

/-- On the way of a pattern the search has given up a branch that binds a name from further up, and
the pattern does not bind that name again. -/
def Drops : Nat → RadixNode H → List Segment → List Bytes → List Bytes → Prop
  | 0, _, _, _, _ => False
  | _, _, [], _, _ => False
  | levels + 1, node, seg :: key, pieces, bound =>
    (∃ name ∈ triedBefore (levels + 1) node seg pieces, name ∈ bound ∧
      name ∉ (seg :: key).filterMap Segment.name?) ∨
    Drops levels ((node.next seg).getD empty) key pieces.tail (seg.name?.toList ++ bound)

structure Lost (f g : Bytes → Option Bytes) (bound : List Bytes) : Prop where
  kept : ∀ name, f name = none ∨ f name = g name
  mem_iff : ∀ name, name ∈ bound ↔ (g name).isSome

theorem Lost.forget (lost : Lost f g bound) (names : List Bytes) :
    Lost (forget names f) g bound := by
  refine ⟨?_, lost.mem_iff⟩
  intro name
  rw [Http.forget]
  split
  · exact .inl rfl
  · exact lost.kept name

theorem Lost.update (lost : Lost f g bound) (name value : Bytes) :
    Lost (Function.update f name (some value)) (Function.update g name (some value))
      (name :: bound) := by
  constructor <;> intro other <;> by_cases same : other = name
  · simp [same]
  · simpa [same] using lost.kept other
  · simp [same]
  · simpa [same] using lost.mem_iff other

theorem Lost.forget_eq_iff (lost : Lost f g bound) (names : List Bytes) (name : Bytes) :
    Http.forget names f name = g name ↔ f name = g name ∧ ¬ (name ∈ names ∧ name ∈ bound) := by
  rw [Http.forget, lost.mem_iff]
  split
  · rename_i erased
    rcases lost.kept name with none | same
    · rw [none]
      cases g name <;> simp
    · rw [same]
      cases g name <;> simp [erased]
  · rename_i kept
    simp [kept]

theorem triedBefore_static (levels : Nat) (node : RadixNode H) (text : Bytes)
    (pieces : List Bytes) : triedBefore levels node (.static text) pieces = [] := by
  cases levels with
  | zero => rfl
  | succ levels =>
    cases node
    rw [triedBefore]
    split <;> rfl

theorem cut_cons (seg : Segment) (other : ∀ name, seg ≠ .wild name) (key : List Segment)
    (pieces : List Bytes) : Cut (seg :: key) pieces ↔ Cut key pieces.tail := by
  have deeper : depth (seg :: key) = depth key + 1 := by
    cases seg with
    | wild name => exact absurd rfl (other name)
    | static | param => rfl
  rw [Cut, Cut, deeper, drop_tail]

theorem wild_mem_cons (seg : Segment) (other : ∀ name, seg ≠ .wild name) (key : List Segment) :
    (∃ name, .wild name ∈ seg :: key) ↔ ∃ name, .wild name ∈ key := by
  refine exists_congr fun name => ?_
  rw [mem_cons]
  exact or_iff_right (Ne.symm (other name))

/-- The names that are left to be compared when the search comes to a segment with a name. -/
theorem Lost.update_eq_iff (lost : Lost f g bound) (name value text : Bytes)
    (erased later : List Bytes) :
    (∀ other ∉ later, Function.update (Http.forget erased f) name (some value) other
        = Function.update g name (some text) other) ↔
      (name ∉ later → value = text) ∧ (∀ other ∉ name :: later, f other = g other) ∧
        ¬ ∃ other ∈ erased, other ∈ bound ∧ other ∉ name :: later := by
  constructor
  · intro same
    have step : ∀ other ∉ name :: later, Http.forget erased f other = g other := by
      intro other fresh
      rw [mem_cons, not_or] at fresh
      have equal := same other fresh.2
      rwa [Function.update_of_ne fresh.1, Function.update_of_ne fresh.1] at equal
    refine ⟨?_, ?_, ?_⟩
    · intro fresh
      have equal := same name fresh
      rw [Function.update_self, Function.update_self] at equal
      exact Option.some.inj equal
    · intro other fresh
      exact ((lost.forget_eq_iff erased other).mp (step other fresh)).1
    · rintro ⟨other, gone, was, fresh⟩
      exact ((lost.forget_eq_iff erased other).mp (step other fresh)).2 ⟨gone, was⟩
  · rintro ⟨value_eq, same, none⟩ other fresh
    by_cases here : other = name
    · subst here
      rw [Function.update_self, Function.update_self, value_eq fresh]
    · have fresh : other ∉ name :: later := not_mem_cons_of_ne_of_not_mem here fresh
      rw [Function.update_of_ne here, Function.update_of_ne here, lost.forget_eq_iff]
      exact ⟨same other fresh, fun both => none ⟨other, both.1, both.2, fresh⟩⟩

/-- The parameters of a match are those of its pattern unless one was dropped on the way or the
wildcard has lost the rest of the path. -/
theorem replay_eq_iff (node : RadixNode H) (lost : Lost f g bound) (accepts : Accepts key pieces)
    (last : WildLast key) (deep : depth key < levels) :
    (∀ name, replay levels node key pieces f name = bindOn key pieces g name) ↔
      (∀ name ∉ key.filterMap Segment.name?, f name = g name) ∧
        ¬ Drops levels node key pieces bound ∧ ¬ ((∃ name, .wild name ∈ key) ∧ Cut key pieces) := by
  induction key generalizing levels node pieces f g bound with
  | nil =>
    obtain ⟨-, rfl⟩ := Nat.exists_eq_succ_of_ne_zero (Nat.ne_zero_of_lt deep)
    simp [replay, Drops, bindOn, bindings]
  | cons seg key ih =>
    obtain ⟨levels, rfl⟩ := Nat.exists_eq_succ_of_ne_zero (Nat.ne_zero_of_lt deep)
    cases seg with
    | wild name =>
      obtain rfl : key = [] := last
      have here := lost.update_eq_iff name (wildValue pieces) ([47].intercalate pieces)
        (triedBefore (levels + 1) node (.wild name) pieces) []
      simp only [not_mem_nil, not_false_eq_true, forall_const] at here
      have cut : (∃ other, .wild other ∈ [Segment.wild name]) ∧ Cut [.wild name] pieces ↔
          Cut [.wild name] pieces := and_iff_right ⟨name, mem_cons_self⟩
      have below : ¬ Drops levels ((node.next (.wild name)).getD empty) [] pieces.tail
          (name :: bound) := by
        cases levels <;> exact fun drops => drops
      rw [bindOn_wild, cut, ← captured_iff name [] pieces]
      refine here.trans (and_rotate.trans (and_congr_right fun _ => and_congr_left fun _ => ?_))
      exact not_congr (or_iff_left below).symm
    | static text =>
      obtain ⟨_, _, accepts⟩ := accepts_static.mp accepts
      have below := ih ((node.next (.static text)).getD empty) lost accepts last
        (Nat.lt_of_succ_lt_succ deep)
      rw [cut_cons _ (by simp), wild_mem_cons _ (by simp)]
      simp only [replay, Drops, triedBefore_static, not_mem_nil, false_and, exists_false, false_or]
      exact below
    | param name =>
      obtain ⟨_, accepts⟩ := accepts_param.mp accepts
      have below := ih ((node.next (.param name)).getD empty)
        ((lost.forget (triedBefore (levels + 1) node (.param name) pieces)).update name
          (pieces.headD [])) accepts last (Nat.lt_of_succ_lt_succ deep)
      rw [lost.update_eq_iff, and_iff_right fun _ => rfl, and_assoc,
        ← and_assoc (b := ¬ Drops _ _ _ _ _), ← not_or] at below
      rw [cut_cons _ (by simp), wild_mem_cons _ (by simp), bindOn_param]
      exact below

/-- The search binds the names of the pattern only. -/
theorem replay_other (levels : Nat) (node : RadixNode H)
    (other : name ∉ (bindings key pieces).map Prod.fst) (none : f name = none) :
    replay levels node key pieces f name = Option.none := by
  induction levels generalizing node key pieces f with
  | zero => exact none
  | succ levels ih =>
    have gone : ∀ names, Http.forget names f name = Option.none := by
      intro names
      rw [Http.forget, none, ite_self]
    cases key with
    | nil => exact none
    | cons seg key =>
      cases seg with
      | static text => exact ih _ other (gone _)
      | param bound =>
        rw [bindings, map_append, mem_append, not_or] at other
        refine ih _ other.1 ((Function.update_of_ne ?_ _ _).trans (gone _))
        rintro rfl
        exact other.2 mem_cons_self
      | wild bound =>
        refine (Function.update_of_ne ?_ _ _).trans (gone _)
        rintro rfl
        exact other mem_cons_self

end RadixNode

/-- A match respects its pattern if every name of it has the text that it stands for. -/
theorem respects_iff (accepts : Accepts key pieces) (last : WildLast key) :
    Respects params key pieces ↔ ((∃ name, .wild name ∈ key) ∨ ¬ Cut key pieces) ∧
      ∀ entry ∈ bindings key pieces, params.lookup entry.1 = some entry.2 := by
  induction key generalizing pieces with
  | nil =>
    rw [bindings, and_iff_left (forall_mem_nil _), or_iff_right (by simp)]
    exact (cut_nil_iff accepts).symm
  | cons seg key ih =>
    cases seg with
    | wild name =>
      rw [and_iff_right (.inl ⟨name, mem_cons_self⟩), bindings, forall_mem_singleton]
      rfl
    | static text =>
      cases pieces with
      | nil => cases accepts
      | cons piece pieces =>
        rw [cut_cons _ (by simp), wild_mem_cons _ (by simp)]
        exact ((and_iff_right accepts.1).trans (and_iff_right accepts.2.1)).trans
          (ih accepts.2.2 last)
    | param name =>
      cases pieces with
      | nil => cases accepts
      | cons piece pieces =>
        rw [cut_cons _ (by simp), wild_mem_cons _ (by simp), bindings, forall_mem_append,
          forall_mem_singleton, ← and_assoc, tail_cons, ← ih accepts.2.2 last, and_comm]
        exact and_iff_right accepts.1

/-- Entries that share a name have one value. -/
def Agree (entries : PathParams) : Prop :=
  ∀ a ∈ entries, ∀ b ∈ entries, a.1 = b.1 → a.2 = b.2

instance : DecidablePred Agree := fun entries =>
  inferInstanceAs (Decidable (∀ a ∈ entries, ∀ b ∈ entries, a.1 = b.1 → a.2 = b.2))

theorem forall_lookup_iff {entries : PathParams} {f : Bytes → Option Bytes}
    (others : ∀ name ∉ entries.map Prod.fst, f name = none) :
    (∀ entry ∈ entries, f entry.1 = some entry.2) ↔
      Agree entries ∧ ∀ name, f name = entries.lookup name := by
  constructor
  · intro has
    refine ⟨?_, ?_⟩
    · intro a mem b mem' same
      exact Option.some.inj ((has a mem).symm.trans ((congrArg f same).trans (has b mem')))
    · intro name
      cases found : entries.lookup name with
      | some value => exact has (name, value) (OrderedMap.mem_of_lookup found)
      | none =>
        apply others
        intro mem
        obtain ⟨entry, among, rfl⟩ := mem_map.mp mem
        simpa using lookup_eq_none_iff.mp found entry among
  · rintro ⟨agree, same⟩ entry mem
    rw [same]
    obtain ⟨value, found⟩ := Option.isSome_iff_exists.mp
      (lookup_isSome_iff.mpr ⟨entry, mem, BEq.rfl⟩)
    rw [found]
    exact congrArg some (agree _ (OrderedMap.mem_of_lookup found) entry mem rfl)

namespace HttpRouter
variable {regs : List (Registration H)} {path : Bytes}

theorem params_of_radix (selects : (serve regs).selected path = some (.radix key)) :
    ∃ params, (∀ method, (serve regs).route method path
        = { lookupMethod method (entryFor regs (.radix key)) with params }) ∧
      Accepts key (splitPath path) ∧ WildLast key ∧
      (∀ name ∉ (bindings key (splitPath path)).map Prod.fst, params.lookup name = none) ∧
      ((∀ name, params.lookup name = (bindings key (splitPath path)).lookup name) ↔
        ¬ RadixNode.Drops (kMaxPathSegments + 1) (serve regs).radixRoot key (splitPath path) [] ∧
          ¬ ((∃ name, .wild name ∈ key) ∧ Cut key (splitPath path))) := by
  have served := served_serve regs
  obtain ⟨short, inexact, first⟩ := selected_radix_iff.mp selects
  obtain ⟨more, found⟩ := List.head?_eq_some_iff.mp first
  obtain ⟨params, hit, values⟩ := matchRadix_of_cons served.ordered found
  obtain ⟨registered, accepts, deep⟩ := mem_candidates_serve.mp (mem_of_head? first)
  have last := wildLast_of_registered registered
  refine ⟨params, ?_, accepts, last, ?_, ?_⟩
  · intro method
    rw [route, if_neg (Nat.not_lt.mpr short), served.exact, if_pos inexact, hit, served.radix]
  · intro name other
    exact (congrFun values name).trans (replay_other _ _ other rfl)
  · have lost : RadixNode.Lost (fun _ => none) (fun _ => none) [] :=
      ⟨fun _ => .inl rfl, fun _ => by simp⟩
    have exact := replay_eq_iff (serve regs).radixRoot lost accepts last (Nat.lt_succ_of_le deep)
    rw [← values, and_iff_right fun _ _ => rfl] at exact
    rw [← exact]
    simp only [RadixNode.values, bindOn, Option.or_none]

/-- The parameters that a router reports are those of the selected pattern unless the search has
dropped one, or a wildcard lost what stands behind an empty segment. -/
theorem route_params_iff (regs : List (Registration H)) (path : Bytes) (key : List Segment)
    (method : HttpMethod) (selects : (serve regs).selected path = some (.radix key)) :
    (∀ name, ((serve regs).route method path).params.lookup name
        = (bindings key (splitPath path)).lookup name) ↔
      ¬ RadixNode.Drops (kMaxPathSegments + 1) (serve regs).radixRoot key (splitPath path) [] ∧
        ¬ ((∃ name, .wild name ∈ key) ∧ Cut key (splitPath path)) := by
  obtain ⟨params, answers, _, _, _, exact⟩ := params_of_radix selects
  rw [answers, ← exact]

/-- One name for two segments, and a pattern with a wildcard behind the first. -/
def sameName : List (Registration Nat) :=
  [.route ⟨ascii "/:id/:id/z", [.get], 1⟩, .route ⟨ascii "/:id/*rest", [.get], 2⟩]

/-- The parameter in front of the wildcard is gone. -/
theorem route_params_dropped : (serve sameName).selected (ascii "/1/2/3")
        = some (.radix [.param (ascii "id"), .wild (ascii "rest")]) ∧
      (serve sameName).route .get (ascii "/1/2/3")
        = { handler := some 2, params := [(ascii "rest", ascii "2/3")], reason := .ok } ∧
      (bindings [.param (ascii "id"), .wild (ascii "rest")]
        (splitPath (ascii "/1/2/3"))).lookup (ascii "id") = some (ascii "1") := by
  refine ⟨by decide +kernel, rfl, by decide +kernel⟩

theorem route_params_iff_file : (serve fileOrFiles).selected (ascii "/files/7")
        = some (.radix [.static (ascii "files"), .param (ascii "id")]) ∧
      ∀ name, ((serve fileOrFiles).route .get (ascii "/files/7")).params.lookup name
        = (bindings [.static (ascii "files"), .param (ascii "id")]
            (splitPath (ascii "/files/7"))).lookup name := by
  have selects : (serve fileOrFiles).selected (ascii "/files/7")
      = some (.radix [.static (ascii "files"), .param (ascii "id")]) := by decide +kernel
  refine ⟨selects, (route_params_iff fileOrFiles (ascii "/files/7")
    [.static (ascii "files"), .param (ascii "id")] .get selects).mpr ⟨?_, ?_⟩⟩
  · rintro (⟨_, _, ⟨⟩, _⟩ | ⟨_, _, ⟨⟩, _⟩ | none)
    exact none
  · rintro ⟨⟨name, mem⟩, _⟩
    simp at mem

theorem pattern_of_whole (whole : [] ∉ segments call.path) (radix : isRadix call.path) :
    (Registration.route call : Registration H).pattern = .radix (patternOf call.path) := by
  rw [Registration.pattern, if_pos radix, pathSegments_eq whole]
  rfl

/-- A path is a match of the whole selected pattern with the right parameters unless it goes on
behind an empty segment, the search has dropped a parameter, or one name would stand for two
different segments. -/
theorem route_radix_sound (regs : List (Registration H)) (path : Bytes) (method : HttpMethod)
    (call : RouteCall H) (whole : [] ∉ segments call.path) (radix : isRadix call.path)
    (selects : (serve regs).selected path = some (Registration.route call).pattern) :
    ∃ params, (serve regs).route method path
        = { lookupMethod method (entryFor regs (Registration.route call).pattern) with params } ∧
      (Respects params (patternOf call.path) (splitPath path) ↔
        ¬ Cut (patternOf call.path) (splitPath path) ∧
        ¬ RadixNode.Drops (kMaxPathSegments + 1) (serve regs).radixRoot (patternOf call.path)
          (splitPath path) [] ∧
        Agree (bindings (patternOf call.path) (splitPath path))) := by
  rw [pattern_of_whole whole radix] at selects ⊢
  obtain ⟨params, answers, accepts, last, others, exact⟩ := params_of_radix selects
  refine ⟨params, answers method, ?_⟩
  rw [respects_iff accepts last, forall_lookup_iff others, exact]
  tauto

def userRoutes : List (Registration Nat) :=
  [.route ⟨ascii "/users/:id", [.get], 1⟩, .route ⟨ascii "/x/:a/:a", [.get], 2⟩]

theorem route_radix_sound_user : ∃ params, (serve userRoutes).route .get (ascii "/users/42")
        = { lookupMethod .get (entryFor userRoutes
              (Registration.route (⟨ascii "/users/:id", [.get], 1⟩ : RouteCall Nat)).pattern)
            with params } ∧
      Respects params [.static (ascii "users"), .param (ascii "id")]
        (splitPath (ascii "/users/42")) := by
  obtain ⟨params, answers, exact⟩ := route_radix_sound userRoutes (ascii "/users/42") .get
    ⟨ascii "/users/:id", [.get], 1⟩ (by decide +kernel) (by decide +kernel) (by decide +kernel)
  refine ⟨params, answers, exact.mpr ⟨?_, ?_, by decide +kernel⟩⟩
  · rintro ⟨more, _, split⟩
    cases split
  · rintro (⟨_, _, ⟨⟩, _⟩ | ⟨_, _, ⟨⟩, _⟩ | none)
    exact none

/-- The rest of this path is dropped from the empty segment on. -/
theorem route_radix_dropped : (serve userRoutes).selected (ascii "/users/42//x")
        = some (.radix (patternOf (ascii "/users/:id"))) ∧
      (serve userRoutes).route .get (ascii "/users/42//x")
        = { handler := some 1, params := [(ascii "id", ascii "42")], reason := .ok } ∧
      ∀ params,
        ¬ Respects params (patternOf (ascii "/users/:id")) (splitPath (ascii "/users/42//x")) := by
  refine ⟨by decide +kernel, rfl, ?_⟩
  rintro params ⟨_, _, _, _, none | only⟩
  · cases none
  · cases only

/-- Backtracking does not lose a match. -/
theorem matchRadix_of_matches (regs : List (Registration H)) (path : Bytes)
    (path_whole : [] ∉ segments path) (few : (segments path).length ≤ kMaxPathSegments)
    (key : List Segment) (registered : history regs (.radix key) ≠ [])
    (matched : Matches key (splitPath path)) :
    ∃ other, history regs (.radix other) ≠ [] ∧ Matches other (splitPath path) ∧
      ∃ params, (serve regs).matchRadix path = some (entryFor regs (.radix other), params) := by
  have served := served_serve regs
  have accepts : Accepts key (splitPath path) := by
    refine matched.mono ?_ (fun _ _ _ => trivial) (fun _ _ _ => trivial)
    rintro _ (rfl | rfl) <;> rfl
  have deep : depth key ≤ kMaxPathSegments :=
    (depth_le accepts).trans ((filter_splitPath_le path).trans few)
  have mem := mem_candidates_serve.mpr ⟨registered, accepts, deep⟩
  obtain ⟨other, more, found⟩ := exists_cons_of_ne_nil (ne_nil_of_mem mem)
  obtain ⟨params, hit, _⟩ := matchRadix_of_cons served.ordered found
  obtain ⟨registered, accepts, _⟩ := mem_candidates_serve.mp (found ▸ mem_cons_self)
  rw [served.radix] at hit
  exact ⟨other, registered, matches_of_accepts accepts (dropLast_splitPath path_whole), params, hit⟩

theorem matchRadix_of_matches_files : ∃ other, history fileOrFiles (.radix other) ≠ [] ∧
      Matches other (splitPath (ascii "/files/7")) ∧
      ∃ params, (serve fileOrFiles).matchRadix (ascii "/files/7")
        = some (entryFor fileOrFiles (.radix other), params) :=
  matchRadix_of_matches fileOrFiles (ascii "/files/7") (by decide +kernel) (by decide +kernel)
    [.static (ascii "files"), .wild (ascii "rest")] (by decide +kernel) ⟨by decide, rfl, trivial⟩

end HttpRouter
end Nitrocoro.Http
