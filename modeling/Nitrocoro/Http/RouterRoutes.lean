import Nitrocoro.Http.RouterSearch

/-! What the routes of a router hold after any registrations, and which of them a path selects. The
entry of a pattern is a function of the methods and handlers that were registered for it. -/
namespace Nitrocoro.Http
open List OrderedMap Entry
open Text (Bytes ascii)
variable {H : Type}

def Entry.ofHistory (history : List (HttpMethod × H)) : Entry H :=
  history.foldl (fun entry added => entry.addMethod added.2 added.1) {}

theorem Entry.ofHistory_append (history : List (HttpMethod × H)) (methods : List HttpMethod)
    (handler : H) : ofHistory (history ++ methods.map (·, handler))
      = (ofHistory history).addMethods methods handler := by
  rw [ofHistory, foldl_append, foldl_map]
  rfl

theorem Entry.ofHistory_concat (history : List (HttpMethod × H)) (method : HttpMethod)
    (handler : H) :
    ofHistory (history ++ [(method, handler)]) = (ofHistory history).addMethod handler method :=
  ofHistory_append history [method] handler

instance : Std.Asymm (fun a b : HttpMethod => a < b) :=
  ⟨fun a b smaller => UInt16.lt_asymm (a := a.id) (b := b.id) smaller⟩

instance : Trans (fun a b : HttpMethod => a < b) (fun a b => a < b) (fun a b => a < b) :=
  ⟨fun smaller larger => UInt16.lt_trans smaller larger⟩

instance : Std.Trichotomous (fun a b : HttpMethod => a < b) where
  trichotomous a b notSmaller notLarger := by
    cases a
    cases b
    exact congrArg _ (UInt16.le_antisymm (UInt16.not_lt.mp notLarger) (UInt16.not_lt.mp notSmaller))

def lastFor (method : HttpMethod) (history : List (HttpMethod × H)) : Option H :=
  history.reverse.lookup method

def firstFor (method : HttpMethod) (history : List (HttpMethod × H)) : Option H :=
  history.lookup method

theorem lastFor_concat (method other : HttpMethod) (handler : H) :
    lastFor method (history ++ [(other, handler)])
      = if method = other then some handler else lastFor method history := by
  rw [lastFor, reverse_concat, lookup_cons_ite]
  simp only [beq_iff_eq]
  rfl

theorem firstFor_concat (method other : HttpMethod) (handler : H) :
    firstFor method (history ++ [(other, handler)])
      = (firstFor method history).or (if method = other then some handler else none) := by
  rw [firstFor, lookup_append, lookup_cons_ite]
  simp only [beq_iff_eq]
  rfl

namespace Entry

theorem lookup_addMethod (handler : H) (entry : Entry H) (method other : HttpMethod) :
    (entry.addMethod handler method).handlers.lookup other
      = if other = method then some handler
        else if method = .get ∧ other = .head then (entry.handlers.lookup .head).or (some handler)
        else entry.handlers.lookup other := by
  have apart : HttpMethod.head ≠ .get := by decide
  simp only [addMethod]
  split
  · rename_i fills
    obtain ⟨rfl, none⟩ := fills
    simp only [lookup_insertOrAssign, beq_iff_eq] at none ⊢
    rw [if_neg apart] at none
    by_cases head : other = .head
    · simp [head, none]
    · simp [head]
  · rename_i kept
    simp only [lookup_insertOrAssign, beq_iff_eq] at kept ⊢
    by_cases same : other = method
    · simp [same]
    rw [if_neg same, if_neg same]
    split
    · rename_i filled
      obtain ⟨rfl, rfl⟩ := filled
      rw [if_neg apart] at kept
      obtain ⟨h, there⟩ := Option.ne_none_iff_exists'.mp fun none => kept ⟨rfl, none⟩
      simp [there]
    · rfl

theorem lookup_ofHistory (history : List (HttpMethod × H)) (other : method ≠ .head) :
    (ofHistory history).handlers.lookup method = lastFor method history := by
  induction history using List.reverseRecOn with
  | nil => rfl
  | append_singleton history added ih =>
    rw [ofHistory_concat, lookup_addMethod, lastFor_concat, ih,
      if_neg fun filled : added.1 = .get ∧ method = .head => other filled.2]

theorem lookup_head_ofHistory (history : List (HttpMethod × H)) :
    (ofHistory history).handlers.lookup .head
      = (lastFor .head history).or (firstFor .get history) := by
  induction history using List.reverseRecOn with
  | nil => rfl
  | append_singleton history added ih =>
    rw [ofHistory_concat, lookup_addMethod, lastFor_concat, firstFor_concat, ih]
    by_cases head : HttpMethod.head = added.1
    · simp [head]
    rw [if_neg head, if_neg head]
    by_cases get : added.1 = .get
    · simp [get]
    · simp [get, Ne.symm get]

structure Listed (entry : Entry H) : Prop where
  sorted : OrderedMap.Sorted entry.handlers
  listed : entry.allowedMethods = entry.handlers.map Prod.fst

theorem Listed.addMethod (listed : Listed entry) (handler : H) (method : HttpMethod) :
    Listed (entry.addMethod handler method) := by
  refine ⟨?_, rfl⟩
  simp only [Entry.addMethod]
  split
  · exact listed.sorted.insertOrAssign.insertOrAssign
  · exact listed.sorted.insertOrAssign

theorem listed_ofHistory (history : List (HttpMethod × H)) : Listed (ofHistory history) := by
  induction history using List.reverseRecOn with
  | nil => exact ⟨.nil, rfl⟩
  | append_singleton history added ih =>
    rw [ofHistory_concat]
    exact ih.addMethod added.2 added.1

theorem Listed.nodup (listed : Listed entry) : entry.allowedMethods.Nodup := by
  rw [listed.listed, List.Nodup, pairwise_map]
  apply listed.sorted.imp
  rintro a b smaller same
  rw [same] at smaller
  exact Std.Asymm.asymm _ _ smaller smaller

theorem Listed.mem_iff (listed : Listed entry) :
    method ∈ entry.allowedMethods ↔ (entry.handlers.lookup method).isSome := by
  rw [listed.listed, mem_map, Option.isSome_iff_exists]
  constructor
  · rintro ⟨⟨_, handler⟩, mem, rfl⟩
    exact ⟨handler, listed.sorted.lookup_of_mem mem⟩
  · rintro ⟨handler, there⟩
    exact ⟨(method, handler), listed.sorted.lookup_eq_some_iff.mp there, rfl⟩

end Entry

theorem isSome_lookup {entries : List (HttpMethod × H)} :
    (entries.lookup method).isSome ↔ method ∈ entries.map Prod.fst := by
  rw [← not_iff_not, Option.not_isSome_iff_eq_none, lookup_eq_none_iff]
  simp only [mem_map, not_exists, not_and]
  exact ⟨fun apart entry mem same => by simpa [same] using apart entry mem,
    fun apart entry mem => by simpa using Ne.symm (apart entry mem)⟩

def Serves (history : List (HttpMethod × H)) (method : HttpMethod) : Prop :=
  method ∈ history.map Prod.fst ∨ method = .head ∧ .get ∈ history.map Prod.fst

theorem Entry.mem_allowedMethods_iff (history : List (HttpMethod × H)) (method : HttpMethod) :
    method ∈ (ofHistory history).allowedMethods ↔ Serves history method := by
  have last : ∀ method, (lastFor method history).isSome ↔ method ∈ history.map Prod.fst := by
    intro method
    rw [lastFor, isSome_lookup, map_reverse, mem_reverse]
  rw [(listed_ofHistory history).mem_iff]
  by_cases head : method = .head
  · rw [head, lookup_head_ofHistory, Option.isSome_or, Bool.or_eq_true, last, firstFor]
    simp [Serves]
  · rw [lookup_ofHistory history head, last]
    simp [Serves, head]

inductive Pattern where
  | exact (path : Bytes)
  | radix (key : List Segment)
  | regex (pattern : Bytes)
  deriving DecidableEq

structure RouteCall (H : Type) where
  path : Bytes
  methods : List HttpMethod
  handler : H

inductive Registration (H : Type) where
  | route (call : RouteCall H)
  | regex (pattern : Bytes) (regex : Bytes → Option (List Bytes)) (methods : List HttpMethod)
    (handler : H)

namespace Registration

def methods : Registration H → List HttpMethod
  | route call => call.methods
  | regex _ _ methods _ => methods

def handler : Registration H → H
  | route call => call.handler
  | regex _ _ _ handler => handler

def pattern : Registration H → Pattern
  | route call =>
    if HttpRouter.isRadix call.path then .radix (keyOf (pathSegments call.path))
    else .exact call.path
  | regex pattern _ _ _ => .regex pattern

/-- What a call adds to the routes of a pattern; a call with an invalid method throws. -/
def adds (pattern : Pattern) (reg : Registration H) : List (HttpMethod × H) :=
  if reg.pattern = pattern ∧ .invalid ∉ reg.methods then reg.methods.map (·, reg.handler) else []

end Registration

def history (regs : List (Registration H)) (pattern : Pattern) : List (HttpMethod × H) :=
  regs.flatMap (Registration.adds pattern)

def entryFor (regs : List (Registration H)) (pattern : Pattern) : Entry H :=
  .ofHistory (history regs pattern)

theorem history_concat (regs : List (Registration H)) (reg : Registration H) (pattern : Pattern) :
    history (regs ++ [reg]) pattern = history regs pattern ++ reg.adds pattern := by
  rw [history, flatMap_append, flatMap_singleton]
  rfl

theorem history_other (other : ¬ (reg.pattern = pattern ∧ .invalid ∉ reg.methods))
    (regs : List (Registration H)) : history (regs ++ [reg]) pattern = history regs pattern := by
  rw [history_concat, Registration.adds, if_neg other, append_nil]

theorem entryFor_other (other : ¬ (reg.pattern = pattern ∧ .invalid ∉ reg.methods))
    (regs : List (Registration H)) : entryFor (regs ++ [reg]) pattern = entryFor regs pattern :=
  congrArg ofHistory (history_other other regs)

theorem entryFor_added (same : reg.pattern = pattern) (valid : .invalid ∉ reg.methods)
    (regs : List (Registration H)) : entryFor (regs ++ [reg]) pattern
      = (entryFor regs pattern).addMethods reg.methods reg.handler := by
  rw [entryFor, history_concat, Registration.adds, if_pos ⟨same, valid⟩]
  exact ofHistory_append ..

theorem entryFor_nil (none : history regs pattern = []) :
    entryFor regs pattern = ({} : Entry H) := by
  rw [entryFor, none]
  rfl

namespace HttpRouter

def register (router : HttpRouter H) (call : RouteCall H) : HttpRouter H :=
  match router.addRoute call.path call.methods call.handler with
  | .ok router => router
  | .error _ => router

def apply (router : HttpRouter H) : Registration H → HttpRouter H
  | .route call => router.register call
  | .regex pattern regex methods handler =>
    match router.addRouteRegex pattern regex methods handler with
    | .ok router => router
    | .error _ => router

def serve (regs : List (Registration H)) : HttpRouter H := regs.foldl apply {}

theorem register_invalid (invalid : .invalid ∈ call.methods) (router : HttpRouter H) :
    router.register call = router := by
  rw [register, addRoute, if_pos invalid]

theorem register_radix (valid : .invalid ∉ call.methods) (radix : isRadix call.path)
    (router : HttpRouter H) : router.register call = { router with
      radixRoot := router.radixRoot.insertKey (fun entry => entry.addMethods call.methods call.handler)
        (keyOf (pathSegments call.path)) } := by
  rw [register, addRoute, if_neg valid, ← RadixNode.insert_eq]
  exact if_pos radix

theorem register_exact (valid : .invalid ∉ call.methods) (exact : ¬ isRadix call.path)
    (router : HttpRouter H) :
    router.register call = if call.methods = [] then router else { router with
      exactRoutes := OrderedMap.insertOrAssign call.path
        (((router.exactRoutes.lookup call.path).getD {}).addMethods call.methods call.handler)
        router.exactRoutes } := by
  rw [register, addRoute, if_neg valid]
  exact if_neg exact

section Regex
variable {pattern : Bytes} {regex : Bytes → Option (List Bytes)} {methods : List HttpMethod}
  {handler : H} {routes : List (RegexEntry H)}

theorem map_addRegexTo : (addRegexTo pattern regex methods handler routes).map (·.pattern)
      = if pattern ∈ routes.map (·.pattern) then routes.map (·.pattern)
        else routes.map (·.pattern) ++ [pattern] := by
  induction routes with
  | nil => rfl
  | cons r routes ih =>
    rw [addRegexTo]
    by_cases same : r.pattern = pattern
    · simp [same]
    rw [if_neg same, map_cons, ih]
    by_cases known : pattern ∈ routes.map (·.pattern)
    · rw [if_pos known, map_cons, if_pos (mem_cons_of_mem _ known)]
    · rw [if_neg known, map_cons,
        if_neg (not_mem_cons_of_ne_of_not_mem (Ne.symm same) known), cons_append]

theorem entry_addRegexTo (entries : Bytes → Entry H) (distinct : (routes.map (·.pattern)).Nodup)
    (known : ∀ r ∈ routes, r.entry = entries r.pattern)
    (unknown : pattern ∉ routes.map (·.pattern) → entries pattern = {}) :
    ∀ r ∈ addRegexTo pattern regex methods handler routes,
      r.entry = if r.pattern = pattern then (entries pattern).addMethods methods handler
        else entries r.pattern := by
  induction routes with
  | nil =>
    intro r mem
    obtain rfl := mem_singleton.mp mem
    simp [unknown not_mem_nil]
  | cons first routes ih =>
    intro r mem
    obtain ⟨fresh, distinct⟩ := nodup_cons.mp distinct
    rw [addRegexTo] at mem
    by_cases same : first.pattern = pattern
    · rw [if_pos same] at mem
      rcases mem_cons.mp mem with rfl | mem
      · simp [same, known first mem_cons_self]
      have other : r.pattern ≠ pattern := by
        intro again
        exact fresh (mem_map.mpr ⟨r, mem, again.trans same.symm⟩)
      rw [if_neg other]
      exact known r (mem_cons_of_mem _ mem)
    · rw [if_neg same] at mem
      rcases mem_cons.mp mem with rfl | mem
      · rw [if_neg same]
        exact known _ mem_cons_self
      · refine ih distinct (fun r mem => known r (mem_cons_of_mem _ mem)) ?_ r mem
        intro absent
        exact unknown (not_mem_cons_of_ne_of_not_mem (Ne.symm same) absent)

end Regex

structure Served (regs : List (Registration H)) (router : HttpRouter H) : Prop where
  ordered : router.radixRoot.Ordered
  radix : ∀ key, router.radixRoot.entryAt key = entryFor regs (.radix key)
  exact : ∀ path, router.exactRoutes.lookup path
    = if history regs (.exact path) = [] then none else some (entryFor regs (.exact path))
  distinct : (router.regexRoutes.map (·.pattern)).Nodup
  regex : ∀ r ∈ router.regexRoutes, r.entry = entryFor regs (.regex r.pattern)
  absent : ∀ pattern, pattern ∉ router.regexRoutes.map (·.pattern) →
    history regs (.regex pattern) = []

section Step
variable {regs : List (Registration H)} {router : HttpRouter H}

section
variable (served : Served regs router)
include served

theorem Served.radix_apart
    (apart : ∀ key, ¬ (reg.pattern = .radix key ∧ .invalid ∉ reg.methods)) (key : List Segment) :
    router.radixRoot.entryAt key = entryFor (regs ++ [reg]) (.radix key) := by
  rw [entryFor_other (apart key), served.radix]

theorem Served.exact_apart
    (apart : ∀ path, ¬ (reg.pattern = .exact path ∧ .invalid ∉ reg.methods)) (path : Bytes) :
    router.exactRoutes.lookup path
      = if history (regs ++ [reg]) (.exact path) = [] then none
        else some (entryFor (regs ++ [reg]) (.exact path)) := by
  rw [entryFor_other (apart path), history_other (apart path), served.exact]

theorem Served.regex_apart
    (apart : ∀ pattern, ¬ (reg.pattern = .regex pattern ∧ .invalid ∉ reg.methods)) :
    (∀ r ∈ router.regexRoutes, r.entry = entryFor (regs ++ [reg]) (.regex r.pattern)) ∧
      ∀ pattern, pattern ∉ router.regexRoutes.map (·.pattern) →
        history (regs ++ [reg]) (.regex pattern) = [] := by
  constructor
  · intro r mem
    rw [entryFor_other (apart _), served.regex r mem]
  · intro pattern absent
    rw [history_other (apart _), served.absent pattern absent]

theorem Served.invalid (invalid : .invalid ∈ reg.methods) : Served (regs ++ [reg]) router := by
  have other : ∀ pattern, ¬ (reg.pattern = pattern ∧ .invalid ∉ reg.methods) :=
    fun _ adds => adds.2 invalid
  obtain ⟨regex, absent⟩ := served.regex_apart fun _ => other _
  exact ⟨served.ordered, served.radix_apart fun _ => other _, served.exact_apart fun _ => other _,
    served.distinct, regex, absent⟩

theorem Served.radix_call (valid : .invalid ∉ call.methods) (radix : isRadix call.path) :
    Served (regs ++ [.route call]) (router.register call) := by
  have stored : (Registration.route call).pattern = .radix (keyOf (pathSegments call.path)) :=
    if_pos radix
  have other : ∀ pattern, pattern ≠ .radix (keyOf (pathSegments call.path)) →
      ¬ ((Registration.route call).pattern = pattern ∧ .invalid ∉ call.methods) := by
    rintro pattern differ ⟨same, _⟩
    exact differ (same.symm.trans stored)
  obtain ⟨regex, absent⟩ := served.regex_apart fun pattern => other (.regex pattern) nofun
  rw [register_radix valid radix]
  refine ⟨served.ordered.insertKey _, ?_, served.exact_apart fun path => other (.exact path) nofun,
    served.distinct, regex, absent⟩
  intro key
  rw [RadixNode.entryAt_insertKey, served.radix]
  by_cases same : key = keyOf (pathSegments call.path)
  · rw [if_pos same, same]
    exact (entryFor_added stored valid regs).symm
  · rw [if_neg same, entryFor_other (other _ (by rintro ⟨⟩; exact same rfl))]

theorem Served.exact_call (valid : .invalid ∉ call.methods) (exact : ¬ isRadix call.path) :
    Served (regs ++ [.route call]) (router.register call) := by
  have stored : (Registration.route call).pattern = .exact call.path := if_neg exact
  have other : ∀ pattern, pattern ≠ .exact call.path →
      ¬ ((Registration.route call).pattern = pattern ∧ .invalid ∉ call.methods) := by
    rintro pattern differ ⟨same, _⟩
    exact differ (same.symm.trans stored)
  have adds : history (regs ++ [.route call]) (.exact call.path)
      = history regs (.exact call.path) ++ call.methods.map (·, call.handler) := by
    rw [history_concat, Registration.adds, if_pos ⟨stored, valid⟩]
    rfl
  have radix := served.radix_apart fun key => other (.radix key) nofun
  obtain ⟨regex, absent⟩ := served.regex_apart fun pattern => other (.regex pattern) nofun
  have kept : (router.register call).radixRoot = router.radixRoot ∧
      (router.register call).regexRoutes = router.regexRoutes := by
    rw [register_exact valid exact]
    split
    · exact ⟨rfl, rfl⟩
    · exact ⟨rfl, rfl⟩
  refine ⟨kept.1 ▸ served.ordered, kept.1 ▸ radix, ?_, kept.2 ▸ served.distinct, kept.2 ▸ regex,
    kept.2 ▸ absent⟩
  · intro path
    rw [register_exact valid exact]
    by_cases same : path = call.path
    · subst same
      rw [adds]
      by_cases none : call.methods = []
      · rw [none, map_nil, append_nil] at adds
        rw [if_pos none, served.exact, none, map_nil, append_nil, entryFor, entryFor, adds]
      have added := entryFor_added stored valid regs
      rw [if_neg none, if_neg (by simp [none]), added]
      simp only [lookup_insertOrAssign, BEq.rfl, if_true, served.exact]
      split
      · rename_i bare
        rw [entryFor_nil bare]
        rfl
      · rfl
    · rw [entryFor_other (other _ (by rintro ⟨⟩; exact same rfl)),
        history_other (other _ (by rintro ⟨⟩; exact same rfl)), ← served.exact]
      split
      · rfl
      · rw [lookup_insertOrAssign, if_neg (by simpa using same)]

theorem Served.regex_call {compiled : Bytes → Option (List Bytes)} (valid : .invalid ∉ methods) :
    Served (regs ++ [.regex pattern compiled methods handler])
      (router.apply (.regex pattern compiled methods handler)) := by
  have other : ∀ differ, differ ≠ .regex pattern →
      ¬ ((Registration.regex pattern compiled methods handler).pattern = differ ∧
        .invalid ∉ methods) := by
    rintro _ differ ⟨same, _⟩
    exact differ same.symm
  rw [apply, addRouteRegex, if_neg valid]
  refine ⟨served.ordered, served.radix_apart fun key => other (.radix key) nofun,
    served.exact_apart fun path => other (.exact path) nofun, ?_, ?_, ?_⟩
  · rw [map_addRegexTo]
    split
    · exact served.distinct
    · rename_i fresh
      exact nodup_append'.mpr ⟨served.distinct, nodup_singleton _, disjoint_singleton.mpr fresh⟩
  · intro r mem
    rw [entry_addRegexTo (fun text => entryFor regs (.regex text)) served.distinct served.regex
      (fun absent => entryFor_nil (served.absent pattern absent)) r mem]
    by_cases same : r.pattern = pattern
    · rw [if_pos same, same]
      have valid' : .invalid ∉ (Registration.regex pattern compiled methods handler).methods := valid
      exact (entryFor_added rfl valid' regs).symm
    · rw [if_neg same]
      exact (entryFor_other (other _ (by rintro ⟨⟩; exact same rfl)) regs).symm
  · intro text absent
    rw [map_addRegexTo] at absent
    have differ : text ≠ pattern := by
      rintro rfl
      split at absent
      · contradiction
      · exact absent (mem_append_right _ mem_cons_self)
    rw [history_other (other _ (by rintro ⟨⟩; exact differ rfl))]
    apply served.absent text
    split at absent
    · exact absent
    · exact fun mem => absent (mem_append_left _ mem)

theorem Served.apply (reg : Registration H) : Served (regs ++ [reg]) (router.apply reg) := by
  by_cases invalid : .invalid ∈ reg.methods
  · have same : router.apply reg = router := by
      cases reg with
      | route call => exact register_invalid invalid router
      | regex pattern regex methods handler =>
        rw [HttpRouter.apply, addRouteRegex, if_pos (show .invalid ∈ methods from invalid)]
    rw [same]
    exact served.invalid invalid
  · cases reg with
    | regex pattern regex methods handler => exact served.regex_call invalid
    | route call =>
      by_cases radix : isRadix call.path
      · exact served.radix_call invalid radix
      · exact served.exact_call invalid radix

end

end Step

theorem served_serve (regs : List (Registration H)) : Served regs (serve regs) := by
  induction regs using List.reverseRecOn with
  | nil =>
    exact ⟨RadixNode.ordered_empty, fun key => RadixNode.entryAt_empty key, fun _ => rfl,
      nodup_nil, fun _ mem => absurd mem not_mem_nil, fun _ _ => rfl⟩
  | append_singleton regs reg ih =>
    rw [serve, foldl_append]
    exact ih.apply reg

def selected (router : HttpRouter H) (path : Bytes) : Option Pattern :=
  if kMaxPathLength < path.length then none
  else if (router.exactRoutes.lookup path).isSome then some (.exact path)
  else
    match router.radixRoot.candidates (kMaxPathSegments + 1) (splitPath path) with
    | key :: _ => some (.radix key)
    | [] =>
      (router.regexRoutes.find? fun r => (r.regex path).isSome).map fun r => .regex r.pattern

section Selected
variable {regs : List (Registration H)} {router : HttpRouter H} {path : Bytes}

theorem matchRadix_of_nil
    (none : router.radixRoot.candidates (kMaxPathSegments + 1) (splitPath path) = []) :
    router.matchRadix path = Option.none := by
  cases found : router.matchRadix path with
  | none => rfl
  | some hit =>
    have failed := (RadixNode.matchRadix_none _ _ _ [] none).1
    rw [matchRadix_eq_some.mp found] at failed
    cases failed

theorem matchRadix_of_cons (ordered : router.radixRoot.Ordered)
    (found : router.radixRoot.candidates (kMaxPathSegments + 1) (splitPath path) = key :: more) :
    ∃ params, router.matchRadix path = some (router.radixRoot.entryAt key, params) ∧
      RadixNode.values params = RadixNode.replay (kMaxPathSegments + 1) router.radixRoot key
        (splitPath path) (fun _ => none) := by
  obtain ⟨entry, left⟩ := RadixNode.matchRadix_cons _ ordered path found []
  exact ⟨_, matchRadix_eq_some.mpr (Prod.ext entry rfl), left⟩

theorem matchRegex_eq (routes : List (RegexEntry H)) :
    matchRegex path routes = (routes.find? fun r => (r.regex path).isSome).map fun r =>
      (r.entry, groupParams ((r.regex path).getD [])) := by
  induction routes with
  | nil => rfl
  | cons r routes ih =>
    rw [matchRegex, List.findSome?_cons, List.find?_cons]
    cases found : r.regex path with
    | none => exact ih
    | some groups => simp [found]

theorem Served.route_selected (served : Served regs router) (path : Bytes) :
    (router.selected path = none ∧ ∀ method, router.route method path = {}) ∨
      ∃ pattern params, router.selected path = some pattern ∧ ∀ method,
        router.route method path = { lookupMethod method (entryFor regs pattern) with params } := by
  unfold selected route
  by_cases long : kMaxPathLength < path.length
  · left
    simp only [if_pos long, implies_true, and_self]
  simp only [if_neg long]
  cases exact : router.exactRoutes.lookup path with
  | some entry =>
    right
    refine ⟨.exact path, [], rfl, ?_⟩
    rw [served.exact] at exact
    split at exact
    · cases exact
    cases exact
    intro method
    simp only [lookupMethod]
    split <;> rfl
  | none =>
    cases found : router.radixRoot.candidates (kMaxPathSegments + 1) (splitPath path) with
    | cons key more =>
      obtain ⟨params, hit, _⟩ := matchRadix_of_cons served.ordered found
      right
      refine ⟨.radix key, params, rfl, ?_⟩
      intro method
      simp only [hit, served.radix]
    | nil =>
      simp only [matchRadix_of_nil found, matchRegex_eq]
      cases first : router.regexRoutes.find? fun r => (r.regex path).isSome with
      | none => exact .inl ⟨rfl, fun _ => rfl⟩
      | some r =>
        right
        refine ⟨.regex r.pattern, groupParams ((r.regex path).getD []), rfl, ?_⟩
        intro method
        simp only [Option.map_some, served.regex r (mem_of_find?_eq_some first)]

end Selected

theorem lookupMethod_handler (method : HttpMethod) (entry : Entry H) :
    (lookupMethod method entry).handler = entry.handlers.lookup method := by
  unfold lookupMethod
  cases entry.handlers.lookup method <;> rfl

/-- A method that the entry lists is answered, any other one gets the list. -/
theorem lookupMethod_listed (listed : entry.Listed) (method : HttpMethod) :
    method ∈ entry.allowedMethods ∧ (lookupMethod method entry).reason = .ok ∨
      method ∉ entry.allowedMethods ∧ (lookupMethod method entry).reason = .methodNotAllowed ∧
        (lookupMethod method entry).allowedMethods = entry.allowedMethods := by
  rw [listed.mem_iff]
  unfold lookupMethod
  cases entry.handlers.lookup method with
  | none => exact .inr ⟨by simp, rfl, rfl⟩
  | some handler => exact .inl ⟨rfl, rfl⟩

/-- The answers for a path are those of one route, which lists each of its methods once. -/
theorem route_consistent (regs : List (Registration H)) (path : Bytes) :
    (∀ method, ((serve regs).route method path).reason = .notFound) ∨
      ∃ pattern allowed, (serve regs).selected path = some pattern ∧ allowed.Nodup ∧
        (∀ method, method ∈ allowed ↔ Serves (history regs pattern) method) ∧
        ∀ method, (((serve regs).route method path).reason = .ok ↔ method ∈ allowed) ∧
          (((serve regs).route method path).reason ≠ .ok →
            ((serve regs).route method path).reason = .methodNotAllowed ∧
              ((serve regs).route method path).allowedMethods = allowed) := by
  rcases (served_serve regs).route_selected path with ⟨_, none⟩ | ⟨pattern, params, one⟩
  · left
    intro method
    rw [none]
  right
  obtain ⟨selects, answers⟩ := one
  have listed := listed_ofHistory (history regs pattern)
  refine ⟨pattern, (entryFor regs pattern).allowedMethods, selects, listed.nodup,
    mem_allowedMethods_iff _, ?_⟩
  intro method
  rw [answers]
  rcases lookupMethod_listed listed method with ⟨mem, ok⟩ | ⟨absent, refused, allowed⟩
  · exact ⟨iff_of_true ok mem, fun failed => absurd ok failed⟩
  · refine ⟨iff_of_false ?_ absent, fun _ => ⟨refused, allowed⟩⟩
    intro ok
    cases refused.symm.trans ok

/-- HEAD is served by its own handler or by the one for GET unless GET got another handler after its
first one. -/
theorem head_handler_iff (regs : List (Registration H)) (path : Bytes) (pattern : Pattern)
    (selects : (serve regs).selected path = some pattern) : ((serve regs).route .head path).handler
        = (lastFor .head (history regs pattern)).or ((serve regs).route .get path).handler ↔
      (lastFor .head (history regs pattern)).isSome ∨
        firstFor .get (history regs pattern) = lastFor .get (history regs pattern) := by
  rcases (served_serve regs).route_selected path with ⟨none, _⟩ | ⟨found, params, same, answers⟩
  · cases none.symm.trans selects
  obtain rfl : found = pattern := Option.some.inj (same.symm.trans selects)
  rw [answers, answers]
  have head := lookupMethod_handler .head (entryFor regs found)
  have get := lookupMethod_handler .get (entryFor regs found)
  rw [entryFor, lookup_head_ofHistory] at head
  rw [entryFor, lookup_ofHistory _ (by decide)] at get
  simp only [entryFor, head, get]
  cases lastFor .head (history regs found) with
  | none => simp
  | some handler => simp

def replacedGet : List (Registration Nat) :=
  [.route ⟨ascii "/a", [.get], 1⟩, .route ⟨ascii "/a", [.get], 2⟩]

theorem head_handler_replaced : ((serve replacedGet).route .get (ascii "/a")).handler = some 2 ∧
      ((serve replacedGet).route .head (ascii "/a")).handler = some 1 ∧
      lastFor .head (history replacedGet (.exact (ascii "/a"))) = none := by
  decide +kernel

def explicitHead : List (Registration Nat) :=
  [.route ⟨ascii "/a", [.get], 1⟩, .route ⟨ascii "/a", [.head], 2⟩]

theorem head_handler_iff_explicit : ((serve explicitHead).route .head (ascii "/a")).handler
        = (lastFor .head (history explicitHead (.exact (ascii "/a")))).or
          ((serve explicitHead).route .get (ascii "/a")).handler :=
  (head_handler_iff explicitHead (ascii "/a") (.exact (ascii "/a")) (by decide +kernel)).mpr
    (.inl (by decide +kernel))

end HttpRouter

theorem Entry.handlers_ofHistory (history : List (HttpMethod × H)) :
    (ofHistory history).handlers = [] ↔ history = [] := by
  constructor
  · intro none
    cases history with
    | nil => rfl
    | cons added history =>
      have serves : Serves (added :: history) added.1 := .inl mem_cons_self
      rw [← mem_allowedMethods_iff, (listed_ofHistory _).listed, none] at serves
      cases serves
  · rintro rfl
    rfl

theorem exists_registration {regs : List (Registration H)}
    (registered : history regs pattern ≠ []) : ∃ reg ∈ regs, reg.pattern = pattern := by
  obtain ⟨added, mem⟩ := exists_mem_of_ne_nil _ registered
  obtain ⟨reg, among, mem⟩ := mem_flatMap.mp mem
  refine ⟨reg, among, ?_⟩
  rw [Registration.adds] at mem
  split at mem
  · rename_i same
    exact same.1
  · cases mem

theorem wildLast_of_registered {regs : List (Registration H)}
    (registered : history regs (.radix key) ≠ []) : WildLast key := by
  obtain ⟨reg, _, stored⟩ := exists_registration registered
  cases reg with
  | regex => cases stored
  | route call =>
    rw [Registration.pattern] at stored
    split at stored
    · cases stored
      exact wildLast_keyOf _
    · cases stored

end Nitrocoro.Http
