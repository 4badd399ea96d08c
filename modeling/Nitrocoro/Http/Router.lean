import Nitrocoro.Http.Header

/-! `HttpRouter`: exact routes, a radix tree over the segments of a path for routes with parameters
and wildcards, and regular expressions. What a handler is, is left open, and a compiled regular
expression is a function to its capture groups. -/
namespace Nitrocoro.Http
open Text OrderedMap

/-- `nextSegment` at the beginning of `path`: the segment and what follows it. -/
def nextSegment : Bytes → Bytes × Bytes
  | [] => ([], [])
  | c :: rest =>
    let text := if c = 47 then rest else c :: rest
    (text.takeWhile (· ≠ 47), text.dropWhile (· ≠ 47))

def visitSegments : Nat → Bytes → List Bytes
  | 0, _ => []
  | n + 1, path =>
    match nextSegment path with
    | ([], _) => []
    | (seg, rest) => seg :: visitSegments n rest

/-- The segments that a loop over `nextSegment` sees until it gets an empty one. -/
def pathSegments (path : Bytes) : List Bytes := visitSegments path.length path

abbrev PathParams := List (Bytes × Bytes)

instance : LT HttpMethod := ⟨fun a b => a.id < b.id⟩

instance : DecidableLT HttpMethod := fun a b => inferInstanceAs (Decidable (a.id < b.id))

/-- The handlers of a route. The methods that `allowedMethods` spells out are in the order of
their numbers here; the order of the source's hash table is unspecified. -/
structure Entry (H : Type) where
  handlers : List (HttpMethod × H) := []
  allowedMethods : List HttpMethod := []

def Entry.addMethod (handler : H) (entry : Entry H) (method : HttpMethod) : Entry H :=
  let handlers := insertOrAssign method handler entry.handlers
  let handlers :=
    if method = .get ∧ handlers.lookup .head = none then
      insertOrAssign .head handler handlers
    else handlers
  { handlers, allowedMethods := handlers.map Prod.fst }

def Entry.addMethods (methods : List HttpMethod) (handler : H) (entry : Entry H) : Entry H :=
  methods.foldl (Entry.addMethod handler) entry

/-- A node with its entry, and its children by segment, by parameter name and by wildcard name. -/
inductive RadixNode (H : Type) where
  | mk (entry : Entry H) (children paramChildren wildcardChildren : List (Bytes × RadixNode H))

namespace RadixNode
variable {H : Type}

def empty : RadixNode H := .mk {} [] [] []

def entry : RadixNode H → Entry H
  | .mk entry _ _ _ => entry

def child (name : Bytes) (nodes : List (Bytes × RadixNode H)) : RadixNode H :=
  (nodes.lookup name).getD empty

def addHere (add : Entry H → Entry H) : RadixNode H → RadixNode H
  | .mk entry children params wilds => .mk (add entry) children params wilds

/-- `insertRadix` along the segments of a path; a wildcard ends it. -/
def insert (add : Entry H → Entry H) : List Bytes → RadixNode H → RadixNode H
  | [], node => node.addHere add
  | seg :: segs, .mk entry children params wilds =>
    if seg.head? = some 58 then
      let name := seg.drop 1
      .mk entry children
        (insertOrAssign name (insert add segs (child name params)) params) wilds
    else if seg.head? = some 42 then
      let name := seg.drop 1
      .mk entry children params
        (insertOrAssign name ((child name wilds).addHere add) wilds)
    else
      .mk entry (insertOrAssign seg (insert add segs (child seg children)) children)
        params wilds

def matchParams (descend : RadixNode H → PathParams → Option (Entry H) × PathParams) (seg : Bytes) :
    List (Bytes × RadixNode H) → PathParams → Option (Entry H) × PathParams
  | [], params => (none, params)
  | (pname, pnode) :: more, params =>
    match descend pnode (insertOrAssign pname seg params) with
    | (some entry, params) => (some entry, params)
    | (none, params) => matchParams descend seg more (erase pname params)

def matchWild (value : Bytes) (wilds : List (Bytes × RadixNode H)) (params : PathParams) :
    Option (Entry H × PathParams) :=
  (wilds.find? fun wild => !wild.2.entry.handlers.isEmpty).map fun wild =>
    (wild.2.entry, insertOrAssign wild.1 value params)

/-- `matchRadix`, with the number of levels that are left before `depth` exceeds its bound. -/
def matchRadix : Nat → RadixNode H → Bytes → PathParams → Option (Entry H) × PathParams
  | 0, _, _, params => (none, params)
  | levels + 1, .mk entry children paramChildren wildcardChildren, path, params =>
    match nextSegment path with
    | ([], _) =>
      match matchWild [] wildcardChildren params with
      | some (entry, params) => (some entry, params)
      | none => (if entry.handlers.isEmpty then none else some entry, params)
    | (seg, rest) =>
      let static := match children.lookup seg with
        | some child => matchRadix levels child rest params
        | none => (none, params)
      match static with
      | (some entry, params) => (some entry, params)
      | (none, params) =>
        match matchParams (fun node params => matchRadix levels node rest params) seg
            paramChildren params with
        | (some entry, params) => (some entry, params)
        | (none, params) =>
          match matchWild (seg ++ rest) wildcardChildren params with
          | some (entry, params) => (some entry, params)
          | none => (none, params)

end RadixNode

inductive RouteReason where
  | ok
  | notFound
  | methodNotAllowed
  deriving DecidableEq

/-- A route by a regular expression, compiled to the function that gives the capture groups. -/
structure RegexEntry (H : Type) where
  pattern : Bytes
  regex : Bytes → Option (List Bytes)
  entry : Entry H

structure HttpRouter (H : Type) where
  exactRoutes : List (Bytes × Entry H) := []
  radixRoot : RadixNode H := .empty
  regexRoutes : List (RegexEntry H) := []

namespace HttpRouter
variable {H : Type}

structure RouteResult (H : Type) where
  handler : Option H := none
  params : PathParams := []
  reason : RouteReason := .notFound
  allowedMethods : List HttpMethod := []

def kMaxPathLength : Nat := 2048
def kMaxPathSegments : Nat := 32

def isParamOrWild (p : Bytes) (c : UInt8) : Bool := p.head? = some c || (find [47, c] p).isSome

def isRadix (path : Bytes) : Bool := isParamOrWild path 58 || isParamOrWild path 42

def addRouteImpl (path : Bytes) (methods : List HttpMethod) (handler : H) (router : HttpRouter H) :
    HttpRouter H :=
  if isRadix path then
    { router with
      radixRoot := router.radixRoot.insert (Entry.addMethods methods handler) (pathSegments path) }
  else if methods = [] then router
  else
    let entry := (router.exactRoutes.lookup path).getD {}
    { router with exactRoutes :=
        insertOrAssign path (entry.addMethods methods handler) router.exactRoutes }

def addRoute (path : Bytes) (methods : List HttpMethod) (handler : H) (router : HttpRouter H) :
    Except Exn (HttpRouter H) :=
  if .invalid ∈ methods then .error .invalidArgument
  else .ok (router.addRouteImpl path methods handler)

def addRegexTo (pattern : Bytes) (regex : Bytes → Option (List Bytes)) (methods : List HttpMethod)
    (handler : H) : List (RegexEntry H) → List (RegexEntry H)
  | [] => [{ pattern, regex, entry := Entry.addMethods methods handler {} }]
  | r :: routes =>
    if r.pattern = pattern then { r with entry := r.entry.addMethods methods handler } :: routes
    else r :: addRegexTo pattern regex methods handler routes

def addRouteRegex (pattern : Bytes) (regex : Bytes → Option (List Bytes)) (methods : List HttpMethod)
    (handler : H) (router : HttpRouter H) : Except Exn (HttpRouter H) :=
  if .invalid ∈ methods then .error .invalidArgument
  else .ok { router with
    regexRoutes := addRegexTo pattern regex methods handler router.regexRoutes }

def lookupMethod (method : HttpMethod) (entry : Entry H) : RouteResult H :=
  match entry.handlers.lookup method with
  | some handler => { handler := some handler, reason := .ok }
  | none => { reason := .methodNotAllowed, allowedMethods := entry.allowedMethods }

/-- `$1`, `$2` and so on. -/
def groupParams (groups : List Bytes) : PathParams :=
  groups.zipIdx.foldl (fun params group =>
    insertOrAssign (36 :: Numeral.print 10 (group.2 + 1)) group.1 params) []

/-- The match of a path in the radix tree. -/
def matchRadix (router : HttpRouter H) (path : Bytes) : Option (Entry H × PathParams) :=
  match router.radixRoot.matchRadix (kMaxPathSegments + 1) path [] with
  | (some entry, params) => some (entry, params)
  | (none, _) => none

def matchRegex (path : Bytes) (routes : List (RegexEntry H)) : Option (Entry H × PathParams) :=
  routes.findSome? fun r => (r.regex path).map fun groups => (r.entry, groupParams groups)

def route (router : HttpRouter H) (method : HttpMethod) (path : Bytes) : RouteResult H :=
  if kMaxPathLength < path.length then {}
  else match router.exactRoutes.lookup path with
    | some entry => lookupMethod method entry
    | none =>
      match router.matchRadix path with
      | some (entry, params) => { lookupMethod method entry with params }
      | none =>
        match matchRegex path router.regexRoutes with
        | some (entry, params) => { lookupMethod method entry with params }
        | none => {}

end HttpRouter
end Nitrocoro.Http
