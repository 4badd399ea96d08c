import Mathlib.Data.List.TakeWhile
import Nitrocoro.Http.Router

/-! What the radix tree of a router matches, against the reading of paths and patterns as lists of
segments. -/
namespace Nitrocoro.Http
open List OrderedMap
open Text (Bytes ascii splitOn_append splitOn_single)

def pathText : Bytes → Bytes
  | [] => []
  | c :: rest => if c = 47 then rest else c :: rest

def splitPath (path : Bytes) : List Bytes :=
  if path = [] then [] else (pathText path).splitOn 47

theorem nextSegment_eq (path : Bytes) :
    nextSegment path = ((pathText path).takeWhile (· ≠ 47), (pathText path).dropWhile (· ≠ 47)) := by
  cases path <;> rfl

theorem nextSegment_text (path : Bytes) :
    (nextSegment path).1 ++ (nextSegment path).2 = pathText path := by
  rw [nextSegment_eq]
  exact takeWhile_append_dropWhile

theorem splitPath_cons (some : path ≠ []) :
    splitPath path = (nextSegment path).1 :: splitPath (nextSegment path).2 := by
  have text := nextSegment_text path
  have clean : 47 ∉ (nextSegment path).1 := by
    intro mem
    rw [nextSegment_eq] at mem
    simpa using all_eq_true.mp all_takeWhile 47 mem
  have stops : ∀ c more, (nextSegment path).2 = c :: more → c = 47 := by
    intro c more left
    have last := List.head?_dropWhile_not (fun d : UInt8 => decide (d ≠ 47)) (pathText path)
    rw [nextSegment_eq] at left
    rw [show (pathText path).dropWhile _ = c :: more from left] at last
    simpa using last
  rw [splitPath, if_neg some, ← text]
  cases rest : (nextSegment path).2 with
  | nil => rw [append_nil, splitOn_single clean, splitPath, if_pos rfl]
  | cons c more =>
    obtain rfl := stops c more rest
    rw [splitOn_append clean]
    rfl

theorem intercalate_splitPath (path : Bytes) : [47].intercalate (splitPath path) = pathText path := by
  unfold splitPath
  split
  · rename_i empty
    rw [empty]
    rfl
  · exact intercalate_splitOn 47

def segments (path : Bytes) : List Bytes :=
  if (splitPath path).getLast? = some [] then (splitPath path).dropLast else splitPath path

theorem splitPath_segments (path : Bytes) :
    splitPath path = segments path ∨ splitPath path = segments path ++ [[]] := by
  unfold segments
  split
  · rename_i last
    exact .inr (dropLast_append_getLast? [] last).symm
  · exact .inl rfl

theorem nextSegment_shorter (path : Bytes) (seg : (nextSegment path).1 ≠ []) :
    (nextSegment path).2.length < path.length := by
  cases path with
  | nil => exact absurd rfl seg
  | cons c rest =>
    have text := congrArg List.length (nextSegment_text (c :: rest))
    have short : (pathText (c :: rest)).length ≤ (c :: rest).length := by
      simp only [pathText]
      split <;> simp
    have long := length_pos_of_ne_nil seg
    rw [length_append] at text
    omega

theorem visitSegments_eq (enough : path.length ≤ n) :
    visitSegments n path = (splitPath path).takeWhile (· ≠ []) := by
  induction n generalizing path with
  | zero =>
    obtain rfl : path = [] := length_eq_zero_iff.mp (Nat.le_zero.mp enough)
    rfl
  | succ n ih =>
    by_cases some : path = []
    · rw [some]
      rfl
    rw [splitPath_cons some, visitSegments]
    split
    · rename_i found
      rw [found]
      rfl
    rename_i seg rest nonempty found
    have seg_ne : seg ≠ [] := nonempty
    have shorter := nextSegment_shorter path (by rw [found]; exact seg_ne)
    rw [found] at shorter ⊢
    have enough : rest.length ≤ n := Nat.le_of_lt_succ (shorter.trans_le enough)
    rw [takeWhile_cons_of_pos (by simpa using seg_ne), ih enough]

theorem pathSegments_eq (whole : [] ∉ segments path) : pathSegments path = segments path := by
  have keep : ∀ seg ∈ segments path, decide (seg ≠ []) = true := by
    intro seg mem
    rw [decide_eq_true_eq]
    rintro rfl
    exact whole mem
  rw [pathSegments, visitSegments_eq le_rfl]
  rcases splitPath_segments path with same | slash
  · rw [same, takeWhile_eq_self_iff.mpr keep]
  · rw [slash, takeWhile_append_of_pos keep]
    simp

inductive Segment where
  | static (text : Bytes)
  | param (name : Bytes)
  | wild (name : Bytes)
  deriving DecidableEq

def Segment.ofText (seg : Bytes) : Segment :=
  if seg.head? = some 58 then .param (seg.drop 1)
  else if seg.head? = some 42 then .wild (seg.drop 1)
  else .static seg

def Segment.name? : Segment → Option Bytes
  | .static _ => none
  | .param name => some name
  | .wild name => some name

def keyOf : List Bytes → List Segment
  | [] => []
  | seg :: segs =>
    match Segment.ofText seg with
    | .wild name => [.wild name]
    | kind => kind :: keyOf segs

def patternOf (path : Bytes) : List Segment := keyOf (segments path)

namespace RadixNode
variable {H : Type} {node : RadixNode H} {add : Entry H → Entry H}

def next : Segment → RadixNode H → Option (RadixNode H)
  | .static text, .mk _ children _ _ => children.lookup text
  | .param name, .mk _ _ params _ => params.lookup name
  | .wild name, .mk _ _ _ wilds => wilds.lookup name

def at? : List Segment → RadixNode H → Option (RadixNode H)
  | [], node => some node
  | seg :: segs, node => (node.next seg).bind (at? segs)

def entryAt (segs : List Segment) (node : RadixNode H) : Entry H :=
  ((node.at? segs).map entry).getD {}

def modify (f : RadixNode H → RadixNode H) : Segment → RadixNode H → RadixNode H
  | .static text, .mk entry children params wilds =>
    .mk entry (insertOrAssign text (f (child text children)) children) params wilds
  | .param name, .mk entry children params wilds =>
    .mk entry children (insertOrAssign name (f (child name params)) params) wilds
  | .wild name, .mk entry children params wilds =>
    .mk entry children params (insertOrAssign name (f (child name wilds)) wilds)

theorem next_modify (seg kind : Segment) (f : RadixNode H → RadixNode H) :
    (node.modify f kind).next seg
      = if seg = kind then some (f ((node.next kind).getD empty)) else node.next seg := by
  cases node
  cases kind <;> cases seg <;>
    simp [modify, next, child, lookup_insertOrAssign]

@[simp] theorem entry_modify (kind : Segment) (f : RadixNode H → RadixNode H) :
    (node.modify f kind).entry = node.entry := by
  cases node
  cases kind <;> rfl

def insertKey (add : Entry H → Entry H) : List Segment → RadixNode H → RadixNode H
  | [], node => node.addHere add
  | kind :: key, node => node.modify (insertKey add key) kind

theorem insert_eq (segs : List Bytes) (node : RadixNode H) :
    node.insert add segs = node.insertKey add (keyOf segs) := by
  induction segs generalizing node with
  | nil => cases node; rfl
  | cons seg segs ih =>
    have same : insert add segs = insertKey add (keyOf segs) := funext ih
    cases node
    unfold insert keyOf Segment.ofText
    rw [same]
    split
    · rfl
    · split <;> rfl

@[simp] theorem at?_empty_cons : (empty : RadixNode H).at? (seg :: key) = none := by
  cases seg <;> rfl

theorem entryAt_empty (key : List Segment) : (empty : RadixNode H).entryAt key = {} := by
  cases key with
  | nil => rfl
  | cons => rw [entryAt, at?_empty_cons]; rfl

theorem entryAt_cons (seg : Segment) (key : List Segment) :
    node.entryAt (seg :: key) = ((node.next seg).getD empty).entryAt key := by
  rw [entryAt, at?]
  cases node.next seg with
  | none => exact (entryAt_empty key).symm
  | some child => rfl

theorem entryAt_insertKey (key other : List Segment) (node : RadixNode H) :
    (node.insertKey add key).entryAt other
      = if other = key then add (node.entryAt other) else node.entryAt other := by
  induction key generalizing node other with
  | nil =>
    cases node
    cases other with
    | nil => rfl
    | cons seg other => cases seg <;> rfl
  | cons kind key ih =>
    rw [insertKey]
    cases other with
    | nil => simp [entryAt, at?]
    | cons seg other =>
      rw [entryAt_cons, entryAt_cons, next_modify]
      by_cases same : seg = kind
      · subst same
        simp [ih]
      · simp [same]

inductive Ordered : RadixNode H → Prop
  | mk {here : Entry H} {children params wilds : List (Bytes × RadixNode H)}
    (children_sorted : OrderedMap.Sorted children) (params_sorted : OrderedMap.Sorted params)
    (wilds_sorted : OrderedMap.Sorted wilds)
    (below : ∀ seg node, (RadixNode.mk here children params wilds).next seg = some node →
      Ordered node) : Ordered (.mk here children params wilds)

theorem Ordered.next {below : RadixNode H} (ordered : node.Ordered)
    (there : node.next seg = some below) : below.Ordered := by
  cases ordered with
  | mk _ _ _ ordered => exact ordered _ _ there

theorem ordered_empty : (empty : RadixNode H).Ordered := by
  refine .mk .nil .nil .nil ?_
  intro seg child there
  cases seg <;> cases there

theorem Ordered.modify {f : RadixNode H → RadixNode H} (ordered : node.Ordered)
    (kept : ∀ node : RadixNode H, node.Ordered → (f node).Ordered) (kind : Segment) :
    (node.modify f kind).Ordered := by
  have below : ∀ seg child, (node.modify f kind).next seg = some child → child.Ordered := by
    intro seg child there
    rw [next_modify] at there
    split at there
    · cases there
      apply kept
      cases present : node.next kind with
      | none => exact ordered_empty
      | some child => exact ordered.next present
    · exact ordered.next there
  cases ordered with
  | mk children_sorted params_sorted wilds_sorted =>
    cases kind with
    | static text => exact .mk children_sorted.insertOrAssign params_sorted wilds_sorted below
    | param name => exact .mk children_sorted params_sorted.insertOrAssign wilds_sorted below
    | wild name => exact .mk children_sorted params_sorted wilds_sorted.insertOrAssign below

theorem Ordered.insertKey (ordered : node.Ordered) (key : List Segment) :
    (node.insertKey add key).Ordered := by
  induction key generalizing node with
  | nil =>
    cases ordered with
    | mk children_sorted params_sorted wilds_sorted below =>
      refine .mk children_sorted params_sorted wilds_sorted ?_
      intro seg child there
      apply below seg child
      cases seg <;> exact there
  | cons kind key ih => exact ordered.modify (fun _ ordered => ih ordered) kind

end RadixNode

/-- A path follows a pattern segment by segment: `ending` is asked of what is left behind the
pattern, `bound` of what a parameter takes and `captured` of what a wildcard takes. -/
def Follows (ending : List Bytes → Prop) (bound : Bytes → Bytes → Prop)
    (captured : Bytes → List Bytes → Prop) : List Segment → List Bytes → Prop
  | [], pieces => ending pieces
  | .wild name :: _, pieces => captured name pieces
  | .static text :: key, piece :: pieces =>
    piece ≠ [] ∧ piece = text ∧ Follows ending bound captured key pieces
  | .param name :: key, piece :: pieces =>
    piece ≠ [] ∧ bound name piece ∧ Follows ending bound captured key pieces
  | _ :: _, [] => False

def Ended (pieces : List Bytes) : Prop := pieces = [] ∨ pieces = [[]]

def Matches : List Segment → List Bytes → Prop :=
  Follows Ended (fun _ _ => True) (fun _ _ => True)

def Respects (params : PathParams) : List Segment → List Bytes → Prop :=
  Follows Ended (fun name piece => params.lookup name = some piece)
    (fun name pieces => params.lookup name = some ([47].intercalate pieces))

def Stops (pieces : List Bytes) : Prop := pieces.headD [] = []

instance : DecidablePred Stops := fun pieces => inferInstanceAs (Decidable (pieces.headD [] = []))

def Accepts : List Segment → List Bytes → Prop :=
  Follows Stops (fun _ _ => True) (fun _ _ => True)

theorem Follows.mono {ending ending' : List Bytes → Prop} {bound bound' : Bytes → Bytes → Prop}
    {captured captured' : Bytes → List Bytes → Prop} (ends : ∀ pieces, ending pieces → ending' pieces)
    (binds : ∀ name piece, bound name piece → bound' name piece)
    (captures : ∀ name pieces, captured name pieces → captured' name pieces) {key : List Segment}
    {pieces : List Bytes} (follows : Follows ending bound captured key pieces) :
    Follows ending' bound' captured' key pieces := by
  induction key generalizing pieces with
  | nil => exact ends _ follows
  | cons seg key ih =>
    cases seg with
    | wild name => exact captures _ _ follows
    | static text =>
      cases pieces with
      | nil => exact follows
      | cons piece pieces => exact ⟨follows.1, follows.2.1, ih follows.2.2⟩
    | param name =>
      cases pieces with
      | nil => exact follows
      | cons piece pieces => exact ⟨follows.1, binds _ _ follows.2.1, ih follows.2.2⟩

def depth : List Segment → Nat
  | [] => 0
  | .wild _ :: _ => 0
  | _ :: key => depth key + 1

def WildLast : List Segment → Prop
  | [] => True
  | .wild _ :: key => key = []
  | _ :: key => WildLast key

theorem wildLast_keyOf (segs : List Bytes) : WildLast (keyOf segs) := by
  induction segs with
  | nil => trivial
  | cons seg segs ih =>
    rw [keyOf]
    cases Segment.ofText seg with
    | wild name => rfl
    | static | param => exact ih

/-- What the path has behind the segments of the pattern begins with an empty segment and goes
on. -/
def Cut (key : List Segment) (pieces : List Bytes) : Prop :=
  ∃ more, more ≠ [] ∧ pieces.drop (depth key) = [] :: more

variable {pieces : List Bytes} {key : List Segment}

theorem cut_nil_iff (stops : Stops pieces) : ¬ Cut [] pieces ↔ Ended pieces := by
  cases pieces with
  | nil => exact ⟨fun _ => .inl rfl, fun _ ⟨_, _, rest⟩ => by cases rest⟩
  | cons piece more =>
    obtain rfl : piece = [] := stops
    constructor
    · intro whole
      by_cases last : more = []
      · exact .inr (by rw [last])
      · exact absurd ⟨more, last, rfl⟩ whole
    · rintro (none | only) ⟨rest, some, split⟩
      · cases none
      · cases only
        cases split
        exact some rfl

/-- A wildcard takes all that is left of the path unless that begins with an empty segment. -/
theorem captured_iff (name : Bytes) (key : List Segment) (pieces : List Bytes) :
    (if Stops pieces then [] else [47].intercalate pieces) = [47].intercalate pieces ↔
      ¬ Cut (.wild name :: key) pieces := by
  by_cases stops : Stops pieces
  · refine Iff.trans ?_ (cut_nil_iff stops).symm
    rcases pieces with _ | ⟨piece, _ | ⟨next, more⟩⟩
    · exact iff_of_true rfl (.inl rfl)
    · rw [show piece = [] from stops]
      exact iff_of_true rfl (.inr rfl)
    rw [show piece = [] from stops]
    refine iff_of_false ?_ ?_
    · intro none
      cases none
    · rintro (none | only)
      · cases none
      · cases only
  · rw [if_neg stops]
    apply iff_of_true rfl
    rintro ⟨more, _, split⟩
    apply stops
    rw [show pieces = [] :: more from split]
    rfl

/-- Empty segments may only be the last ones in a match. -/
theorem matches_of_accepts (accepts : Accepts key pieces) (whole : [] ∉ pieces.dropLast) :
    Matches key pieces := by
  induction key generalizing pieces with
  | nil =>
    rcases pieces with _ | ⟨piece, _ | ⟨next, more⟩⟩
    · exact .inl rfl
    · exact .inr (by rw [show piece = [] from accepts])
    · exact absurd (by rw [show piece = [] from accepts]; exact mem_cons_self) whole
  | cons seg key ih =>
    have rest : ∀ piece more, pieces = piece :: more → [] ∉ more.dropLast := by
      rintro piece (_ | ⟨next, more⟩) rfl mem
      · cases mem
      · exact whole (mem_cons_of_mem _ mem)
    cases seg with
    | wild name => trivial
    | static | param =>
      cases pieces with
      | nil => cases accepts
      | cons piece more => exact ⟨accepts.1, accepts.2.1, ih accepts.2.2 (rest piece more rfl)⟩

theorem dropLast_splitPath (whole : [] ∉ segments path) : [] ∉ (splitPath path).dropLast := by
  rcases splitPath_segments path with same | slash
  · rw [same]
    exact fun mem => whole (mem_of_mem_dropLast mem)
  · rw [slash, dropLast_concat]
    exact whole

theorem depth_le (accepts : Accepts key pieces) : depth key ≤ (pieces.filter (· ≠ [])).length := by
  induction key generalizing pieces with
  | nil => exact Nat.zero_le _
  | cons seg key ih =>
    cases seg with
    | wild name => exact Nat.zero_le _
    | static | param =>
      cases pieces with
      | nil => cases accepts
      | cons piece more =>
        rw [filter_cons_of_pos (by simpa using accepts.1)]
        exact Nat.succ_le_succ (ih accepts.2.2)

theorem filter_splitPath_le (path : Bytes) :
    ((splitPath path).filter (· ≠ [])).length ≤ (segments path).length := by
  rcases splitPath_segments path with same | slash
  · rw [same]
    exact length_filter_le _ _
  · rw [slash]
    simpa using length_filter_le _ _

namespace RadixNode
variable {H : Type} {node : RadixNode H} {params : PathParams}

def tryNext (first : Option (Entry H) × PathParams)
    (again : PathParams → Option (Entry H) × PathParams) : Option (Entry H) × PathParams :=
  match first with
  | (some entry, params) => (some entry, params)
  | (none, params) => again params

section Search
variable {here : Entry H}
  {children paramChildren wildcardChildren : List (Bytes × RadixNode H)}

theorem stops_splitPath : Stops (splitPath path) ↔ (nextSegment path).1 = [] := by
  by_cases some : path = []
  · rw [some]
    exact ⟨fun _ => rfl, fun _ => rfl⟩
  · rw [splitPath_cons some]
    exact Iff.rfl

def matchStatic (descend : RadixNode H → PathParams → Option (Entry H) × PathParams) (seg : Bytes)
    (children : List (Bytes × RadixNode H)) (params : PathParams) : Option (Entry H) × PathParams :=
  match children.lookup seg with
  | some child => descend child params
  | none => (none, params)

def wildOutcome (value : Bytes) (wilds : List (Bytes × RadixNode H)) (params : PathParams) :
    Option (Entry H) × PathParams :=
  match matchWild value wilds params with
  | some (entry, params) => (some entry, params)
  | none => (none, params)

theorem matchRadix_stops (levels : Nat) (empty : (nextSegment path).1 = []) :
    matchRadix (levels + 1) (mk here children paramChildren wildcardChildren) path params
      = tryNext (wildOutcome [] wildcardChildren params)
          fun params => (if here.handlers.isEmpty then none else some here, params) := by
  cases segment : nextSegment path with
  | mk seg rest =>
    rw [segment] at empty
    subst empty
    rw [matchRadix, segment]
    unfold wildOutcome
    cases matchWild [] wildcardChildren params <;> rfl

theorem matchRadix_goes (levels : Nat) (seg_ne : seg ≠ []) (segment : nextSegment path = (seg, rest)) :
    matchRadix (levels + 1) (mk here children paramChildren wildcardChildren) path params
      = tryNext
          (matchStatic (fun node params => matchRadix levels node rest params) seg children params)
          fun params => tryNext (matchParams (fun node params => matchRadix levels node rest params)
            seg paramChildren params)
            fun params => wildOutcome (seg ++ rest) wildcardChildren params := by
  cases seg with
  | nil => exact absurd rfl seg_ne
  | cons c seg =>
    rw [matchRadix, segment]
    rfl

theorem exists_next (handlers : (node.entryAt (seg :: key)).handlers ≠ []) :
    ∃ below, node.next seg = some below ∧ (below.entryAt key).handlers ≠ [] := by
  rw [entryAt_cons] at handlers
  cases there : node.next seg with
  | none =>
    rw [there, Option.getD_none, entryAt_empty] at handlers
    exact absurd rfl handlers
  | some below =>
    rw [there] at handlers
    exact ⟨below, rfl, handlers⟩

end Search
end RadixNode

theorem HttpRouter.matchRadix_eq_some {router : HttpRouter H} :
    router.matchRadix path = some (entry, params) ↔
      router.radixRoot.matchRadix (kMaxPathSegments + 1) path [] = (some entry, params) := by
  unfold matchRadix
  split
  · rename_i found
    simp [found]
  · rename_i failed
    simp [failed]

end Nitrocoro.Http
