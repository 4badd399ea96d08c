import Nitrocoro.Http.RouterProofs

/-! The search through the radix tree as a list of all matches in the order in which it meets them:
it returns the first one. The parameters of the branches that it has given up before are erased. -/
namespace Nitrocoro.Http
open List OrderedMap
open Text (Bytes ascii)

def forget (names : List Bytes) (f : Bytes → Option Bytes) (name : Bytes) : Option Bytes :=
  if name ∈ names then none else f name

@[simp] theorem forget_nil (f : Bytes → Option Bytes) : forget [] f = f := by
  funext name
  simp [forget]

theorem forget_append (names more : List Bytes) (f : Bytes → Option Bytes) :
    forget (names ++ more) f = forget more (forget names f) := by
  funext name
  by_cases early : name ∈ names <;> by_cases late : name ∈ more <;> simp [forget, early, late]

namespace RadixNode
variable {H : Type} {node below : RadixNode H} {pieces : List Bytes} {params : PathParams}
variable {key : List Segment}

def wildKeys (wilds : List (Bytes × RadixNode H)) : List (List Segment) :=
  (wilds.filter fun wild => !wild.2.entry.handlers.isEmpty).map fun wild => [.wild wild.1]

/-- The patterns that the search accepts, in the order in which it meets them. -/
def candidates : Nat → RadixNode H → List Bytes → List (List Segment)
  | 0, _, _ => []
  | levels + 1, .mk entry children params wilds, pieces =>
    if Stops pieces then wildKeys wilds ++ if entry.handlers.isEmpty then [] else [[]]
    else
      let piece := pieces.headD []
      ((children.lookup piece).toList.flatMap fun child =>
          (candidates levels child pieces.tail).map (.static piece :: ·)) ++
        (params.flatMap fun param =>
          (candidates levels param.2 pieces.tail).map (.param param.1 :: ·)) ++
        wildKeys wilds

def tried : Nat → RadixNode H → List Bytes → List Bytes
  | 0, _, _ => []
  | levels + 1, .mk _ children params _, pieces =>
    if Stops pieces then []
    else
      ((children.lookup (pieces.headD [])).toList.flatMap fun child =>
          tried levels child pieces.tail) ++
        params.flatMap fun param => param.1 :: tried levels param.2 pieces.tail

def triedBefore : Nat → RadixNode H → Segment → List Bytes → List Bytes
  | 0, _, _, _ => []
  | levels + 1, .mk _ children params _, seg, pieces =>
    if Stops pieces then []
    else
      let static := (children.lookup (pieces.headD [])).toList.flatMap fun child =>
        tried levels child pieces.tail
      let among (branches : List (Bytes × RadixNode H)) := branches.flatMap fun param =>
        param.1 :: tried levels param.2 pieces.tail
      match seg with
      | .static _ => []
      | .param name => static ++ among (params.takeWhile (·.1 ≠ name))
      | .wild _ => static ++ among params

def wildValue (pieces : List Bytes) : Bytes := if Stops pieces then [] else [47].intercalate pieces

def replay : Nat → RadixNode H → List Segment → List Bytes → (Bytes → Option Bytes) →
    Bytes → Option Bytes
  | 0, _, _, _, f => f
  | _, _, [], _, f => f
  | levels + 1, node, seg :: key, pieces, f =>
    let f := forget (triedBefore (levels + 1) node seg pieces) f
    let below := (node.next seg).getD empty
    match seg with
    | .static _ => replay levels below key pieces.tail f
    | .param name =>
      replay levels below key pieces.tail (Function.update f name (some (pieces.headD [])))
    | .wild name => Function.update f name (some (wildValue pieces))

def values (params : PathParams) (name : Bytes) : Option Bytes := params.lookup name

theorem values_insert (name value : Bytes) (params : PathParams) :
    values (insertOrAssign name value params)
      = Function.update (values params) name (some value) := by
  funext other
  simp [values, lookup_insertOrAssign, Function.update_apply]

theorem values_erase (name : Bytes) (params : PathParams) :
    values (erase name params) = forget [name] (values params) := by
  funext other
  simp [values, lookup_erase, forget]

section Search
variable {here : Entry H} {children paramChildren wildcardChildren : List (Bytes × RadixNode H)}

theorem wildOutcome_nil (none : wildKeys wildcardChildren = []) (value : Bytes) :
    wildOutcome value wildcardChildren params = (Option.none, params) := by
  have empty : wildcardChildren.find? (fun wild => !wild.2.entry.handlers.isEmpty) = Option.none := by
    rw [← List.head?_filter, map_eq_nil_iff.mp none]
    rfl
  simp only [wildOutcome, matchWild, empty, Option.map_none]

theorem wildOutcome_cons (found : wildKeys wildcardChildren = key :: more)
    (sorted : OrderedMap.Sorted wildcardChildren) (value : Bytes) :
    ∃ name below, key = [.wild name] ∧ wildcardChildren.lookup name = some below ∧ ∀ params,
      (wildOutcome value wildcardChildren params).1 = some below.entry ∧
        values (wildOutcome value wildcardChildren params).2
          = Function.update (values params) name (some value) := by
  obtain ⟨⟨name, below⟩, rest, first, rfl, -⟩ := map_eq_cons_iff.mp found
  have hit : wildcardChildren.find? (fun wild => !wild.2.entry.handlers.isEmpty)
      = some (name, below) := by
    rw [← List.head?_filter, first]
    rfl
  have there : wildcardChildren.lookup name = some below :=
    sorted.lookup_of_mem (mem_of_find?_eq_some hit)
  refine ⟨name, below, rfl, there, ?_⟩
  intro params
  simp only [wildOutcome, matchWild, hit, Option.map_some, true_and]
  exact values_insert ..

def Fails (descend : RadixNode H → PathParams → Option (Entry H) × PathParams)
    (lost : RadixNode H → List Bytes) (node : RadixNode H) : Prop :=
  ∀ params, (descend node params).1 = none ∧
    values (descend node params).2 = forget (lost node) (values params)

theorem matchStatic_none {descend : RadixNode H → PathParams → Option (Entry H) × PathParams}
    {lost : RadixNode H → List Bytes} {children : List (Bytes × RadixNode H)}
    (fails : ∀ child, children.lookup seg = some child → Fails descend lost child)
    (params : PathParams) : (matchStatic descend seg children params).1 = none ∧
      values (matchStatic descend seg children params).2
        = forget ((children.lookup seg).toList.flatMap lost) (values params) := by
  unfold matchStatic
  cases there : children.lookup seg with
  | none => exact ⟨rfl, (forget_nil _).symm⟩
  | some child =>
    rw [Option.toList_some, flatMap_singleton]
    exact fails child there params

theorem matchParams_none {descend : RadixNode H → PathParams → Option (Entry H) × PathParams}
    {lost : RadixNode H → List Bytes} {branches : List (Bytes × RadixNode H)}
    (fails : ∀ branch ∈ branches, Fails descend lost branch.2) (params : PathParams) :
    (matchParams descend seg branches params).1 = none ∧
      values (matchParams descend seg branches params).2
        = forget (branches.flatMap fun branch => branch.1 :: lost branch.2) (values params) := by
  induction branches generalizing params with
  | nil => exact ⟨rfl, (forget_nil _).symm⟩
  | cons branch branches ih =>
    obtain ⟨name, below⟩ := branch
    obtain ⟨failed, left⟩ := fails _ mem_cons_self (insertOrAssign name seg params)
    have more := ih (fun branch mem => fails branch (mem_cons_of_mem _ mem))
    rw [matchParams]
    split
    · rename_i hit
      rw [hit] at failed
      cases failed
    rename_i after missed
    obtain ⟨failed', left'⟩ := more (erase name after)
    refine ⟨failed', ?_⟩
    rw [missed] at left
    rw [left', values_erase, left, values_insert, flatMap_cons, forget_append]
    congr 1
    funext other
    by_cases same : other = name <;> simp [forget, same]

theorem tryNext_of_none {first : Option (Entry H) × PathParams}
    {again : PathParams → Option (Entry H) × PathParams} (failed : first.1 = none) :
    tryNext first again = again first.2 := by
  obtain ⟨_ | entry, left⟩ := first
  · rfl
  · cases failed

theorem tryNext_of_some {first : Option (Entry H) × PathParams}
    {again : PathParams → Option (Entry H) × PathParams} (hit : first.1.isSome) :
    tryNext first again = first := by
  obtain ⟨_ | entry, left⟩ := first
  · cases hit
  · rfl

structure At (path seg rest : Bytes) : Prop where
  some : seg ≠ []
  segment : nextSegment path = (seg, rest)
  split : splitPath path = seg :: splitPath rest
  text : seg ++ rest = [47].intercalate (splitPath path)

theorem At.goes (at_seg : At path seg rest) : ¬ Stops (seg :: splitPath rest) := at_seg.some

theorem at_of_goes (goes : ¬ Stops (splitPath path)) : ∃ seg rest, At path seg rest := by
  have seg_ne : (nextSegment path).1 ≠ [] := fun empty => goes (stops_splitPath.mpr empty)
  have some : path ≠ [] := by
    rintro rfl
    exact seg_ne rfl
  have text : (nextSegment path).1 ++ (nextSegment path).2 = [47].intercalate (splitPath path) := by
    rw [nextSegment_text, intercalate_splitPath]
  exact ⟨_, _, seg_ne, rfl, splitPath_cons some, text⟩

theorem matchRadix_none (levels : Nat) (node : RadixNode H) (path : Bytes) (params : PathParams)
    (none : candidates levels node (splitPath path) = []) :
    (matchRadix levels node path params).1 = Option.none ∧
      values (matchRadix levels node path params).2
        = forget (tried levels node (splitPath path)) (values params) := by
  induction levels generalizing node path params with
  | zero => exact ⟨rfl, (forget_nil _).symm⟩
  | succ levels ih =>
    obtain ⟨here, children, paramChildren, wildcardChildren⟩ := node
    by_cases stops : Stops (splitPath path)
    · rw [candidates, if_pos stops, append_eq_nil_iff] at none
      have bare : here.handlers.isEmpty := by
        by_contra some
        rw [if_neg some] at none
        cases none.2
      rw [matchRadix_stops levels (stops_splitPath.mp stops), wildOutcome_nil none.1, tried,
        if_pos stops, forget_nil]
      simp only [tryNext, if_pos bare, and_self]
    · obtain ⟨seg, rest, at_seg⟩ := at_of_goes stops
      rw [candidates, if_neg stops, append_eq_nil_iff, append_eq_nil_iff] at none
      rw [tried, if_neg stops, matchRadix_goes levels at_seg.some at_seg.segment]
      rw [at_seg.split] at none ⊢
      obtain ⟨⟨no_static, no_param⟩, no_wild⟩ := none
      have static : ∀ child, children.lookup seg = some child →
          Fails (fun node params => matchRadix levels node rest params)
            (fun node => tried levels node (splitPath rest)) child := by
        intro child there params
        refine ih child rest params ?_
        simpa [there] using no_static
      have fails : ∀ branch ∈ paramChildren,
          Fails (fun node params => matchRadix levels node rest params)
            (fun node => tried levels node (splitPath rest)) branch.2 := by
        intro branch mem params
        refine ih branch.2 rest params ?_
        exact map_eq_nil_iff.mp (flatMap_eq_nil_iff.mp no_param branch mem)
      obtain ⟨missed, kept⟩ := matchStatic_none static params
      rw [tryNext_of_none missed]
      obtain ⟨failed, left⟩ := matchParams_none fails _
      rw [tryNext_of_none failed, wildOutcome_nil no_wild]
      refine ⟨rfl, ?_⟩
      rw [left, kept, forget_append]
      rfl

theorem flatMap_eq_cons {f : α → List β} {l : List α} (first : l.flatMap f = b :: more) :
    ∃ before a after rest, l = before ++ a :: after ∧ (∀ a ∈ before, f a = []) ∧
      f a = b :: rest := by
  induction l with
  | nil => cases first
  | cons a l ih =>
    rw [flatMap_cons] at first
    cases here : f a with
    | nil =>
      rw [here, nil_append] at first
      obtain ⟨before, a', after, rest, rfl, none, found⟩ := ih first
      refine ⟨a :: before, a', after, rest, rfl, ?_, found⟩
      intro a' mem
      rcases mem_cons.mp mem with rfl | mem
      · exact here
      · exact none a' mem
    | cons b' rest =>
      rw [here] at first
      obtain ⟨rfl, -⟩ := List.cons.inj first
      exact ⟨[], a, l, rest, rfl, fun _ mem => absurd mem not_mem_nil, here⟩

/-- The loop over the branches stops at the first one with a match. -/
theorem matchParams_append {descend : RadixNode H → PathParams → Option (Entry H) × PathParams}
    {lost : RadixNode H → List Bytes} {before after : List (Bytes × RadixNode H)}
    (fails : ∀ branch ∈ before, Fails descend lost branch.2)
    (hits : ∀ params, (descend below params).1.isSome) (params : PathParams) :
    matchParams descend seg (before ++ (name, below) :: after) params
      = descend below (insertOrAssign name seg
          (matchParams descend seg before params).2) := by
  induction before generalizing params with
  | nil =>
    have hit := hits (insertOrAssign name seg params)
    simp only [nil_append, matchParams]
    cases outcome : descend below (insertOrAssign name seg params) with
    | mk found left =>
      rw [outcome] at hit
      obtain ⟨entry, rfl⟩ := Option.isSome_iff_exists.mp hit
      rfl
  | cons branch before ih =>
    have failed := (fails branch mem_cons_self (insertOrAssign branch.1 seg params)).1
    have later := ih fun branch mem => fails branch (mem_cons_of_mem _ mem)
    rw [cons_append, matchParams, matchParams]
    split
    · rename_i found
      rw [found] at failed
      cases failed
    · exact later _

theorem takeWhile_names {before after : List (Bytes × RadixNode H)}
    (sorted : OrderedMap.Sorted (before ++ (name, below) :: after)) :
    (before ++ (name, below) :: after).takeWhile (·.1 ≠ name) = before := by
  rw [takeWhile_append_of_pos]
  · simp
  intro branch mem
  have smaller := (pairwise_append.mp sorted).2.2 branch mem (name, below) mem_cons_self
  simp only [decide_eq_true_eq]
  rintro rfl
  exact List.lt_irrefl _ smaller

theorem fails_of_nil (none : candidates levels node (splitPath rest) = []) :
    Fails (fun node params => matchRadix levels node rest params)
      (fun node => tried levels node (splitPath rest)) node :=
  fun params => matchRadix_none levels node rest params none

def Gives (levels : Nat) (node : RadixNode H) (path : Bytes) (key : List Segment) : Prop :=
  ∀ params, (matchRadix levels node path params).1 = some (node.entryAt key) ∧
    values (matchRadix levels node path params).2
      = replay levels node key (splitPath path) (values params)

theorem gives_of_stops (wilds_sorted : OrderedMap.Sorted wildcardChildren)
    (stops : Stops (splitPath path))
    (found : candidates (levels + 1) (mk here children paramChildren wildcardChildren)
      (splitPath path) = key :: more) :
    Gives (levels + 1) (mk here children paramChildren wildcardChildren) path key := by
  intro params
  rw [matchRadix_stops levels (stops_splitPath.mp stops)]
  rw [candidates, if_pos stops] at found
  cases wilds : wildKeys wildcardChildren with
  | nil =>
    rw [wilds, nil_append] at found
    by_cases bare : here.handlers.isEmpty
    · rw [if_pos bare] at found
      cases found
    rw [if_neg bare] at found
    obtain ⟨rfl, -⟩ := List.cons.inj found
    rw [wildOutcome_nil wilds]
    simp only [tryNext, if_neg bare]
    exact ⟨rfl, rfl⟩
  | cons wild others =>
    rw [wilds, cons_append] at found
    obtain ⟨rfl, -⟩ := List.cons.inj found
    obtain ⟨name, below, rfl, there, outcome⟩ := wildOutcome_cons wilds wilds_sorted []
    obtain ⟨entry, left⟩ := outcome params
    rw [tryNext_of_some (by rw [entry]; rfl)]
    refine ⟨entry.trans ?_, left.trans ?_⟩
    · simp only [entryAt, at?, next, there, Option.bind_some, Option.map_some, Option.getD_some]
    · simp only [replay, triedBefore, if_pos stops, forget_nil, wildValue]

theorem gives_static (at_seg : At path seg rest) (there : children.lookup seg = some below)
    (down : Gives levels below rest key) :
    Gives (levels + 1) (mk here children paramChildren wildcardChildren) path
      (.static seg :: key) := by
  intro params
  obtain ⟨entry, left⟩ := down params
  rw [matchRadix_goes levels at_seg.some at_seg.segment, matchStatic, there,
    tryNext_of_some (by rw [entry]; rfl), at_seg.split]
  refine ⟨entry.trans ?_, left.trans ?_⟩
  · simp only [entryAt_cons, next, there, Option.getD_some]
  · simp only [replay, triedBefore, if_neg at_seg.goes, forget_nil, next, there, Option.getD_some,
      tail_cons]

variable (no_static : ∀ child, children.lookup seg = some child →
  candidates levels child (splitPath rest) = [])
include no_static

theorem gives_param {before after : List (Bytes × RadixNode H)} (at_seg : At path seg rest)
    (sorted : OrderedMap.Sorted (before ++ (name, below) :: after))
    (no_param : ∀ branch ∈ before, candidates levels branch.2 (splitPath rest) = [])
    (down : Gives levels below rest key) :
    Gives (levels + 1) (mk here children (before ++ (name, below) :: after) wildcardChildren) path
      (.param name :: key) := by
  intro params
  have there : (before ++ (name, below) :: after).lookup name = some below :=
    sorted.lookup_of_mem (mem_append_right _ mem_cons_self)
  have fails := fun branch mem => fails_of_nil (no_param branch mem)
  obtain ⟨missed, kept⟩ :=
    matchStatic_none (fun child there => fails_of_nil (no_static child there)) params
  rw [matchRadix_goes levels at_seg.some at_seg.segment, tryNext_of_none missed,
    matchParams_append fails (fun params => by rw [(down params).1]; rfl),
    tryNext_of_some (by rw [(down _).1]; rfl), at_seg.split]
  refine ⟨(down _).1.trans ?_, (down _).2.trans ?_⟩
  · simp only [entryAt_cons, next, there, Option.getD_some]
  · rw [values_insert, (matchParams_none fails _).2, kept]
    simp only [replay, triedBefore, if_neg at_seg.goes, next, there, Option.getD_some,
      tail_cons, headD_cons, takeWhile_names sorted, forget_append]

theorem gives_wild (at_seg : At path seg rest) (sorted : OrderedMap.Sorted wildcardChildren)
    (no_param : ∀ branch ∈ paramChildren, candidates levels branch.2 (splitPath rest) = [])
    (found : wildKeys wildcardChildren = key :: more) :
    Gives (levels + 1) (mk here children paramChildren wildcardChildren) path key := by
  intro params
  obtain ⟨missed, kept⟩ :=
    matchStatic_none (fun child there => fails_of_nil (no_static child there)) params
  rw [matchRadix_goes levels at_seg.some at_seg.segment, tryNext_of_none missed]
  obtain ⟨failed, skipped⟩ :=
    matchParams_none (fun branch mem => fails_of_nil (no_param branch mem)) _
  rw [tryNext_of_none failed]
  obtain ⟨name, below, rfl, there, outcome⟩ := wildOutcome_cons found sorted (seg ++ rest)
  obtain ⟨entry, bound⟩ := outcome _
  refine ⟨entry.trans ?_, bound.trans ?_⟩
  · simp only [entryAt, at?, next, there, Option.bind_some, Option.map_some, Option.getD_some]
  · rw [skipped, kept, at_seg.text, at_seg.split]
    simp only [replay, triedBefore, if_neg at_seg.goes, wildValue, forget_append, tail_cons,
      headD_cons]

omit no_static

theorem matchRadix_cons (levels : Nat) (ordered : node.Ordered) (path : Bytes)
    (found : candidates levels node (splitPath path) = key :: more) :
    Gives levels node path key := by
  induction levels generalizing node path key more with
  | zero => cases found
  | succ levels ih =>
    cases ordered with
    | @mk here children paramChildren wildcardChildren _ params_sorted wilds_sorted ordered =>
    by_cases stops : Stops (splitPath path)
    · exact gives_of_stops wilds_sorted stops found
    obtain ⟨seg, rest, at_seg⟩ := at_of_goes stops
    rw [candidates, if_neg stops, at_seg.split] at found
    simp only [headD_cons, tail_cons] at found
    cases static : (children.lookup seg).toList.flatMap fun child =>
        (candidates levels child (splitPath rest)).map (.static seg :: ·) with
    | cons first others =>
      rw [static, cons_append, cons_append] at found
      obtain ⟨rfl, -⟩ := List.cons.inj found
      obtain ⟨_, child, _, _, list, -, first⟩ := flatMap_eq_cons static
      obtain ⟨key, _, below, rfl, -⟩ := map_eq_cons_iff.mp first
      have there : children.lookup seg = some child :=
        Option.mem_toList.mp (by rw [list]; exact mem_append_right _ mem_cons_self)
      exact gives_static at_seg there (ih (ordered (.static seg) child there) rest below)
    | nil =>
      rw [static, nil_append] at found
      have no_static : ∀ child, children.lookup seg = some child →
          candidates levels child (splitPath rest) = [] := by
        intro child there
        simpa [there] using static
      cases among : paramChildren.flatMap fun param =>
          (candidates levels param.2 (splitPath rest)).map (.param param.1 :: ·) with
      | cons first others =>
        rw [among, cons_append] at found
        obtain ⟨rfl, -⟩ := List.cons.inj found
        obtain ⟨before, ⟨name, child⟩, after, _, rfl, none, some⟩ := flatMap_eq_cons among
        obtain ⟨key, _, below, rfl, -⟩ := map_eq_cons_iff.mp some
        have there : (before ++ (name, child) :: after).lookup name = Option.some child :=
          params_sorted.lookup_of_mem (mem_append_right _ mem_cons_self)
        exact gives_param no_static at_seg params_sorted
          (fun branch mem => map_eq_nil_iff.mp (none branch mem))
          (ih (ordered (.param name) child there) rest below)
      | nil =>
        rw [among, nil_append] at found
        refine gives_wild no_static at_seg wilds_sorted ?_ found
        intro branch mem
        exact map_eq_nil_iff.mp (flatMap_eq_nil_iff.mp among branch mem)

end Search

section Members
variable {here : Entry H} {children paramChildren wildcardChildren : List (Bytes × RadixNode H)}

theorem mem_wildKeys :
    key ∈ wildKeys wildcardChildren ↔ ∃ name below, (name, below) ∈ wildcardChildren ∧
      below.entry.handlers ≠ [] ∧ key = [.wild name] := by
  constructor
  · intro mem
    obtain ⟨⟨name, below⟩, kept, rfl⟩ := mem_map.mp mem
    obtain ⟨mem, handlers⟩ := mem_filter.mp kept
    exact ⟨name, below, mem, by simpa using handlers, rfl⟩
  · rintro ⟨name, below, mem, handlers, rfl⟩
    exact mem_map.mpr ⟨(name, below), mem_filter.mpr ⟨mem, by simpa using handlers⟩, rfl⟩

theorem mem_candidates_succ :
    key ∈ candidates (levels + 1) (mk here children paramChildren wildcardChildren) pieces ↔
      key ∈ wildKeys wildcardChildren ∨
        Stops pieces ∧ here.handlers ≠ [] ∧ key = [] ∨
        ¬ Stops pieces ∧
          ((∃ below, children.lookup (pieces.headD []) = some below ∧
            ∃ rest ∈ candidates levels below pieces.tail, .static (pieces.headD []) :: rest = key) ∨
          ∃ name below, (name, below) ∈ paramChildren ∧
            ∃ rest ∈ candidates levels below pieces.tail, .param name :: rest = key) := by
  rw [candidates]
  by_cases stops : Stops pieces
  · by_cases bare : here.handlers = [] <;> simp [stops, bare]
  rw [if_neg stops]
  simp only [mem_append, mem_flatMap, mem_map, Option.mem_toList,
    Prod.exists, stops, false_and, not_false_eq_true, true_and, false_or]
  exact or_comm

end Members

theorem accepts_static : Accepts (.static text :: key) pieces ↔
      ¬ Stops pieces ∧ pieces.headD [] = text ∧ Accepts key pieces.tail := by
  cases pieces with
  | nil => exact iff_of_false (fun accepts => accepts) (fun accepts => accepts.1 rfl)
  | cons piece pieces => exact Iff.rfl

theorem accepts_param :
    Accepts (.param name :: key) pieces ↔ ¬ Stops pieces ∧ Accepts key pieces.tail := by
  cases pieces with
  | nil => exact iff_of_false (fun accepts => accepts) (fun accepts => accepts.1 rfl)
  | cons piece pieces =>
    exact ⟨fun accepts => ⟨accepts.1, accepts.2.2⟩, fun accepts => ⟨accepts.1, trivial, accepts.2⟩⟩

theorem mem_candidates_iff (ordered : node.Ordered) :
    key ∈ candidates levels node pieces ↔ (node.entryAt key).handlers ≠ [] ∧
      Accepts key pieces ∧ depth key < levels ∧ WildLast key := by
  induction levels generalizing node pieces key with
  | zero => simp [candidates]
  | succ levels ih =>
    cases ordered with
    | @mk here children paramChildren wildcardChildren _ params_sorted wilds_sorted ordered =>
    rw [mem_candidates_succ, mem_wildKeys]
    cases key with
    | nil =>
      simp only [reduceCtorEq, and_false, exists_false, or_false, false_or, and_true]
      constructor
      · rintro ⟨stops, handlers⟩
        exact ⟨handlers, stops, Nat.succ_pos _, trivial⟩
      · rintro ⟨handlers, stops, _⟩
        exact ⟨stops, handlers⟩
    | cons seg key =>
      cases seg with
      | wild name =>
        simp only [reduceCtorEq, List.cons.injEq, Segment.wild.injEq, false_and, and_false,
          exists_false, or_false]
        constructor
        · rintro ⟨_, below, mem, handlers, rfl, rfl⟩
          refine ⟨?_, trivial, Nat.succ_pos _, rfl⟩
          rw [entryAt_cons, next, wilds_sorted.lookup_of_mem mem]
          exact handlers
        · rintro ⟨handlers, _, _, last⟩
          obtain rfl : key = [] := last
          obtain ⟨below, there, below_handlers⟩ := exists_next handlers
          exact ⟨name, below, wilds_sorted.lookup_eq_some_iff.mp there, below_handlers, rfl, rfl⟩
      | static text =>
        simp only [reduceCtorEq, List.cons.injEq, Segment.static.injEq, false_and, and_false,
          exists_false, or_false, false_or]
        rw [accepts_static]
        constructor
        · rintro ⟨goes, below, there, _, mem, rfl, rfl⟩
          obtain ⟨handlers, accepts, deep, last⟩ := (ih (ordered (.static _) below there)).mp mem
          refine ⟨?_, ⟨goes, rfl, accepts⟩, Nat.succ_lt_succ deep, last⟩
          rw [entryAt_cons, next, there]
          exact handlers
        · rintro ⟨handlers, ⟨goes, rfl, accepts⟩, deep, last⟩
          obtain ⟨below, there, below_handlers⟩ := exists_next handlers
          exact ⟨goes, below, there, key, (ih (ordered (.static _) below there)).mpr
            ⟨below_handlers, accepts, Nat.lt_of_succ_lt_succ deep, last⟩, rfl, rfl⟩
      | param name =>
        simp only [reduceCtorEq, List.cons.injEq, Segment.param.injEq, false_and, and_false,
          exists_false, false_or]
        rw [accepts_param]
        constructor
        · rintro ⟨goes, _, below, among, _, mem, rfl, rfl⟩
          have there := params_sorted.lookup_of_mem among
          obtain ⟨handlers, accepts, deep, last⟩ := (ih (ordered (.param _) below there)).mp mem
          refine ⟨?_, ⟨goes, accepts⟩, Nat.succ_lt_succ deep, last⟩
          rw [entryAt_cons, next, there]
          exact handlers
        · rintro ⟨handlers, ⟨goes, accepts⟩, deep, last⟩
          obtain ⟨below, there, below_handlers⟩ := exists_next handlers
          exact ⟨goes, name, below, params_sorted.lookup_eq_some_iff.mp there, key,
            (ih (ordered (.param _) below there)).mpr
              ⟨below_handlers, accepts, Nat.lt_of_succ_lt_succ deep, last⟩, rfl, rfl⟩

/-- The order in which the search meets the matches of a path: a branch with the segment itself
before a branch with a parameter and that before a wildcard, and branches of one kind by their
names. At the end of the path a wildcard comes before the node itself. -/
def Before : List Segment → List Segment → Prop
  | .wild name :: _, .wild other :: _ => name < other
  | .wild _ :: _, [] => True
  | .static text :: key, .static other :: rest => text = other ∧ Before key rest
  | .param name :: key, .param other :: rest => name < other ∨ name = other ∧ Before key rest
  | .static _ :: _, .param _ :: _ => True
  | .static _ :: _, .wild _ :: _ => True
  | .param _ :: _, .wild _ :: _ => True
  | _, _ => False

theorem wildKeys_sorted {wilds : List (Bytes × RadixNode H)} (sorted : OrderedMap.Sorted wilds) :
    (wildKeys wilds).Pairwise Before := by
  rw [wildKeys, pairwise_map]
  exact List.Pairwise.filter _ sorted

theorem candidates_sorted (levels : Nat) (ordered : node.Ordered) (pieces : List Bytes) :
    (candidates levels node pieces).Pairwise Before := by
  induction levels generalizing node pieces with
  | zero => exact .nil
  | succ levels ih =>
    cases ordered with
    | @mk here children paramChildren wildcardChildren _ params_sorted wilds_sorted ordered =>
    have wilds := wildKeys_sorted wilds_sorted
    rw [candidates]
    by_cases stops : Stops pieces
    · rw [if_pos stops, pairwise_append]
      refine ⟨wilds, ?_, ?_⟩
      · split
        · exact .nil
        · exact pairwise_singleton _ _
      intro key mem last here
      obtain ⟨name, _, _, _, rfl⟩ := mem_wildKeys.mp mem
      split at here
      · cases here
      · rw [mem_singleton.mp here]
        trivial
    · rw [if_neg stops, pairwise_append, pairwise_append]
      refine ⟨⟨?_, ?_, ?_⟩, wilds, ?_⟩
      · cases there : children.lookup (pieces.headD []) with
        | none => exact .nil
        | some below =>
          rw [Option.toList_some, flatMap_singleton, pairwise_map]
          exact (ih (ordered (.static _) below there) _).imp fun before => ⟨rfl, before⟩
      · rw [pairwise_flatMap]
        constructor
        · rintro ⟨name, below⟩ mem
          rw [pairwise_map]
          have there := params_sorted.lookup_of_mem mem
          exact (ih (ordered (.param name) below there) _).imp fun before => .inr ⟨rfl, before⟩
        · refine params_sorted.imp ?_
          intro branch other smaller key mem rest mem'
          obtain ⟨key, _, rfl⟩ := mem_map.mp mem
          obtain ⟨rest, _, rfl⟩ := mem_map.mp mem'
          exact .inl smaller
      · intro key mem rest mem'
        obtain ⟨_, _, mem⟩ := mem_flatMap.mp mem
        obtain ⟨_, _, mem'⟩ := mem_flatMap.mp mem'
        obtain ⟨key, _, rfl⟩ := mem_map.mp mem
        obtain ⟨rest, _, rfl⟩ := mem_map.mp mem'
        trivial
      intro key mem wild mem'
      obtain ⟨name, _, _, _, rfl⟩ := mem_wildKeys.mp mem'
      rcases mem_append.mp mem with mem | mem <;>
      · obtain ⟨_, _, mem⟩ := mem_flatMap.mp mem
        obtain ⟨key, _, rfl⟩ := mem_map.mp mem
        trivial

end RadixNode
end Nitrocoro.Http
