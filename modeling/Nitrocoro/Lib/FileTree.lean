import Mathlib.Data.Finset.Basic
import Mathlib.Data.Fintype.EquivFin
import Mathlib.Data.List.Infix

/-! Directory trees with symbolic links: how a path is looked up in one, and how far the first
elements of a path exist. -/
namespace FileTree
open List hiding elem

inductive Elem (N : Type) where
  | name (n : N)
  | up
  /-- A dot, or nothing. -/
  | here

inductive Node (N C : Type) where
  | dir
  | file (content : C)
  | link (absolute : Bool) (target : List (Elem N))

inductive Failure where
  | missing
  | loop

variable {N C : Type} [DecidableEq N]

/-- The root directory has no entry of its own. -/
def nodeOf (entries : List (List N × Node N C)) (names : List N) : Option (Node N C) :=
  if names = [] then some .dir else entries.lookup names

def Node.isDir : Node N C → Bool
  | .dir => true
  | _ => false

structure Tree (N C : Type) [DecidableEq N] where
  entries : List (List N × Node N C)
  parents : ∀ entry ∈ entries, (nodeOf entries entry.1.dropLast).any Node.isDir

namespace Tree
variable (tree : Tree N C)

def node (names : List N) : Option (Node N C) := nodeOf tree.entries names

def IsDir (names : List N) : Prop := (tree.node names).any Node.isDir

instance (names : List N) : Decidable (tree.IsDir names) := inferInstanceAs (Decidable (_ = true))

/-- What is at one element of a path: another place, or a symbolic link. -/
def next (names : List N) (elem : Elem N) : Except Failure (List N ⊕ List N × List (Elem N)) :=
  if tree.IsDir names then
    match elem with
    | .here => .ok (.inl names)
    | .up => .ok (.inl names.dropLast)
    | .name n =>
      match tree.node (names ++ [n]) with
      | none => .error .missing
      | some (.link absolute target) => .ok (.inr (if absolute then [] else names, target))
      | some _ => .ok (.inl (names ++ [n]))
  else .error .missing

/-- Goes on up to a symbolic link, where `follow` takes over. -/
def walk (follow : List N → List (Elem N) → Except Failure (List N)) :
    List N → List (Elem N) → Except Failure (List N)
  | names, [] => .ok names
  | names, elem :: rest =>
    match tree.next names elem with
    | .ok (.inl names) => walk follow names rest
    | .ok (.inr (start, target)) => follow start (target ++ rest)
    | .error failure => .error failure

/-- With at most so many symbolic links. -/
def resolve (tree : Tree N C) : Nat → List N → List (Elem N) → Except Failure (List N)
  | 0 => tree.walk fun _ _ => .error .loop
  | links + 1 => tree.walk (tree.resolve links)

/-- How far the elements behind `done` exist, where that leads to, and what is left. -/
def leading (links : Nat) (done : List (Elem N)) (names : List N) :
    List (Elem N) → Except Failure (List N × List (Elem N))
  | [] => .ok (names, [])
  | elem :: rest =>
    match tree.resolve links [] (done ++ [elem]) with
    | .ok further => leading links (done ++ [elem]) further rest
    | .error .missing => .ok (names, elem :: rest)
    | .error .loop => .error .loop

end Tree

/-- The normal form, without a look at the tree. -/
def normal (names : List N) : List (Elem N) → List N
  | [] => names
  | .name n :: rest => normal (names ++ [n]) rest
  | .up :: rest => normal names.dropLast rest
  | .here :: rest => normal names rest

omit [DecidableEq N] in
theorem normal_names (names more : List N) : normal names (more.map .name) = names ++ more := by
  induction more generalizing names with
  | nil => simp [normal]
  | cons n more ih => simp [normal, ih]

namespace Tree
variable {tree : Tree N C} {follow : List N → List (Elem N) → Except Failure (List N)}

theorem isDir_nil : tree.IsDir [] := by
  simp [IsDir, node, nodeOf, Node.isDir]

theorem isDir_iff : tree.IsDir names ↔ tree.node names = some .dir := by
  rw [IsDir]
  cases tree.node names with
  | none => simp
  | some node => cases node <;> simp [Node.isDir]

theorem mem_of_node (found : tree.node (names ++ [n]) = some held) :
    (names ++ [n], held) ∈ tree.entries := by
  rw [node, nodeOf, if_neg (by simp)] at found
  obtain ⟨before, after, split, -⟩ := lookup_eq_some_iff.mp found
  simp [split]

theorem isDir_dropLast (dir : tree.IsDir names) : tree.IsDir names.dropLast := by
  rcases eq_nil_or_concat' names with rfl | ⟨front, n, rfl⟩
  · exact dir
  · exact tree.parents _ (mem_of_node (isDir_iff.mp dir))

theorem resolve_eq_walk (tree : Tree N C) (links : Nat) :
    ∃ follow, tree.resolve links = tree.walk follow := by
  cases links with
  | zero | succ => exact ⟨_, rfl⟩

theorem next_unnamed (unnamed : ∀ n, elem ≠ .name n) (found : tree.next names elem = .ok place) :
    ∃ dest, place = .inl dest ∧ tree.IsDir dest := by
  cases elem with
  | name n => exact absurd rfl (unnamed n)
  | up =>
    rw [next] at found
    split_ifs at found with dir
    cases found
    exact ⟨_, rfl, isDir_dropLast dir⟩
  | here =>
    rw [next] at found
    split_ifs at found with dir
    cases found
    exact ⟨_, rfl, dir⟩

@[simp]
theorem walk_here (rest : List (Elem N)) :
    tree.walk follow [] (.here :: rest) = tree.walk follow [] rest := by
  rw [walk, next, if_pos isDir_nil]

/-- A path that ends with a dot, two dots or nothing leads to a directory. -/
theorem walk_last (unnamed : ∀ n, last ≠ .name n)
    (followed : ∀ names elems, follow names (elems ++ [last]) = .ok dest → tree.IsDir dest)
    (found : tree.walk follow names (elems ++ [last]) = .ok dest) : tree.IsDir dest := by
  induction elems generalizing names with
  | nil =>
    rw [nil_append, walk] at found
    split at found
    · rename_i there
      obtain ⟨reached, ⟨⟩, dir⟩ := next_unnamed unnamed there
      cases found
      exact dir
    · rename_i there
      obtain ⟨-, ⟨⟩, -⟩ := next_unnamed unnamed there
    · cases found
  | cons elem elems ih =>
    rw [cons_append, walk] at found
    split at found
    · exact ih found
    · rw [← append_assoc] at found
      exact followed _ _ found
    · cases found

theorem resolve_last (unnamed : ∀ n, last ≠ .name n)
    (found : tree.resolve links names (elems ++ [last]) = .ok dest) : tree.IsDir dest := by
  induction links generalizing names elems with
  | zero =>
    refine walk_last unnamed (fun names elems looped => ?_) found
    cases looped
  | succ links ih => exact walk_last unnamed (fun names elems => ih) found

/-- What is reached without a symbolic link is reached in the same way with more behind it. -/
theorem walk_append (plain : tree.walk (fun _ _ => .error .loop) names front = .ok reached)
    (back : List (Elem N)) :
    tree.walk follow names (front ++ back) = tree.walk follow reached back := by
  induction front generalizing names with
  | nil =>
    cases plain
    rfl
  | cons elem front ih =>
    rw [walk] at plain
    rw [cons_append, walk]
    split at plain
    · exact ih plain
    · cases plain
    · cases plain

theorem walk_dirs (dirs : ∀ front, front <+: more → tree.IsDir (names ++ front)) :
    tree.walk follow names (more.map .name) = .ok (names ++ more) := by
  induction more generalizing names with
  | nil => simp [walk]
  | cons n more ih =>
    have dir : tree.IsDir names := by simpa using dirs [] nil_prefix
    have inner := isDir_iff.mp (dirs [n] (by simp))
    have enters : tree.next names (.name n) = .ok (.inl (names ++ [n])) := by
      rw [next, if_pos dir, inner]
    have deeper : tree.walk follow (names ++ [n]) (more.map .name) = .ok (names ++ [n] ++ more) :=
      ih fun front shorter => by
        simpa using dirs (n :: front) (cons_prefix_cons.mpr ⟨rfl, shorter⟩)
    simpa [walk, enters] using deeper

/-- Up to a name that is nowhere in the tree, a path through directories exists. -/
theorem leading_fresh (plain : tree.walk (fun _ _ => .error .loop) [] done = .ok names)
    (dirs : ∀ front, front <+: more → tree.IsDir (names ++ front))
    (fresh : ∀ names, tree.node (names ++ [n]) = none) (links : Nat) (rest : List (Elem N)) :
    tree.leading links done names (more.map .name ++ .name n :: rest) =
      .ok (names ++ more, .name n :: rest) := by
  obtain ⟨follow, same⟩ := resolve_eq_walk tree links
  induction more generalizing done names with
  | nil =>
    have dir : tree.IsDir names := by simpa using dirs [] nil_prefix
    have stops : tree.next names (.name n) = .error .missing := by
      rw [next, if_pos dir, fresh]
    rw [map_nil, nil_append, leading, same, walk_append plain]
    simp [walk, stops]
  | cons m more ih =>
    have further : ∀ follow, tree.walk follow [] (done ++ [.name m]) = .ok (names ++ [m]) := by
      intro follow
      rw [walk_append plain]
      have dirs : ∀ front, front <+: [m] → tree.IsDir (names ++ front) := fun front shorter =>
        dirs front (shorter.trans (prefix_append [m] more))
      exact walk_dirs dirs
    rw [map_cons, cons_append, leading, same, further]
    have deeper := ih (further _) fun front shorter => by
      simpa using dirs (m :: front) (cons_prefix_cons.mpr ⟨rfl, shorter⟩)
    simpa using deeper

theorem exists_fresh [Infinite N] (tree : Tree N C) :
    ∃ n, ∀ names, tree.node (names ++ [n]) = none := by
  obtain ⟨n, fresh⟩ := Infinite.exists_notMem_finset (tree.entries.flatMap Prod.fst).toFinset
  refine ⟨n, fun names => ?_⟩
  cases found : tree.node (names ++ [n]) with
  | none => rfl
  | some node =>
    have mem := mem_of_node found
    exact absurd (mem_toFinset.mpr (mem_flatMap.mpr ⟨_, mem, by simp⟩)) fresh

end Tree

end FileTree
