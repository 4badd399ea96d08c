import Nitrocoro.Http.RouterProofs
import Nitrocoro.Http.StaticFilesCaching
import Nitrocoro.Lib.FileTree

/-! The files that the handler opens in a directory tree with symbolic links, with
`std::filesystem::path` as it is on POSIX. -/
namespace Nitrocoro.Http.StaticFiles
open Text FileTree
open List hiding tail

def IsName (piece : Bytes) : Prop :=
  piece ≠ [] ∧ 47 ∉ piece ∧ piece ≠ ascii "." ∧ piece ≠ ascii ".."

instance (piece : Bytes) : Decidable (IsName piece) := inferInstanceAs (Decidable (_ ∧ _))

abbrev Name := { piece : Bytes // IsName piece }

instance : Infinite Name := by
  have valid : ∀ n, IsName (97 :: List.replicate n 97) := fun n => by
    have other : (97 : UInt8) ≠ 46 := by decide
    exact ⟨nofun, by simp, fun same => other (List.head_eq_of_cons_eq same),
      fun same => other (List.head_eq_of_cons_eq same)⟩
  refine .of_injective (fun n => (⟨_, valid n⟩ : Name)) fun n m same => ?_
  simpa using congrArg (fun name : Name => name.1.length) same

structure File where
  data : Bytes
  mtime : Int

def elem (piece : Bytes) : Elem Name :=
  if valid : IsName piece then .name ⟨piece, valid⟩
  else if piece = ascii ".." then .up
  else .here

def elements (path : Bytes) : List (Elem Name) := (path.splitOn 47).map elem

def render (words : List Bytes) : Bytes := words.flatMap (47 :: ·)

def text (names : List Name) : Bytes := render (if names = [] then [[]] else names.unattach)

/-- `operator/`. -/
def append (path tail : Bytes) : Bytes :=
  if tail.head? = some 47 then tail
  else if path = [] ∨ path.getLast? = some 47 then path ++ tail
  else path ++ 47 :: tail

def filename (path : Bytes) : Bytes := path.rtakeWhile (· ≠ 47)

def parts (path : Bytes) : List Bytes :=
  let names := (path.splitOn 47).filter (· ≠ [])
  if names ≠ [] ∧ path.getLast? = some 47 then names ++ [[]] else names

def mismatch : List Bytes → List Bytes → List Bytes × List Bytes
  | a :: as, b :: bs => if a = b then mismatch as bs else (a :: as, b :: bs)
  | as, bs => (as, bs)

def lexicallyRelative (path base : Bytes) : List Bytes :=
  if (path.head? = some 47) ≠ (base.head? = some 47) then []
  else
    let (a, b) := mismatch (parts path) (parts base)
    let ups := (b.filter (· ∉ [[], ascii ".", ascii ".."])).length
    let downs := b.count (ascii "..")
    if a = [] ∧ b = [] then [ascii "."]
    else if ups < downs then []
    else if ups = downs ∧ (a = [] ∨ a.head? = some []) then [ascii "."]
    else List.replicate (ups - downs) (ascii "..") ++ a

def posix (extension : Bytes → Bytes) (date : Int → Bytes) : Platform :=
  { append, filename, extension, lexicallyRelative, date }

/-- Linux follows so many symbolic links. -/
def kMaxLinks : Nat := 40

def locate (tree : Tree Name File) (path : Bytes) : Except Failure (List Name) :=
  tree.resolve kMaxLinks [] (elements path)

/-- The part that exists is made canonical, the rest of the elements follows, and then the path is
brought into normal form. -/
def weaklyCanonical (tree : Tree Name File) (path : Bytes) : Option Bytes :=
  match tree.leading kMaxLinks [] [] (elements path) with
  | .ok (names, rest) =>
    match rest.getLast? with
    | some (.name _) | none => some (text (normal names rest))
    | _ => some (render ((normal names rest).unattach ++ [[]]))
  | .error _ => none

/-- Nothing changes during the request. The stat of a directory is not looked at further. -/
def diskOf (tree : Tree Name File) : Disk where
  weaklyCanonical := weaklyCanonical tree
  isDirectory path :=
    match locate tree path with
    | .ok names => some (tree.IsDir names)
    | .error .missing => some false
    | .error .loop => none
  stat _ path :=
    match locate tree path with
    | .ok names =>
      match tree.node names with
      | some (.file file) => some ⟨file.mtime, file.data.length, true⟩
      | _ => some ⟨0, 0, false⟩
    | .error _ => none
  fopen path :=
    match locate tree path with
    | .ok names =>
      match tree.node names with
      | some (.file file) => some file.data
      | _ => none
    | .error _ => none

def Opens (h : StaticFiles) (platform : Platform) (disk : Disk) (req : HttpRequest)
    (params : PathParams) (path : Bytes) : Prop :=
  req.method ≠ .head ∧ ∃ t, h.target platform disk req params = .ok t ∧ t.actualPath = path

def Inside (tree : Tree Name File) (root : List Name) (path : Bytes) : Prop :=
  ∃ names file, locate tree path = .ok names ∧ tree.node names = some (.file file) ∧ root <+: names

variable {tree : Tree Name File} {root names front inner : List Name}

theorem splitOn_render (clean : 47 ∉ s) (cleans : ∀ word ∈ words, 47 ∉ word) :
    (s ++ render words).splitOn 47 = s :: words := by
  induction words generalizing s with
  | nil => simpa [render] using splitOn_single clean
  | cons word words ih =>
    obtain ⟨first, rest⟩ := forall_mem_cons.mp cleans
    rw [render, flatMap_cons, cons_append, splitOn_append clean]
    exact congrArg (s :: ·) (ih first rest)

theorem isName_of_mem (mem : word ∈ names.unattach) : IsName word := by
  obtain ⟨valid, -⟩ := mem_unattach.mp mem
  exact valid

theorem names_clean (names : List Name) : ∀ word ∈ names.unattach, 47 ∉ word :=
  fun _ mem => (isName_of_mem mem).2.1

theorem elements_render (cleans : ∀ word ∈ words, 47 ∉ word) :
    elements (render words) = .here :: words.map elem := by
  have split := splitOn_render (s := []) nofun cleans
  rw [nil_append] at split
  rw [elements, split]
  rfl

theorem map_elem (names : List Name) : names.unattach.map elem = names.map .name := by
  rw [unattach, map_map]
  refine map_congr_left fun n _ => ?_
  exact dif_pos n.2

/-- The path of a regular file ends with a name. -/
theorem name_of_file (clean : 47 ∉ last)
    (found : locate tree (render (front.unattach ++ [last])) = .ok names)
    (there : tree.node names = some (.file file)) : IsName last := by
  by_contra unnamed
  have cleans := forall_mem_append.mpr ⟨names_clean front, forall_mem_singleton.mpr clean⟩
  rw [locate, elements_render cleans, map_append, ← cons_append] at found
  have dir := Tree.resolve_last (fun n => ?_) found
  · cases there.symm.trans (Tree.isDir_iff.mp dir)
  · rw [elem, dif_neg unnamed]
    split <;> exact nofun

theorem locate_dirs (canonical : ∀ names, names <+: root → tree.IsDir names) :
    locate tree (text root) = .ok root := by
  obtain ⟨follow, same⟩ := Tree.resolve_eq_walk tree kMaxLinks
  rw [locate, same, text]
  by_cases top : root = []
  · rw [if_pos top, top]
    exact (Tree.walk_here _).trans (Tree.walk_here _)
  · rw [if_neg top, elements_render (names_clean root), map_elem]
    exact Tree.walk_dirs canonical

theorem stat_regular (found : (diskOf tree).stat n path = some st) (regular : st.regular) :
    ∃ names file, locate tree path = .ok names ∧ tree.node names = some (.file file) := by
  simp only [diskOf] at found
  split at found
  · split at found
    · rename_i here _ file there
      exact ⟨_, file, here, there⟩
    · cases found
      cases regular
  · cases found

theorem text_concat (front : List Name) (n : Name) :
    text (front ++ [n]) = render (front.unattach ++ [n.1]) := by
  simp [text]

theorem getLast_text (n : Name) : (text (front ++ [n])).getLast? ≠ some 47 := by
  have cut : text (front ++ [n]) = (render front.unattach ++ [47]) ++ n.1 := by
    simp [text_concat, render]
  rw [cut, getLast?_append_of_ne_nil _ n.2.1]
  exact fun ends => n.2.2.1 (mem_of_getLast? ends)

theorem append_text (names : List Name) (relative : tail.head? ≠ some 47) :
    append (text names) tail = render names.unattach ++ 47 :: tail := by
  rw [append, if_neg relative]
  rcases eq_nil_or_concat' names with rfl | ⟨-, n, rfl⟩
  · rfl
  · rw [if_neg]
    · simp [text]
    · exact not_or.mpr ⟨by simp [text, render], getLast_text n⟩

theorem append_slash (names : List Name) (relative : tail.head? ≠ some 47) :
    append (render (names.unattach ++ [[]])) tail = render names.unattach ++ 47 :: tail := by
  rw [append, if_neg relative]
  simp [render]

theorem parts_text (names : List Name) : parts (text names) = names.unattach := by
  rcases eq_nil_or_concat' names with rfl | ⟨front, n, rfl⟩
  · rfl
  have split := splitOn_render (s := []) nofun (names_clean (front ++ [n]))
  have kept : (front ++ [n]).unattach.filter (· ≠ []) = (front ++ [n]).unattach :=
    filter_eq_self.mpr fun word mem => by simpa using (isName_of_mem mem).1
  have same : text (front ++ [n]) = [] ++ render (front ++ [n]).unattach := by simp [text]
  unfold parts
  rw [same, split, filter_cons_of_neg (by simp), kept, ← same, if_neg]
  exact fun ends => getLast_text n ends.2

theorem mismatch_cases (as bs : List Bytes) :
    (∃ rest, as = bs ++ rest ∧ mismatch as bs = (rest, [])) ∨
    ¬ bs <+: as ∧ ∃ rest b bs', mismatch as bs = (rest, b :: bs') ∧ ∀ c ∈ b :: bs', c ∈ bs := by
  fun_induction mismatch as bs with
  | case1 a as bs ih =>
    rcases ih with ⟨rest, rfl, cut⟩ | ⟨other, rest, b', bs', cut, mem⟩
    · exact .inl ⟨rest, rfl, cut⟩
    · refine .inr ⟨fun shorter => other (cons_prefix_cons.mp shorter).2, rest, b', bs', cut, ?_⟩
      exact fun c here => mem_cons_of_mem _ (mem c here)
  | case2 a as b bs differ =>
    refine .inr ⟨fun shorter => differ (cons_prefix_cons.mp shorter).1.symm, _, _, _, rfl, ?_⟩
    exact fun c here => here
  | case3 as bs ended =>
    cases bs with
    | nil => exact .inl ⟨as, rfl, rfl⟩
    | cons b bs =>
      cases as with
      | nil => exact .inr ⟨by simp, _, _, _, rfl, fun c here => here⟩
      | cons a as => exact absurd rfl (ended a as b bs rfl)

theorem relative_iff (root names : List Name) : (lexicallyRelative (text names) (text root) = [] ∨
      (lexicallyRelative (text names) (text root)).head? = some (ascii "..")) ↔ ¬ root <+: names := by
  have absolute : ∀ names : List Name, (text names).head? = some 47 := by
    intro names
    cases names <;> rfl
  have ordinary : ∀ (names : List Name) word, word ∈ names.unattach →
      word ∉ [[], ascii ".", ascii ".."] := by
    intro names word mem
    obtain ⟨nonempty, -, dot, dots⟩ := isName_of_mem mem
    simp [nonempty, dot, dots]
  have inside : root <+: names ↔ root.unattach <+: names.unattach :=
    (prefix_map_iff_of_injective Subtype.val_injective).symm
  rw [inside, lexicallyRelative, absolute, absolute, parts_text, parts_text]
  rcases mismatch_cases names.unattach root.unattach with
    ⟨rest, split, cut⟩ | ⟨other, rest, b, bs, cut, mem⟩
  · have shorter : root.unattach <+: names.unattach := split ▸ prefix_append ..
    rw [cut]
    cases rest with
    | nil => simpa [shorter] using (by decide : ascii "." ≠ ascii "..")
    | cons word rest =>
      have plain := ordinary names word (by simp [split])
      simp only [mem_cons, not_or] at plain
      simp [shorter, plain]
  · have kept : (b :: bs).filter (· ∉ [[], ascii ".", ascii ".."]) = b :: bs :=
      filter_eq_self.mpr fun c here => decide_eq_true (ordinary root c (mem c here))
    have none : (b :: bs).count (ascii "..") = 0 :=
      count_eq_zero.mpr fun here => ordinary root _ (mem _ here) (by simp)
    rw [cut]
    simp only [kept, none]
    simp [other, replicate_succ]

theorem filename_clean (path : Bytes) : 47 ∉ filename path := by
  intro mem
  simpa using mem_rtakeWhile_imp mem

theorem weaklyCanonical_some (found : weaklyCanonical tree path = some canonical) :
    ∃ names, canonical = text names ∨ canonical = render (names.unattach ++ [[]]) := by
  rw [weaklyCanonical] at found
  split at found
  · split at found <;> cases found
    · exact ⟨_, .inl rfl⟩
    · exact ⟨_, .inl rfl⟩
    · exact ⟨_, .inr rfl⟩
  · cases found

def relPath (params : PathParams) : Bytes :=
  let param := (params.head?.map Prod.snd).getD []
  if param.head? = some 47 then param.drop 1 else param

theorem resolvePath_eq_ok_iff {h : StaticFiles} {platform : Platform} {disk : Disk} :
    h.resolvePath platform disk params = .ok filePath ↔
      ∃ canonical directory,
        disk.weaklyCanonical (platform.append h.root (relPath params)) = some canonical ∧
        disk.isDirectory canonical = some directory ∧
        filePath = (if directory then
          platform.append canonical (platform.filename h.opts.indexFile) else canonical) ∧
        ¬ (platform.lexicallyRelative filePath h.root = [] ∨
          (platform.lexicallyRelative filePath h.root).head? = some (ascii "..")) := by
  have guarded : ∀ {c : Prop} [Decidable c] {answer : Early} {path : Bytes},
      (if c then .error answer else .ok path) = (.ok filePath : Except Early Bytes) ↔
        ¬ c ∧ path = filePath := by
    intro c _ answer path
    split <;> simp [*]
  change (orThrow (disk.weaklyCanonical (platform.append h.root (relPath params))) >>= _) = _ ↔ _
  cases disk.weaklyCanonical (platform.append h.root (relPath params)) with
  | none => simp [orThrow, bind, Except.bind]
  | some canonical =>
    cases known : disk.isDirectory canonical with
    | none => simp [orThrow, bind, Except.bind, known]
    | some directory =>
      simp only [orThrow, bind, Except.bind, known, guarded]
      constructor
      · rintro ⟨below, rfl⟩
        exact ⟨_, _, rfl, known, rfl, below⟩
      · rintro ⟨_, _, ⟨⟩, known', rfl, below⟩
        cases known.symm.trans known'
        exact ⟨below, rfl⟩

section
variable {opts : StaticFilesOptions} {extension : Bytes → Bytes} {date : Int → Bytes}

theorem resolvePath_below (resolved : (staticFiles (text root) opts).resolvePath
      (posix extension date) (diskOf tree) params = .ok filePath)
    (there : (diskOf tree).stat n filePath = some st) (regular : st.regular) :
    ∃ inner, filePath = text (root ++ inner) := by
  obtain ⟨canonical, directory, found, -, path, below⟩ := resolvePath_eq_ok_iff.mp resolved
  obtain ⟨names, form⟩ := weaklyCanonical_some found
  obtain ⟨front, last, clean, same⟩ : ∃ front : List Name, ∃ last,
      47 ∉ last ∧ filePath = render (front.unattach ++ [last]) := by
    cases directory with
    | true =>
      have clean := filename_clean opts.indexFile
      have relative : (filename opts.indexFile).head? ≠ some 47 :=
        fun slash => clean (mem_of_head? slash)
      refine ⟨names, filename opts.indexFile, clean, path.trans ?_⟩
      rcases form with rfl | rfl
      · exact (append_text names relative).trans (by simp [render])
      · exact (append_slash names relative).trans (by simp [render])
    | false =>
      rcases form with rfl | rfl
      · rcases eq_nil_or_concat' names with rfl | ⟨front, n, rfl⟩
        · exact ⟨[], [], nofun, path⟩
        · exact ⟨front, n.1, n.2.2.1, path.trans (text_concat front n)⟩
      · exact ⟨names, [], nofun, path⟩
  obtain ⟨dest, file, found, there⟩ := stat_regular there regular
  rw [same] at found
  have valid := name_of_file clean found there
  rw [same, ← text_concat front ⟨last, valid⟩] at below ⊢
  obtain ⟨inner, whole⟩ := Decidable.of_not_not ((relative_iff root _).not.mp below)
  exact ⟨inner, by rw [whole]⟩

/-- A name that does not exist and is left again hides the rest of a path from being resolved. -/
theorem resolvePath_hidden (opts : StaticFilesOptions) (extension : Bytes → Bytes)
    (date : Int → Bytes) (canonical : ∀ names, names <+: root → tree.IsDir names)
    (there : (diskOf tree).stat n (text (root ++ inner)) = some st) (regular : st.regular) :
    ∃ params, (staticFiles (text root) opts).resolvePath (posix extension date) (diskOf tree)
      params = .ok (text (root ++ inner)) := by
  obtain ⟨fresh, absent⟩ := tree.exists_fresh
  obtain ⟨dest, file, found, held⟩ := stat_regular there regular
  have other : ¬ tree.IsDir dest := fun dir => by cases held.symm.trans (Tree.isDir_iff.mp dir)
  rcases eq_nil_or_concat' inner with rfl | ⟨front, last, rfl⟩
  · rw [append_nil, locate_dirs canonical] at found
    cases found
    exact absurd (canonical root prefix_rfl) other
  let rest : Bytes := fresh.1 ++ render (ascii ".." :: (front ++ [last]).unattach)
  let elems : List (Elem Name) := .name fresh :: .up :: (front ++ [last]).map .name
  have relative : rest.head? ≠ some 47 := by
    rw [head?_append_of_ne_nil _ fresh.2.1]
    exact fun slash => fresh.2.2.1 (mem_of_head? slash)
  have walked : elements (append (text root) rest) = .here :: (root.map .name ++ elems) := by
    have words : append (text root) rest =
        render (root.unattach ++ fresh.1 :: ascii ".." :: (front ++ [last]).unattach) := by
      rw [append_text root relative]
      simp [rest, render]
    have cleans := forall_mem_append.mpr ⟨names_clean root, forall_mem_cons.mpr ⟨fresh.2.2.1,
        forall_mem_cons.mpr ⟨(by decide : 47 ∉ ascii ".."), names_clean (front ++ [last])⟩⟩⟩
    have named : elem fresh.1 = .name fresh := dif_pos fresh.2
    rw [words, elements_render cleans, map_append, map_elem, map_cons, map_cons, map_elem, named]
    rfl
  have leads : weaklyCanonical tree (append (text root) rest) =
      some (text (root ++ (front ++ [last]))) := by
    have start : tree.leading kMaxLinks [] [] (elements (append (text root) rest)) =
        .ok (root, elems) := by
      obtain ⟨follow, same⟩ := Tree.resolve_eq_walk tree kMaxLinks
      rw [walked, Tree.leading]
      exact Tree.leading_fresh (Tree.walk_here []) canonical absent kMaxLinks _
    have ends : elems.getLast? = some (.name last) := by simp [elems, getLast?_cons]
    rw [weaklyCanonical, start]
    simp only [ends, elems, normal, normal_names, dropLast_concat]
  have file : (diskOf tree).isDirectory (text (root ++ (front ++ [last]))) = some false := by
    simp [diskOf, found, other]
  refine ⟨[([], 47 :: rest)], resolvePath_eq_ok_iff.mpr ⟨_, _, leads, file, rfl, ?_⟩⟩
  exact (relative_iff root _).not.mpr (not_not.mpr (prefix_append ..))

theorem validate_asking {h : StaticFiles} {platform : Platform} (encodings : Bytes) (st : FileStat) :
    ∃ calls, h.validate platform (asking encodings) st = .ok calls := by
  have ims : unmodified platform (asking encodings) st = false := rfl
  have match_ : h.matched (asking encodings) st = false := by
    have absent : (asking encodings).headers.value .IfNoneMatch = [] := rfl
    simp [matched, absent]
  simp [validate_eq, ims, match_]

/-- Every file that a request opens leads to a file below the root exactly if every path of names
below the root that leads to a file does, and the compressed file that can be selected for it. -/
theorem opens_inside_iff (canonical : ∀ names, names <+: root → tree.IsDir names) :
    (∀ req params path, Opens (staticFiles (text root) opts) (posix extension date) (diskOf tree) req
      params path → Inside tree root path) ↔
    ∀ inner st encodings, (diskOf tree).stat 0 (text (root ++ inner)) = some st → st.regular →
      Inside tree root ((staticFiles (text root) opts).selected (diskOf tree) (text (root ++ inner))
        st encodings).1 := by
  constructor
  · intro inside inner st encodings there regular
    obtain ⟨params, resolved⟩ := resolvePath_hidden opts extension date canonical there regular
    obtain ⟨calls, valid⟩ := validate_asking encodings st
    have found := target_eq_ok_iff.mpr ⟨_, st, calls, resolved, there, regular, valid, rfl⟩
    exact inside (asking encodings) params _ ⟨get_ne_head, _, found, rfl⟩
  · rintro inside req params path ⟨-, t, found, rfl⟩
    obtain ⟨filePath, st, -, resolved, there, regular, -, rfl⟩ := target_eq_ok_iff.mp found
    obtain ⟨inner, rfl⟩ := resolvePath_below resolved there regular
    exact inside inner st _ there regular

end

def nameR : Name := ⟨ascii "r", by decide⟩

def nameA : Name := ⟨ascii "a", by decide⟩

def nameIndex : Name := ⟨ascii "index.html", by decide⟩

/-- A file and a link to it, which is the index file. -/
def linkedInside : Tree Name File where
  entries := [([nameR], .dir), ([nameR, nameA], .file ⟨ascii "a", 0⟩),
    ([nameR, nameIndex], .link false [.name nameA])]
  parents := by decide

theorem opens_inside_linked :
    Opens (staticFiles (text [nameR]) {}) (posix id fun _ => []) (diskOf linkedInside) (asking []) []
      (text [nameR, nameIndex]) ∧ Inside linkedInside [nameR] (text [nameR, nameIndex]) := by
  have canonical : ∀ names, names <+: [nameR] → linkedInside.IsDir names := by
    intro names shorter
    cases names with
    | nil => decide
    | cons n rest =>
      obtain ⟨rfl, rest⟩ := cons_prefix_cons.mp shorter
      rw [prefix_nil.mp rest]
      decide
  have only : ∀ names file, linkedInside.node names = some (.file file) → [nameR] <+: names := by
    intro names file held
    rcases eq_nil_or_concat' names with rfl | ⟨front, n, rfl⟩
    · cases held
    have mem := Tree.mem_of_node held
    simp only [linkedInside, mem_cons, Prod.mk.injEq, reduceCtorEq, and_false,
      not_mem_nil, or_false, false_or] at mem
    rw [mem.1]
    decide
  have opens : Opens (staticFiles (text [nameR]) {}) (posix id fun _ => []) (diskOf linkedInside)
      (asking []) [] (text [nameR, nameIndex]) := ⟨get_ne_head, _, rfl, rfl⟩
  refine ⟨opens, (opens_inside_iff canonical).mpr (fun inner st encodings there regular => ?_) _ _ _ opens⟩
  obtain ⟨n, there, regular⟩ := selected_found encodings there regular
  obtain ⟨names, file, found, held⟩ := stat_regular there regular
  exact ⟨names, file, found, held, only names file held⟩

/-- The index file of the root is a link to a file beside the root. -/
def linkedOutside : Tree Name File where
  entries := [([nameR], .dir), ([nameA], .file ⟨ascii "a", 0⟩),
    ([nameR, nameIndex], .link true [.name nameA])]
  parents := by decide

theorem opens_outside :
    Opens (staticFiles (text [nameR]) {}) (posix id fun _ => []) (diskOf linkedOutside) (asking []) []
        (text [nameR, nameIndex]) ∧
      locate linkedOutside (text [nameR, nameIndex]) = .ok [nameA] ∧ ¬ [nameR] <+: [nameA] :=
  ⟨⟨get_ne_head, _, rfl, rfl⟩, rfl, by decide⟩

end Nitrocoro.Http.StaticFiles
