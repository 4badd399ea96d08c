import Mathlib.Data.List.GetD
import Nitrocoro.Http.OutgoingMessage

/-! The registry of methods: an id is the place of a name, as far as 16 bits tell it. -/
namespace Nitrocoro.Http.MethodRegistry
open Text List
variable {reg : MethodRegistry}

structure Indexed (reg : MethodRegistry) : Prop where
  nodup : reg.names.Nodup
  ids : ∀ name, reg.ids.lookup name =
    if name ∈ reg.names then some (reg.names.idxOf name).toUInt16 else none

theorem Indexed.fromString (indexed : Indexed reg) (known : name ∈ reg.names) :
    reg.fromString name = ⟨(reg.names.idxOf name).toUInt16⟩ := by
  rw [MethodRegistry.fromString, indexed.ids, if_pos known]

theorem Indexed.add (indexed : Indexed reg) (name : Bytes) :
    Indexed (reg.add name).2 ∧ reg.names <+: (reg.add name).2.names ∧
      (∀ other, other ∈ (reg.add name).2.names ↔ other ∈ reg.names ∨ other = name) ∧
      (reg.add name).1 = (reg.add name).2.fromString name := by
  unfold MethodRegistry.add
  have ids := indexed.ids name
  by_cases known : name ∈ reg.names
  · rw [if_pos known] at ids
    rw [ids]
    refine ⟨indexed, prefix_rfl, fun other => (or_iff_left_of_imp ?_).symm,
      (indexed.fromString known).symm⟩
    rintro rfl
    exact known
  · rw [if_neg known] at ids
    rw [ids]
    refine ⟨⟨?_, fun other => ?_⟩, prefix_append _ _, by simp, ?_⟩
    · rw [(perm_append_singleton name reg.names).nodup_iff, nodup_cons]
      exact ⟨known, indexed.nodup⟩
    · by_cases same : other = name
      · subst same
        simp [idxOf_append_of_notMem known]
      · rw [lookup_cons, beq_false_of_ne same, indexed.ids]
        by_cases old : other ∈ reg.names
        · simp [old, idxOf_append_of_mem old]
        · simp [old, same]
    · simp [MethodRegistry.fromString]

theorem Indexed.foldl (indexed : Indexed reg) (names : List Bytes) :
    Indexed (names.foldl (fun reg name => (reg.add name).2) reg) ∧
      reg.names <+: (names.foldl (fun reg name => (reg.add name).2) reg).names ∧
      ∀ name, name ∈ (names.foldl (fun reg name => (reg.add name).2) reg).names ↔
        name ∈ reg.names ∨ name ∈ names := by
  induction names generalizing reg with
  | nil => exact ⟨indexed, prefix_rfl, fun name => by simp⟩
  | cons name names ih =>
    obtain ⟨added, longer, mem, -⟩ := indexed.add name
    obtain ⟨all, longest, members⟩ := ih added
    refine ⟨all, longer.trans longest, fun other => ?_⟩
    rw [foldl_cons, members, mem, or_assoc, mem_cons]

theorem indexed_empty : Indexed {} := ⟨nodup_nil, fun _ => rfl⟩

theorem registering_append (front back : List Bytes) : registering (front ++ back) =
    back.foldl (fun reg name => (reg.add name).2) (registering front) := by
  simp [registering]

/-- Each name has an id of its own, under which it is found again, and those that are not standard
names have an id above that of `_Invalid`. -/
def Distinct (customs : List Bytes) : Prop :=
  let reg := registering customs
  (∀ name ∈ reg.names, ∀ other ∈ reg.names, reg.fromString name = reg.fromString other →
    name = other) ∧
  ∀ front name back, customs = front ++ name :: back →
    let method := ((registering front).add name).1
    reg.fromString (reg.toString method) = method ∧
      (name ∉ HttpMethod.standardNames → HttpMethod.invalid.id < method.id)

theorem returned_eq (front back : List Bytes) (name : Bytes) :
    name ∈ (registering (front ++ name :: back)).names ∧ ((registering front).add name).1 =
      (registering (front ++ name :: back)).fromString name := by
  have before : Indexed (registering front) := (indexed_empty.foldl _).1
  obtain ⟨added, -, mem, id⟩ := before.add name
  have known := (mem name).mpr (.inr rfl)
  obtain ⟨after, longer, -⟩ := added.foldl back
  rw [registering_append, foldl_cons, id, added.fromString known,
    after.fromString (longer.mem known), longer.idxOf_eq_of_mem known]
  exact ⟨longer.mem known, rfl⟩

theorem toNat_id (indexed : Indexed reg) (known : name ∈ reg.names) :
    (reg.fromString name).id.toNat = reg.names.idxOf name % 65536 := by
  rw [indexed.fromString known]
  exact UInt16.toNat_ofNat'

/-- The registry has a place for every different name. -/
theorem length_names (customs : List Bytes) : (registering customs).names.length =
    (HttpMethod.standardNames ++ [] :: customs).dedup.length := by
  obtain ⟨indexed, -, members⟩ := indexed_empty.foldl (HttpMethod.standardNames ++ [] :: customs)
  refine ((perm_ext_iff_of_nodup indexed.nodup (nodup_dedup _)).mpr fun name => ?_).length_eq
  rw [members, mem_dedup]
  exact or_iff_right not_mem_nil

/-- The ids tell the names apart if and only if there are at most 65536 of them, with the standard
names and that of `_Invalid`, and the empty name is not registered. -/
theorem distinct_iff (customs : List Bytes) : Distinct customs ↔
    (HttpMethod.standardNames ++ [] :: customs).dedup.length ≤ 65536 ∧ [] ∉ customs := by
  rw [← length_names]
  have indexed : Indexed (registering customs) := (indexed_empty.foldl _).1
  have standard : HttpMethod.standardNames ++ [[]] <+: (registering customs).names := by
    have base : Indexed (registering []) := (indexed_empty.foldl _).1
    have names : (registering []).names = HttpMethod.standardNames ++ [[]] := by decide
    have start := registering_append [] customs
    rw [nil_append] at start
    rw [← names]
    exact (base.foldl customs).2.1
  constructor
  · rintro ⟨distinct, calls⟩
    constructor
    · by_contra many
      have first : 0 < (registering customs).names.length := by omega
      have wraps : 65536 < (registering customs).names.length := by omega
      have same := distinct _ (getElem_mem wraps) _ (getElem_mem first) (by
        rw [indexed.fromString (getElem_mem _), indexed.fromString (getElem_mem _),
          indexed.nodup.idxOf_getElem, indexed.nodup.idxOf_getElem]
        rfl)
      cases (indexed.nodup.getElem_inj_iff).mp same
    · intro empty
      obtain ⟨front, back, rfl⟩ := append_of_mem empty
      have above := (calls front [] back rfl).2 (by decide)
      rw [(returned_eq front back []).2, UInt16.lt_iff_toNat_lt,
        toNat_id indexed (returned_eq front back []).1,
        ← standard.idxOf_eq_of_mem (by simp)] at above
      exact absurd above (by decide)
  · rintro ⟨few, named⟩
    have index : ∀ name ∈ (registering customs).names,
        ((registering customs).fromString name).id.toNat =
          (registering customs).names.idxOf name := by
      intro name known
      have below := idxOf_lt_length_of_mem known
      rw [toNat_id indexed known, Nat.mod_eq_of_lt (by omega)]
    refine ⟨fun name known other known' same => ?_, ?_⟩
    · rw [← idxOf_inj known, ← index name known, ← index other known', same]
    · rintro front name back rfl
      obtain ⟨known, method⟩ := returned_eq front back name
      dsimp only
      rw [method]
      refine ⟨?_, fun custom => ?_⟩
      · have text : (registering (front ++ name :: back)).toString
            ((registering (front ++ name :: back)).fromString name) = name := by
          rw [MethodRegistry.toString, index name known, getD_eq_getElem _ _
            (idxOf_lt_length_of_mem known), getElem_idxOf]
        rw [text]
      · obtain ⟨rest, names⟩ := standard
        have other : name ∉ HttpMethod.standardNames ++ [[]] := by
          simp only [mem_append, mem_singleton, not_or]
          refine ⟨custom, ?_⟩
          rintro rfl
          exact named (by simp)
        rw [UInt16.lt_iff_toNat_lt, index name known, ← names, idxOf_append_of_notMem other]
        exact Nat.lt_of_lt_of_le (by decide : 9 < 10) (Nat.le_add_right _ _)

/-- The empty name gets the id of `_Invalid`. -/
theorem empty_invalid : ¬ Distinct [[]] :=
  fun distinct => absurd ((distinct.2 [] [] [] rfl).2 (by decide)) (by decide)

end Nitrocoro.Http.MethodRegistry
