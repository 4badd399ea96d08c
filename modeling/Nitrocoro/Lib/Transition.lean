import Mathlib.Data.List.Basic

/-! Labelled systems given by a partial step function. The label of a step
resolves every choice of the environment, so a run is determined by its first
state and its labels. A run may be restricted to the steps that a predicate on
the state before the step and the label allows. -/
namespace Transition
open List hiding after
variable {S L : Type} {step : S → L → Option S} {allowed : S → L → Prop}

def free : S → L → Prop := fun _ _ => True

/-- A finite run from `s`, with the labels in the order they were taken. -/
inductive Run (step : S → L → Option S) (allowed : S → L → Prop) (s : S) : List L → S → Prop where
  | refl : Run step allowed s [] s
  | next : Run step allowed s labels t → allowed t label → step t label = some u →
      Run step allowed s (labels ++ [label]) u

theorem of_ite {c : Prop} [Decidable c] {next t : S} (taken : (if c then some next else none) = some t) :
    c ∧ next = t :=
  (Option.ite_none_right_eq_some.mp taken).imp_right Option.some.inj

namespace Run

theorem invariant {P : S → Prop} (run : Run step allowed s labels t) (initial : P s)
    (preserves : ∀ {t u label}, P t → allowed t label → step t label = some u → P u) : P t := by
  induction run with
  | refl => exact initial
  | next _ ok took ih => exact preserves ih ok took

theorem relax {wider : S → L → Prop} (run : Run step allowed s labels t)
    (weaker : ∀ {t label}, allowed t label → wider t label) : Run step wider s labels t := by
  induction run with
  | refl => exact .refl
  | next _ ok took ih => exact .next ih (weaker ok) took

theorem restrict {ok : L → Prop} (run : Run step free s labels t)
    (all : ∀ label ∈ labels, ok label) : Run step (fun _ label => ok label) s labels t := by
  induction run with
  | refl => exact .refl
  | next _ _ took ih =>
    refine .next (ih fun label mem => all label (mem_append_left _ mem)) ?_ took
    exact all _ (mem_append_right _ mem_cons_self)

theorem trans (first : Run step allowed s labels t) (second : Run step allowed t more u) :
    Run step allowed s (labels ++ more) u := by
  induction second with
  | refl => simpa only [append_nil] using first
  | next _ ok took ih => simpa only [append_assoc] using Run.next ih ok took

/-- If a step keeps `P` exactly when it is allowed, and a `P` that is lost does not come back, the
runs that end with `P` are the allowed runs. -/
theorem ends_iff {I P : S → Prop} (run : Run step free s labels t) (initial : I s)
    (first : P s) (preserves : ∀ {t u label}, I t → step t label = some u → I u)
    (keeps : ∀ {t u label}, I t → step t label = some u → (P u ↔ P t ∧ allowed t label)) :
    P t ↔ Run step allowed s labels t := by
  have kept : ∀ {allowed labels t}, Run step allowed s labels t → I t := fun run =>
    run.invariant initial fun holds _ took => preserves holds took
  constructor
  · intro holds
    induction run with
    | refl => exact .refl
    | next run _ took ih =>
      obtain ⟨before, ok⟩ := (keeps (kept run) took).mp holds
      exact .next (ih before) ok took
  · intro restricted
    clear run
    induction restricted with
    | refl => exact first
    | next run ok took ih => exact (keeps (kept run) took).mpr ⟨ih, ok⟩

/-- If a step records an entry in a history exactly when it is not allowed, the runs
with an empty history are the allowed runs. -/
theorem history_nil_iff {X : Type} {history : S → List X} {P : S → Prop}
    (run : Run step free s labels t) (initial : P s) (empty : history s = [])
    (preserves : ∀ {t u label}, P t → step t label = some u → P u)
    (records : ∀ {t u label}, P t → step t label = some u →
      history u = history t ∧ allowed t label ∨
        (∃ x, history u = history t ++ [x]) ∧ ¬ allowed t label) :
    history t = [] ↔ Run step allowed s labels t := by
  refine run.ends_iff (P := fun s => history s = []) initial empty preserves fun holds took => ?_
  obtain ⟨same, ok⟩ | ⟨⟨x, added⟩, banned⟩ := records holds took
  · rw [same, and_iff_left ok]
  · simp [added, banned]

/-- If a good state stays good exactly in the steps that are allowed, and the others lead to bad
states for good, the runs that end with what tells good from bad are the allowed runs. -/
theorem good_iff {I Good Bad P : S → Prop} (run : Run step free s labels t) (initial : I s)
    (first : Good s) (preserves : ∀ {t u label}, I t → step t label = some u → I u)
    (good : ∀ {t u label}, I t → Good t → step t label = some u →
      Good u ∧ allowed t label ∨ Bad u ∧ ¬ allowed t label)
    (bad : ∀ {t u label}, I t → Bad t → step t label = some u → Bad u)
    (holds : ∀ {t}, Good t → P t) (fails : ∀ {t}, Bad t → ¬ P t) :
    P t ↔ Run step allowed s labels t := by
  refine run.ends_iff (I := fun s => I s ∧ (Good s ∨ Bad s)) ⟨initial, .inl first⟩ (holds first)
    ?_ ?_
  · rintro t u label ⟨inv, here | here⟩ took
    · exact ⟨preserves inv took, (good inv here took).imp And.left And.left⟩
    · exact ⟨preserves inv took, .inr (bad inv here took)⟩
  · rintro t u label ⟨inv, here | here⟩ took
    · obtain ⟨next, ok⟩ | ⟨next, banned⟩ := good inv here took
      · exact iff_of_true (holds next) ⟨holds here, ok⟩
      · exact iff_of_false (fails next) fun both => banned both.2
    · exact iff_of_false (fails (bad inv here took)) fun both => fails here both.1

end Run

def exec (step : S → L → Option S) : S → List L → Option S
  | s, [] => some s
  | s, label :: labels => (step s label).bind (exec step · labels)

theorem Run.of_exec (done : exec step s labels = some t) : Run step free s labels t := by
  induction labels generalizing s with
  | nil =>
    cases done
    exact .refl
  | cons label labels ih =>
    obtain ⟨middle, took, rest⟩ := Option.bind_eq_some_iff.mp done
    exact (Run.next .refl trivial took).trans (ih rest)

theorem exec_append (done : exec step s labels = some t) :
    exec step s (labels ++ more) = exec step t more := by
  induction labels generalizing s with
  | nil =>
    cases done
    rfl
  | cons label labels ih =>
    obtain ⟨middle, took, rest⟩ := Option.bind_eq_some_iff.mp done
    rw [cons_append, exec, took]
    exact ih rest

theorem Run.exec_eq (run : Run step allowed s labels t) : exec step s labels = some t := by
  induction run with
  | refl => rfl
  | next _ _ took ih => rw [exec_append ih, exec, took, Option.bind_some, exec]

def guarded (step : S → L → Option S) (allowed : S → L → Prop)
    [∀ s label, Decidable (allowed s label)] (s : S) (label : L) : Option S :=
  if allowed s label then step s label else none

theorem Run.of_guarded [∀ s label, Decidable (allowed s label)]
    (done : exec (guarded step allowed) s labels = some t) : Run step allowed s labels t := by
  have run := Run.of_exec done
  clear done
  induction run with
  | refl => exact .refl
  | next _ _ took ih =>
    obtain ⟨ok, took⟩ := Option.ite_none_right_eq_some.mp took
    exact .next ih ok took

theorem Run.allowed_at (run : Run step allowed s labels u)
    (split : labels = before ++ label :: after) (reached : exec step s before = some t) :
    allowed t label := by
  induction run generalizing after with
  | refl => simp at split
  | next run ok took ih =>
    rcases eq_nil_or_concat after with rfl | ⟨rest, last, rfl⟩
    · obtain ⟨rfl, same⟩ := append_inj' split rfl
      cases same
      cases reached.symm.trans run.exec_eq
      exact ok
    · rw [concat_eq_append, ← cons_append, ← append_assoc] at split
      exact ih (append_inj_left' split rfl)

/-- If a step keeps `P` exactly when it is allowed, the runs through states with `P` only are the
allowed runs. -/
theorem Run.always_iff {I P : S → Prop} (run : Run step free s labels t) (initial : I s)
    (first : P s) (preserves : ∀ {t u label}, I t → step t label = some u → I u)
    (keeps : ∀ {t u label}, I t → P t → step t label = some u → (P u ↔ allowed t label)) :
    (∀ before u, before <+: labels → exec step s before = some u → P u) ↔
      Run step allowed s labels t := by
  have kept : ∀ {allowed labels t}, Run step allowed s labels t → I t := fun run =>
    run.invariant initial fun holds _ took => preserves holds took
  constructor
  · intro always
    induction run with
    | refl => exact .refl
    | next run _ took ih =>
      have here := always _ _ (prefix_append ..) run.exec_eq
      have after := always _ _ prefix_rfl (run.next trivial took).exec_eq
      refine .next (ih fun before u initial => ?_) ((keeps (kept run) here took).mp after) took
      exact always before u (initial.trans (prefix_append ..))
  · intro restricted
    clear run
    induction restricted with
    | refl =>
      intro before u initial done
      rw [prefix_nil.mp initial] at done
      cases done
      exact first
    | next run ok took ih =>
      intro before u initial done
      rcases prefix_concat_iff.mp initial with rfl | initial
      · have here := ih _ _ prefix_rfl run.exec_eq
        cases done.symm.trans (run.next ok took).exec_eq
        exact (keeps (kept run) here took).mpr ok
      · exact ih before u initial done

def collect {X : Type} (step : S → L → Option S) (emit : S → L → List X) : S → List L → List X
  | _, [] => []
  | s, label :: labels =>
    emit s label ++ match step s label with
      | some t => collect step emit t labels
      | none => []

theorem collect_append {X : Type} {emit : S → L → List X} (done : exec step s labels = some t) :
    collect step emit s (labels ++ more) =
      collect step emit s labels ++ collect step emit t more := by
  induction labels generalizing s with
  | nil =>
    cases done
    rfl
  | cons label labels ih =>
    obtain ⟨middle, took, rest⟩ := Option.bind_eq_some_iff.mp done
    simp only [cons_append, collect, took, ih rest, append_assoc]

/-- An invariant that relates the state to what the run has emitted. -/
theorem Run.invariant_collect {X : Type} {emit : S → L → List X} {P : S → List X → Prop}
    (run : Run step allowed s labels t) (initial : P s [])
    (preserves : ∀ {t u label xs}, P t xs → step t label = some u → P u (xs ++ emit t label)) :
    P t (collect step emit s labels) := by
  induction run with
  | refl => exact initial
  | next before _ took ih =>
    rw [collect_append before.exec_eq]
    simp only [collect, took, append_nil]
    exact preserves ih took

/-- What can be decided of the last state of a run by executing it. -/
theorem exec_any {P : S → Prop} [DecidablePred P] (holds : (exec step s labels).any (P ·)) :
    ∃ t, exec step s labels = some t ∧ P t := by
  obtain ⟨t, done, decided⟩ := (Option.any_eq_true _ _).mp holds
  exact ⟨t, done, of_decide_eq_true decided⟩

end Transition
