import Mathlib.Logic.Relation

/-!
# Labelled transition systems

A step relation `step : σ → ℓ → σ → Prop` from a start state. `Run step s₀ ls s` is a run with its
labels in time order; `ReachVia step ok s₀ s` says that `s` is reached by steps each of which
meets the side condition `ok` in the state it is taken from. The two invariant rules
(`Run.invariant`, `ReachVia.invariant`) turn a fact about one step into one about every run, and
`Run.project` turns a simulation of single steps, some of them silent, into one of runs.

`answers` runs a machine that answers every call. If one call of a machine is simulated by one of
another, with the same answer, so are sequences of calls (`answers_sim`).
-/

namespace Hallucinate.Lib

variable {σ ℓ : Type}

/-- A run from `s₀`, its labels in time order. -/
inductive Run (step : σ → ℓ → σ → Prop) (s₀ : σ) : List ℓ → σ → Prop
  | nil : Run step s₀ [] s₀
  | snoc {ls s l s'} (hr : Run step s₀ ls s) (hs : step s l s') : Run step s₀ (ls ++ [l]) s'

/-- States reached by steps that meet `ok` where they are taken. -/
def ReachVia (step : σ → ℓ → σ → Prop) (ok : σ → ℓ → Prop) (s₀ : σ) : σ → Prop :=
  Relation.ReflTransGen (fun s s' => ∃ l, step s l s' ∧ ok s l) s₀

variable {step : σ → ℓ → σ → Prop} {ok : σ → ℓ → Prop} {s₀ s s' : σ} {l : ℓ}

theorem ReachVia.refl : ReachVia step ok s₀ s₀ := Relation.ReflTransGen.refl

theorem ReachVia.tail (h : ReachVia step ok s₀ s) (hs : step s l s') (hok : ok s l) :
    ReachVia step ok s₀ s' :=
  Relation.ReflTransGen.tail h ⟨l, hs, hok⟩

variable {P : σ → Prop}

/-- What the start has and every admissible step keeps holds in every state reached. -/
theorem ReachVia.invariant (h0 : P s₀) (hstep : ∀ {s l s'}, P s → ok s l → step s l s' → P s')
    (h : ReachVia step ok s₀ s) : P s := by
  induction h with
  | refl => exact h0
  | tail _ hs ih =>
    obtain ⟨_, hs, hok⟩ := hs
    exact hstep ih hok hs

variable {ls : List ℓ}

/-- The same for runs, with a predicate that also reads the labels so far. -/
theorem Run.invariant {P : List ℓ → σ → Prop} (h0 : P [] s₀)
    (hstep : ∀ {ls s l s'}, P ls s → step s l s' → P (ls ++ [l]) s') (h : Run step s₀ ls s) :
    P ls s := by
  induction h with
  | nil => exact h0
  | snoc _ hs ih => exact hstep ih hs

/-- **Simulation along a projection.** If every step from a state with the invariant `P` projects
to a step of the other system, or to none and leaves the projected state alone, then every run
projects to a run. -/
theorem Run.project {τ m : Type} {step' : τ → m → τ → Prop} (f : σ → τ) (g : ℓ → Option m)
    (h0 : P s₀) (hP : ∀ {s l s'}, P s → step s l s' → P s')
    (hsome : ∀ {s l s' e}, P s → step s l s' → g l = some e → step' (f s) e (f s'))
    (hnone : ∀ {s l s'}, P s → step s l s' → g l = none → f s' = f s) (h : Run step s₀ ls s) :
    P s ∧ Run step' (f s₀) (ls.filterMap g) (f s) := by
  induction h with
  | nil => exact ⟨h0, Run.nil⟩
  | @snoc ls s l s' _ hs ih =>
    obtain ⟨hp, hrun⟩ := ih
    refine ⟨hP hp hs, ?_⟩
    rw [List.filterMap_append]
    cases hg : g l with
    | none =>
      rw [hnone hp hs hg, List.filterMap_cons_none hg, List.filterMap_nil, List.append_nil]
      exact hrun
    | some e =>
      rw [List.filterMap_cons_some hg, List.filterMap_nil]
      exact hrun.snoc (hsome hp hs hg)

/-! ## Machines that answer calls -/

section Answers

variable {τ ι ο : Type} {call : σ → ι → ο × σ} {call' : τ → ι → ο × τ} {ok' : τ → ι → Prop}

/-- The answers to a sequence of calls, and the state after it. -/
def answers (call : σ → ι → ο × σ) : σ → List ι → List ο × σ
  | s, [] => ([], s)
  | s, i :: is =>
    let r := answers call (call s i).2 is
    ((call s i).1 :: r.1, r.2)

/-- Every call meets `ok` in the state it is made in. -/
def Admits (call : σ → ι → ο × σ) (ok : σ → ι → Prop) : σ → List ι → Prop
  | _, [] => True
  | s, i :: is => ok s i ∧ Admits call ok (call s i).2 is

/-- **Simulation of calls**: states that correspond give the same answers, and correspond after. -/
theorem answers_sim {R : σ → τ → Prop}
    (hcall : ∀ {s t} i, R s t → ok' t i →
      (call s i).1 = (call' t i).1 ∧ R (call s i).2 (call' t i).2)
    {is : List ι} {s : σ} {t : τ} (h : R s t) (hok : Admits call' ok' t is) :
    (answers call s is).1 = (answers call' t is).1 ∧
      R (answers call s is).2 (answers call' t is).2 := by
  induction is generalizing s t with
  | nil => exact ⟨rfl, h⟩
  | cons i is ih =>
    obtain ⟨hans, hR⟩ := hcall i h hok.1
    obtain ⟨hans', hR'⟩ := ih hR hok.2
    exact ⟨List.cons_eq_cons.mpr ⟨hans, hans'⟩, hR'⟩

theorem admits_of (h : ∀ t i, ok' t i) (is : List ι) (t : τ) : Admits call' ok' t is := by
  induction is generalizing t with
  | nil => trivial
  | cons i is ih => exact ⟨h t i, ih _⟩

end Answers

end Hallucinate.Lib
