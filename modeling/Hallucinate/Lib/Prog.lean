/-!
# Programs over fallible commands

A program is a tree of commands of a signature `Sig`, whose answers choose how it goes on, and
which ends in a value or an error. A `Machine` gives the commands their meaning on a state. A
command may be fallible: then the environment decides, by one bit, whether it fails. A step with no
result (`none`) is one whose result is indeterminate, such as reading memory never written.

`run` executes a program under a pattern of failures. `wp` is the weakest precondition over every
pattern; it also asks that no step is indeterminate.

Results: `wp` follows the program (`wp_seq`, `wp_attempt`, `wp_foldP`) and holds of every run
(`run_of_wp`); a property that every command keeps when it does not fail is kept by a run without
failures (`run_invariant`). A run takes the parts of a program one after the other (`run_bind`,
`run_bind_quiet`). An environment that fails the same commands each time makes the outcome a function
of the state (`runOn`). A program whose commands are all of some kind (`Uses`) keeps what those commands
keep (`Uses.run`).
-/

namespace Hallucinate.Lib

/-- Commands, with the type of each one's answer. -/
structure Sig where
  Cmd : Type
  Ans : Cmd → Type

inductive Prog (S : Sig) (ε α : Type) : Type
  | ret (r : Except ε α)
  | cmd (c : S.Cmd) (k : S.Ans c → Prog S ε α)

/-- What the commands do. The bit says that the environment fails the command. -/
structure Machine (S : Sig) (σ : Type) where
  fallible : S.Cmd → Bool
  step : (c : S.Cmd) → Bool → σ → Option (S.Ans c × σ)

namespace Prog

variable {S : Sig} {ε α β σ : Type}

/-- Sequencing; an error ends the program. -/
def bind : Prog S ε α → (α → Prog S ε β) → Prog S ε β
  | .ret (.ok a), f => f a
  | .ret (.error e), _ => .ret (.error e)
  | .cmd c k, f => .cmd c fun x => (k x).bind f

instance : Monad (Prog S ε) where
  pure a := .ret (.ok a)
  bind := Prog.bind

def fail (e : ε) : Prog S ε α := .ret (.error e)

/-- The program with its outcome handed on instead of ending the caller. -/
def attempt : Prog S ε α → Prog S ε (Except ε α)
  | .ret r => .ret (.ok r)
  | .cmd c k => .cmd c fun x => (k x).attempt

/-- One command, with its answer as the value. -/
def exec (c : S.Cmd) : Prog S ε (S.Ans c) := .cmd c fun x => .ret (.ok x)

/-- The program, if `c` holds. -/
def when (c : Prop) [Decidable c] (p : Prog S ε Unit) : Prog S ε Unit :=
  if c then p else .ret (.ok ())

/-- A loop over a list, with an accumulator. -/
def foldP {ι : Type} (f : β → ι → Prog S ε β) : β → List ι → Prog S ε β
  | b, [] => .ret (.ok b)
  | b, i :: is => (f b i).bind fun b' => foldP f b' is

theorem bind_pure (p : Prog S ε α) : p >>= pure = p := by
  induction p with
  | ret r => cases r <;> rfl
  | cmd c k ih => exact congrArg (Prog.cmd c) (funext ih)

theorem bind_assoc {γ : Type} (p : Prog S ε α) (f : α → Prog S ε β) (g : β → Prog S ε γ) :
    p >>= f >>= g = p >>= fun a => f a >>= g := by
  induction p with
  | ret r => cases r <;> rfl
  | cmd c k ih => exact congrArg (Prog.cmd c) (funext ih)

/-! ## Execution -/

variable (M : Machine S σ)

/-- The run under the failures `o`, one bit for each fallible command in order. -/
def run : Prog S ε α → (Nat → Bool) → σ → Option (Except ε α × σ)
  | .ret r, _, s => some (r, s)
  | .cmd c k, o, s =>
    match M.step c (M.fallible c && o 0) s with
    | none => none
    | some (x, s') => (k x).run (if M.fallible c then fun i => o (i + 1) else o) s'

/-- The weakest precondition of `Q` over all failures. -/
def wp : Prog S ε α → (Except ε α → σ → Prop) → σ → Prop
  | .ret r, Q, s => Q r s
  | .cmd c k, Q, s => ∀ f, (f = true → M.fallible c = true) →
      ∃ x s', M.step c f s = some (x, s') ∧ (k x).wp Q s'

variable {M}

variable {p : Prog S ε α} {s : σ}

/-- **A weakest precondition holds of every run**: it has a result, and the result is in `Q`. -/
theorem run_of_wp {Q : Except ε α → σ → Prop} (h : p.wp M Q s) (o : Nat → Bool) :
    ∃ r s', p.run M o s = some (r, s') ∧ Q r s' := by
  induction p generalizing o s with
  | ret r => exact ⟨r, s, rfl, h⟩
  | cmd c k ih =>
    obtain ⟨x, s₁, hstep, hk⟩ := h (M.fallible c && o 0) fun hf => (Bool.and_eq_true_iff.mp hf).1
    obtain ⟨r, s', hrun, hq⟩ := ih x hk (if M.fallible c then fun i => o (i + 1) else o)
    exact ⟨r, s', by rw [run, hstep]; exact hrun, hq⟩

variable {s' : σ} {o : Nat → Bool} {r : Except ε α}

/-- The same, from the run's side. -/
theorem post_of_run {Q : Except ε α → σ → Prop} (h : p.wp M Q s) (hrun : p.run M o s = some (r, s')) :
    Q r s' := by
  obtain ⟨r', s'', hrun', hq⟩ := run_of_wp h o
  rw [hrun] at hrun'
  cases hrun'
  exact hq

/-! ## Rules for the weakest precondition -/

theorem wp_mono {Q Q' : Except ε α → σ → Prop} (h : p.wp M Q s) (hq : ∀ r s', Q r s' → Q' r s') :
    p.wp M Q' s := by
  induction p generalizing s with
  | ret r => exact hq r s h
  | cmd c k ih =>
    intro f hf
    obtain ⟨x, s', hstep, hk⟩ := h f hf
    exact ⟨x, s', hstep, ih x hk⟩

variable {f : α → Prog S ε β} {Q : Except ε β → σ → Prop}

/-- **Sequencing**: the first part has to reach the second one's precondition, or to fail in `Q`. -/
theorem wp_seq {P : Except ε α → σ → Prop} (hp : p.wp M P s)
    (herr : ∀ e s', P (.error e) s' → Q (.error e) s')
    (hok : ∀ a s', P (.ok a) s' → (f a).wp M Q s') : (p >>= f).wp M Q s := by
  induction p generalizing s with
  | ret r =>
    cases r with
    | error e => exact herr e s hp
    | ok a => exact hok a s hp
  | cmd c k ih =>
    intro b hb
    obtain ⟨x, s', hstep, hk⟩ := hp b hb
    exact ⟨x, s', hstep, ih x hk⟩

theorem wp_attempt {Q : Except ε (Except ε α) → σ → Prop} (h : p.wp M (fun r => Q (.ok r)) s) :
    p.attempt.wp M Q s := by
  induction p generalizing s with
  | ret r => exact h
  | cmd c k ih =>
    intro f hf
    obtain ⟨x, s', hstep, hk⟩ := h f hf
    exact ⟨x, s', hstep, ih x hk⟩

/-- A command that the environment cannot fail, in front of a program. -/
theorem wp_exec {c : S.Cmd} {f : S.Ans c → Prog S ε β} {t : σ} {x : S.Ans c}
    (hc : M.fallible c = false) (hstep : M.step c false s = some (x, t)) (h : (f x).wp M Q t) :
    (exec c >>= f).wp M Q s := by
  intro b hb
  cases b with
  | false => exact ⟨x, t, hstep, h⟩
  | true =>
    have hc' := hb rfl
    rw [hc] at hc'
    cases hc'

variable {b : β}

/-- **The loop rule**: `I done b` holds when the elements `done` are through with accumulator
`b`; each round keeps it or ends in `Q`. -/
theorem wp_foldP {ι : Type} {f : β → ι → Prog S ε β} {I : List ι → β → σ → Prop} {l : List ι}
    (hinit : I [] b s) (hstep : ∀ done i rest b s, done ++ i :: rest = l → I done b s → (f b i).wp M
      (fun r s' => match r with | .ok b' => I (done ++ [i]) b' s' | .error e => Q (.error e) s') s)
    (hend : ∀ b s, I l b s → Q (.ok b) s) : (foldP f b l).wp M Q s := by
  -- generalised to a loop that has already gone through `done`
  have hgen : ∀ (rest done : List ι) b s, done ++ rest = l → I done b s →
      (foldP f b rest).wp M Q s := by
    intro rest
    induction rest with
    | nil =>
      intro done b s hl hI
      rw [List.append_nil] at hl
      exact hend b s (hl ▸ hI)
    | cons i rest ih =>
      intro done b s hl hI
      refine wp_seq (hstep done i rest b s hl hI) (fun e s' he => he) fun b' s' hb' => ?_
      exact ih (done ++ [i]) b' s' (by rw [List.append_assoc]; exact hl) hb'
  exact hgen l [] b s rfl hinit

variable {start n : Nat}

/-- The loop over the numbers from `start`: `I i b` holds after `i` rounds. -/
theorem wp_foldRange {f : β → Nat → Prog S ε β} {I : Nat → β → σ → Prop} (hinit : I 0 b s)
    (hstep : ∀ i b s, i < n → I i b s → (f b (start + i)).wp M
      (fun r s' => match r with | .ok b' => I (i + 1) b' s' | .error e => Q (.error e) s') s)
    (hend : ∀ b s, I n b s → Q (.ok b) s) : (foldP f b (List.range' start n)).wp M Q s := by
  refine wp_foldP (I := fun done b s => I done.length b s) hinit ?_ ?_
  · intro done i rest b s hl hI
    have hlen := congrArg List.length hl
    have hget : (List.range' start n)[done.length]? = some i := by simp [← hl]
    simp only [List.length_append, List.length_cons, List.length_range'] at hlen
    rw [List.getElem?_range' (by omega), Option.some_inj, Nat.one_mul] at hget
    subst hget
    rw [List.length_append]
    exact hstep done.length b s (by omega) hI
  · intro b s hI
    rw [List.length_range'] at hI
    exact hend b s hI

/-! ## Relations between runs -/

/-- **A run goes through the parts of a program one after the other**: the first part ends it with an
error, or hands a value to the second, which runs under the failures that are left. -/
theorem run_bind {r : Except ε β} (h : (p >>= f).run M o s = some (r, s')) :
    (∃ e, p.run M o s = some (.error e, s') ∧ r = .error e) ∨
      ∃ a s₁ o', p.run M o s = some (.ok a, s₁) ∧ (f a).run M o' s₁ = some (r, s') := by
  induction p generalizing o s with
  | ret r' =>
    cases r' with
    | error e =>
      cases h
      exact .inl ⟨e, rfl, rfl⟩
    | ok a => exact .inr ⟨a, s, o, rfl, h⟩
  | cmd c k ih =>
    change (Prog.cmd c fun x => (k x).bind f).run M o s = _ at h
    rw [run] at h ⊢
    cases hst : M.step c (M.fallible c && o 0) s with
    | none => rw [hst] at h; cases h
    | some xs => rw [hst] at h; exact ih xs.1 h

/-- A command in front of a program. -/
theorem run_exec (c : S.Cmd) (f : S.Ans c → Prog S ε β) (o : Nat → Bool) (s : σ) :
    (exec c >>= f).run M o s = (M.step c (M.fallible c && o 0) s).bind fun xs =>
      (f xs.1).run M (if M.fallible c then fun i => o (i + 1) else o) xs.2 := by
  change (Prog.cmd c f).run M o s = _
  rw [run]
  cases M.step c (M.fallible c && o 0) s <;> rfl

variable {a : α}

/-- A run without failures goes through the parts of a program one after the other. -/
theorem run_bind_quiet (h : p.run M (fun _ => false) s = some (.ok a, s')) :
    (p >>= f).run M (fun _ => false) s = (f a).run M (fun _ => false) s' := by
  induction p generalizing s with
  | ret r =>
    cases h
    rfl
  | cmd c k ih =>
    rw [run, Bool.and_false, ite_self] at h
    show (Prog.cmd c fun x => (k x).bind f).run M (fun _ => false) s = _
    rw [run, Bool.and_false, ite_self]
    cases hst : M.step c false s with
    | none => rw [hst] at h; cases h
    | some xs =>
      obtain ⟨x, s₁⟩ := xs
      rw [hst] at h
      exact ih x h

variable {I : σ → Prop}

/-- **A property that every command keeps is kept by a run without failures.** -/
theorem run_invariant (hI : ∀ c s x s', I s → M.step c false s = some (x, s') → I s') (hs : I s)
    (h : p.run M (fun _ => false) s = some (r, s')) : I s' := by
  induction p generalizing s with
  | ret r' =>
    cases h
    exact hs
  | cmd c k ih =>
    rw [run, Bool.and_false, ite_self] at h
    cases hst : M.step c false s with
    | none => rw [hst] at h; cases h
    | some xs =>
      obtain ⟨x, s₁⟩ := xs
      rw [hst] at h
      exact ih x (hI c s x s₁ hs hst) h

/-! ## Environments that always fail the same commands -/

/-- The run in an environment that fails the commands in `bad`, whenever they are issued. -/
def runOn (M : Machine S σ) (bad : S.Cmd → Bool) : Prog S ε α → σ → Option (Except ε α × σ)
  | .ret r, s => some (r, s)
  | .cmd c k, s =>
    (M.step c (M.fallible c && bad c) s).bind fun xs => (k xs.1).runOn M bad xs.2

/-- The second part of a program, on the outcome of the first. -/
def runNext (M : Machine S σ) (bad : S.Cmd → Bool) (f : α → Prog S ε β) :
    Except ε α × σ → Option (Except ε β × σ)
  | (.ok a, s) => (f a).runOn M bad s
  | (.error e, s) => some (.error e, s)

theorem runOn_bind (bad : S.Cmd → Bool) (p : Prog S ε α) (f : α → Prog S ε β) (s : σ) :
    (p >>= f).runOn M bad s = (p.runOn M bad s).bind (runNext M bad f) := by
  induction p generalizing s with
  | ret r => cases r <;> rfl
  | cmd c k ih =>
    change (Prog.cmd c fun x => (k x).bind f).runOn M bad s = _
    rw [runOn, runOn]
    cases M.step c (M.fallible c && bad c) s with
    | none => rfl
    | some xs => exact ih xs.1 xs.2

/-- Such a run is one of the runs. -/
theorem exists_run (bad : S.Cmd → Bool) (p : Prog S ε α) (s : σ) :
    ∃ o, p.run M o s = p.runOn M bad s := by
  induction p generalizing s with
  | ret r => exact ⟨fun _ => false, rfl⟩
  | cmd c k ih =>
    cases hst : M.step c (M.fallible c && bad c) s with
    | none => exact ⟨fun _ => bad c, by rw [run, runOn, hst]; rfl⟩
    | some xs =>
      obtain ⟨o, ho⟩ := ih xs.1 xs.2
      -- the first bit of the pattern is used up exactly if the command is fallible
      refine ⟨if M.fallible c then fun i => Nat.casesOn i (bad c) o else o, ?_⟩
      have hon : (Prog.cmd c k).runOn M bad s = (k xs.1).runOn M bad xs.2 := by
        rw [runOn, hst]
        rfl
      rw [hon, ← ho]
      cases hf : M.fallible c with
      | false =>
        rw [hf, Bool.false_and] at hst
        rw [if_neg (by decide), run, hf, Bool.false_and, hst]
        rfl
      | true =>
        rw [hf, Bool.true_and] at hst
        rw [if_pos rfl, run, hf, Bool.true_and]
        show (match M.step c (bad c) s with | none => none | some (x, s') => _) = _
        rw [hst]
        rfl

/-! ## The commands of a program -/

/-- Every command that the program can issue is in `P`. -/
def Uses (P : S.Cmd → Prop) : Prog S ε α → Prop
  | .ret _ => True
  | .cmd c k => P c ∧ ∀ x, (k x).Uses P

variable {P : S.Cmd → Prop}

theorem Uses.pure (a : α) : (pure a : Prog S ε α).Uses P := True.intro

theorem Uses.fail (e : ε) : (fail e : Prog S ε α).Uses P := True.intro

theorem Uses.bind (hp : p.Uses P) (hf : ∀ a, (f a).Uses P) : (p >>= f).Uses P := by
  induction p with
  | ret r =>
    cases r with
    | ok a => exact hf a
    | error e => trivial
  | cmd c k ih => exact ⟨hp.1, fun x => ih x (hp.2 x)⟩

theorem Uses.ite {c : Prop} [Decidable c] {q : Prog S ε α} (hp : p.Uses P) (hq : q.Uses P) :
    (if c then p else q).Uses P := by
  split
  · exact hp
  · exact hq

/-- **What the commands of a program keep, its runs keep.** -/
theorem Uses.run (hI : ∀ c f s x s', P c → I s → M.step c f s = some (x, s') → I s') (hp : p.Uses P)
    (hs : I s) (h : p.run M o s = some (r, s')) : I s' := by
  induction p generalizing s o with
  | ret r' =>
    cases h
    exact hs
  | cmd c k ih =>
    rw [Prog.run] at h
    cases hst : M.step c (M.fallible c && o 0) s with
    | none => rw [hst] at h; cases h
    | some xs =>
      obtain ⟨x, s₁⟩ := xs
      rw [hst] at h
      exact ih x (hp.2 x) (hI c _ s x s₁ hp.1 hs hst) h

theorem Uses.runOn (hI : ∀ c f s x s', P c → I s → M.step c f s = some (x, s') → I s')
    {bad : S.Cmd → Bool} (hp : p.Uses P) (hs : I s) (h : p.runOn M bad s = some (r, s')) :
    I s' := by
  obtain ⟨o, ho⟩ := exists_run bad p s
  exact hp.run hI hs (ho.trans h)

/-! ## The values of a program -/

/-- Whatever the commands answer, a value that the program returns is in `R`. -/
def Returns (R : α → Prop) : Prog S ε α → Prop
  | .ret (.ok a) => R a
  | .ret (.error _) => True
  | .cmd _ k => ∀ x, (k x).Returns R

variable {R : α → Prop}

theorem Returns.bind {R' : β → Prop} (hp : p.Returns R) (hf : ∀ a, R a → (f a).Returns R') :
    (p >>= f).Returns R' := by
  induction p with
  | ret r =>
    cases r with
    | ok a => exact hf a hp
    | error e => trivial
  | cmd c k ih => exact fun x => ih x (hp x)

theorem Returns.mono {R' : α → Prop} (hp : p.Returns R) (h : ∀ a, R a → R' a) : p.Returns R' := by
  rw [← bind_pure p]
  exact hp.bind h

/-- The second part alone decides. -/
theorem Returns.after {R : β → Prop} (hf : ∀ a, (f a).Returns R) : (p >>= f).Returns R := by
  have htriv : p.Returns fun _ => True := by
    induction p with
    | ret r => cases r <;> trivial
    | cmd c k ih => exact ih
  exact htriv.bind fun a _ => hf a

/-- A loop over the numbers from `start`: `I i` holds of the accumulator after `i` rounds. -/
theorem Returns.foldRange {f : β → Nat → Prog S ε β} {I : Nat → β → Prop} (h0 : I start b)
    (hstep : ∀ i b, i < start + n → I i b → (f b i).Returns (I (i + 1))) :
    (foldP f b (List.range' start n)).Returns (I (start + n)) := by
  induction n generalizing start b with
  | zero => exact h0
  | succ n ih =>
    refine Returns.bind (hstep start b (by omega) h0) fun b' hb' => ?_
    rw [show start + (n + 1) = start + 1 + n by omega]
    exact ih hb' fun i b hi => hstep i b (by omega)

/-- **A value of a run is one of them.** -/
theorem Returns.of_run (hp : p.Returns R) (h : p.run M o s = some (.ok a, s')) : R a := by
  induction p generalizing s o with
  | ret r =>
    cases h
    exact hp
  | cmd c k ih =>
    rw [Prog.run] at h
    cases hst : M.step c (M.fallible c && o 0) s with
    | none => rw [hst] at h; cases h
    | some xs => rw [hst] at h; exact ih xs.1 (hp xs.1) h

end Prog

end Hallucinate.Lib
