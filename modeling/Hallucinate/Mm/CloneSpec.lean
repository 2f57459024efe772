import Hallucinate.Mm.PagingRuns

/-!
# Copying and destroying an address space

`paging_user_clone` and `paging_user_destroy` are four nested loops over the tables of the user half.
`forPresent_rule` is the rule for one of them; the nesting is a matter of using it four times.
-/

namespace Hallucinate.Mm

open Lib Lib.Radix List

/-! ## The loop over the present entries -/

section Loop

variable {σ ε : Type}

/-- The part has ended well in a state of `Q`, or given up in one of `E`. -/
def Ends (Q : σ → Prop) (E : ε → σ → Prop) : Except ε Unit × σ → Prop
  | (.ok (), x) => Q x
  | (.error e, x) => E e x

theorem Ends.mono {Q Q' : σ → Prop} {E E' : ε → σ → Prop} {r : Except ε Unit × σ} (h : Ends Q E r)
    (hQ : ∀ x, Q x → Q' x) (hE : ∀ e x, E e x → E' e x) : Ends Q' E' r := by
  rcases r with ⟨e | _, x⟩
  · exact hE e x h
  · exact hQ x h

theorem Ends.andThen {Q Q' : σ → Prop} {E : ε → σ → Prop} {f g : σ → Except ε Unit × σ} {s : σ}
    (hf : Ends Q E (f s)) (hg : ∀ x, Q x → Ends Q' E (g x)) : Ends Q' E (Mm.andThen f g s) := by
  rw [Mm.andThen]
  revert hf
  rcases f s with ⟨_ | _, x⟩
  · exact id
  · exact hg x

variable (mach : σ → Machine) (table : Nat) (body : Nat → Nat → σ → Except ε Unit × σ)

/-- **The loop rule.** `P done` holds when the entries `done` have been visited, and `E` where the
body gave up. -/
theorem forPresent_rule (P : List Nat → σ → Prop) (E : ε → σ → Prop) (is : List Nat) :
    (∀ done, ∀ i ∈ is, ∀ x, P done x → has ((mach x).entry table i) pteP = false →
      P (done ++ [i]) x) →
    (∀ done, ∀ i ∈ is, ∀ x, P done x → has ((mach x).entry table i) pteP = true →
      Ends (P (done ++ [i])) E (body i ((mach x).entry table i) x)) →
    ∀ (done : List Nat) (x : σ), P done x →
      Ends (P (done ++ is)) E (forPresent mach table body is x) := by
  induction is with
  | nil =>
    intro _ _ done x hx
    rw [append_nil]
    exact hx
  | cons i is ih =>
    intro hskip hbody done x hx
    have ih' := ih (fun done j hj => hskip done j (mem_cons_of_mem i hj))
      fun done j hj => hbody done j (mem_cons_of_mem i hj)
    rw [forPresent, show done ++ i :: is = done ++ [i] ++ is by simp]
    cases hP : has ((mach x).entry table i) pteP with
    | false =>
      rw [if_neg (by decide)]
      exact ih' _ _ (hskip done i mem_cons_self x hx hP)
    | true =>
      rw [if_pos rfl]
      have hb := hbody done i mem_cons_self x hx hP
      revert hb
      rcases body i ((mach x).entry table i) x with ⟨_ | _, y⟩
      · exact fun hb => hb
      · exact fun hb => ih' _ _ hb

end Loop

variable {root f : Nat} {s s' : Machine}

/-- **`pmm_free_frame`** of a frame in use. -/
theorem pmmFreeFrame_spec (hr : Ready s.pmm) (hf0 : f ≠ 0) (hlt : f < s.pmm.nframes)
    (hused : f ∉ s.pmm.freeSet) :
    ∃ p, pmmFreeFrame (f * 4096) s = some { s with pmm := p } ∧ Ready p ∧
      p.nframes = s.pmm.nframes ∧ p.freeSet = insert f s.pmm.freeSet := by
  rcases pmmCoreFree_cases s.pmm f with ⟨-, -, hex⟩ | ⟨hle | hfree, -⟩
  · obtain ⟨h1, h2, h3⟩ := hr.exact.give hlt
    refine ⟨s.pmm.give f, ?_, ⟨h1, h3.nframes ▸ hr.small, ?_⟩, h3.nframes, h2⟩
    · rw [pmmFreeFrame, if_neg (by omega), frame_div, hex]
      rfl
    · rw [h2, Finset.mem_insert, not_or]
      exact ⟨hf0.symm, hr.zero⟩
  · omega
  · exact absurd hfree hused

/-! ## User address spaces -/

/-- The frame that an entry maps. -/
def pageOf (e : Nat) : Nat := pteAddr e / 4096

/-- **A user address space**: pages of 4 KiB in the lower half, in frames of its own. -/
structure UserSpace (root : Nat) (s : Machine) : Prop where
  space : Space 256 root s
  small : ∀ p h e, find 256 root s p = .leaf h e → h = 0
  page : ∀ p h e, find 256 root s p = .leaf h e → pageOf e ≠ 0 ∧ pageOf e < s.pmm.nframes ∧
    pageOf e ∉ s.pmm.freeSet ∧ ∀ q, find 256 root s q ≠ .node (pageOf e)
  inj : ∀ p q h k e e', p.length = 4 → q.length = 4 → find 256 root s p = .leaf h e →
    find 256 root s q = .leaf k e' → pageOf e = pageOf e' → p = q

/-- The frames of the address space: its tables and its pages. -/
def Owns (root : Nat) (s : Machine) (f : Nat) : Prop :=
  (∃ p, find 256 root s p = .node f) ∨ ∃ p h e, find 256 root s p = .leaf h e ∧ pageOf e = f

theorem UserSpace.used (h : UserSpace root s) (hf : Owns root s f) :
    f ≠ 0 ∧ f < s.pmm.nframes ∧ f ∉ s.pmm.freeSet := by
  rcases hf with ⟨p, hp⟩ | ⟨p, k, e, hp, rfl⟩
  · exact h.space.used p f hp
  · obtain ⟨h1, h2, h3, -⟩ := h.page p k e hp
    exact ⟨h1, h2, h3⟩

/-- Walks read the tables only. -/
theorem find_congr_tables {top : Nat}
    (hmem : ∀ p n, find top root s p = .node n → s'.mem n = s.mem n) (q : List Nat) :
    find top root s' q = find top root s q :=
  walk_congr (fun p n i hp => by
    rw [step, step, view_congr (Machine.word_congr (hmem p n hp) i)]) q

/-- What leaves the tables of an address space alone, and its frames in use, leaves it alone. -/
theorem UserSpace.congr (h : UserSpace root s)
    (hmem : ∀ p n, find 256 root s p = .node n → s'.mem n = s.mem n)
    (hn : s'.pmm.nframes = s.pmm.nframes) (hfree : ∀ g, Owns root s g → g ∉ s'.pmm.freeSet) :
    UserSpace root s' := by
  have hfind := find_congr_tables hmem
  refine ⟨⟨fun p q n hp hq => ?_, fun p n hp => ?_⟩, fun p k e hp => ?_, fun p k e hp => ?_,
    fun p q k l e e' hpl hql hp hq => ?_⟩
  · rw [hfind] at hp hq
    exact h.space.distinct p q n hp hq
  · rw [hfind] at hp
    obtain ⟨h1, h2, -⟩ := h.space.used p n hp
    exact ⟨h1, hn ▸ h2, hfree n (.inl ⟨p, hp⟩)⟩
  · rw [hfind] at hp
    exact h.small p k e hp
  · rw [hfind] at hp
    obtain ⟨h1, h2, -, h4⟩ := h.page p k e hp
    exact ⟨h1, hn ▸ h2, hfree _ (.inr ⟨p, k, e, hp, rfl⟩), fun q => by rw [hfind]; exact h4 q⟩
  · rw [hfind] at hp hq
    exact h.inj p q k l e e' hpl hql hp hq

theorem UserSpace.grew (h : UserSpace root s) (hg : Grew 256 root s s') : UserSpace root s' := by
  refine ⟨hg.space, fun p k e hp => h.small p k e ((hg.leaves p k e).mp hp), fun p k e hp => ?_,
    fun p q k l e e' hpl hql hp hq => h.inj p q k l e e' hpl hql ((hg.leaves p k e).mp hp)
      ((hg.leaves q l e').mp hq)⟩
  obtain ⟨h1, h2, h3, h4⟩ := h.page p k e ((hg.leaves p k e).mp hp)
  refine ⟨h1, hg.nframes ▸ h2, fun hf => h3 ((hg.free _).mp hf).1, fun q hq => ?_⟩
  rcases hg.taken q _ hq with hq' | hf
  · exact h4 q hq'
  · exact h3 hf

/-- The frames after tables were added: those of before, and frames that were free. -/
theorem Grew.owns_iff (hg : Grew 256 root s s') (f : Nat) :
    (f ∈ s'.pmm.freeSet ∨ Owns root s' f) ↔ (f ∈ s.pmm.freeSet ∨ Owns root s f) := by
  constructor
  · rintro (hf | ⟨p, hp⟩ | ⟨p, k, e, hp, rfl⟩)
    · exact .inl ((hg.free f).mp hf).1
    · rcases hg.taken p f hp with hp' | hf
      · exact .inr (.inl ⟨p, hp'⟩)
      · exact .inl hf
    · exact .inr (.inr ⟨p, k, e, (hg.leaves p k e).mp hp, rfl⟩)
  · rintro (hf | ⟨p, hp⟩ | ⟨p, k, e, hp, rfl⟩)
    · by_cases htab : ∃ p, find 256 root s' p = .node f
      · exact .inr (.inl htab)
      · exact .inl ((hg.free f).mpr ⟨hf, fun p hp => htab ⟨p, hp⟩⟩)
    · exact .inr (.inl ⟨p, hg.nodes p f hp⟩)
    · exact .inr (.inr ⟨p, k, e, (hg.leaves p k e).mpr hp, rfl⟩)

variable {p : List Nat} {h e : Nat}

/-- A leaf of height `h` is `4 - h` steps from the PML4, or above the path. -/
theorem leaf_height {top : Nat} (hp : find top root s p = .leaf h e) : 4 ≤ p.length + h := by
  induction p with
  | nil => cases hp
  | cons i p ih =>
    rw [length_cons]
    rcases find_cons_leaf hp with ⟨n, hq, rfl, -⟩ | hq
    · have hlen := find_length hq
      omega
    · have hlen := ih hq
      omega

/-- Pages are 4 KiB, so none is above the last table. -/
theorem UserSpace.not_leaf_above (hu : UserSpace root s) (virt k e : Nat) :
    find 256 root s (vpath virt 3) ≠ .leaf k e := fun hq => by
  have hheight := leaf_height hq
  rw [hu.small _ k e hq, vpath_length] at hheight
  omega

theorem Mapped.owns_iff (hmap : Mapped 256 root s s' p h e) (g : Nat) :
    Owns root s' g ↔ Owns root s g ∨ g = pageOf e := by
  simp only [Owns, hmap.node_iff, hmap.leaf_iff]
  constructor
  · rintro (hq | ⟨q, k, e', ⟨-, rfl, rfl⟩ | hq, rfl⟩)
    · exact .inl (.inl hq)
    · exact .inr rfl
    · exact .inl (.inr ⟨q, k, e', hq, rfl⟩)
  · rintro ((hq | ⟨q, k, e', hq, rfl⟩) | rfl)
    · exact .inl hq
    · exact .inr ⟨q, k, e', .inr hq, rfl⟩
    · exact .inr ⟨p, h, e, .inl ⟨suffix_rfl, rfl, rfl⟩, rfl⟩

/-- A page of its own keeps a user address space one. -/
theorem UserSpace.mapped (hu : UserSpace root s) (hmap : Mapped 256 root s s' p 0 e)
    (hlen : p.length = 4) (h0 : pageOf e ≠ 0) (hlt : pageOf e < s.pmm.nframes)
    (hfree : pageOf e ∉ s.pmm.freeSet) (hno : ¬Owns root s (pageOf e)) : UserSpace root s' := by
  refine ⟨hmap.space, fun q k e' hq => ?_, fun q k e' hq => ?_, fun q r k l e₁ e₂ hql hrl hq hr hpg => ?_⟩
  · rcases (hmap.leaf_iff ..).mp hq with ⟨-, rfl, -⟩ | hq
    · rfl
    · exact hu.small q k e' hq
  · simp only [hmap.pmm, ne_eq, hmap.node_iff]
    rcases (hmap.leaf_iff ..).mp hq with ⟨-, -, rfl⟩ | hq
    · exact ⟨h0, hlt, hfree, fun r hr => hno (.inl ⟨r, hr⟩)⟩
    · exact hu.page q k e' hq
  · rcases (hmap.leaf_iff ..).mp hq with ⟨hs, -, rfl⟩ | hq <;>
      rcases (hmap.leaf_iff ..).mp hr with ⟨hs', -, rfl⟩ | hr
    · rw [← hs.eq_of_length (hlen.trans hql.symm), ← hs'.eq_of_length (hlen.trans hrl.symm)]
    · exact absurd (.inr ⟨r, l, e₂, hr, hpg.symm⟩) hno
    · exact absurd (.inr ⟨q, k, e₁, hq, hpg⟩) hno
    · exact hu.inj q r k l e₁ e₂ hql hrl hq hr hpg

/-! ## A new page -/

/-- The address space is as before but for tables, and so is the rest of the machine. -/
structure Keeps (root : Nat) (s s' : Machine) : Prop where
  user : UserSpace root s'
  ready : Ready s'.pmm
  nframes : s'.pmm.nframes = s.pmm.nframes
  frames : ∀ g, (g ∈ s'.pmm.freeSet ∨ Owns root s' g) ↔ (g ∈ s.pmm.freeSet ∨ Owns root s g)
  mem : ∀ g, g ∉ s.pmm.freeSet → ¬Owns root s g → s'.mem g = s.mem g
  leaves : ∀ p k e, find 256 root s' p = .leaf k e ↔ find 256 root s p = .leaf k e
  pages : ∀ p k e, find 256 root s p = .leaf k e → s'.mem (pageOf e) = s.mem (pageOf e)

/-- The address space has one page more, and the rest of the machine is as before. -/
structure Adds (root : Nat) (s s' : Machine) (p : List Nat) (e : Nat) (page : Bytes) : Prop where
  user : UserSpace root s'
  ready : Ready s'.pmm
  nframes : s'.pmm.nframes = s.pmm.nframes
  frames : ∀ g, (g ∈ s'.pmm.freeSet ∨ Owns root s' g) ↔ (g ∈ s.pmm.freeSet ∨ Owns root s g)
  mem : ∀ g, g ∉ s.pmm.freeSet → ¬Owns root s g → s'.mem g = s.mem g
  leaf : find 256 root s' p = .leaf 0 e
  page : s'.mem (pageOf e) = page
  others : ∀ q, q.length = 4 → q ≠ p → ∀ k e', find 256 root s' q = .leaf k e' ↔
    find 256 root s q = .leaf k e'
  pages : ∀ q k e', find 256 root s q = .leaf k e' → s'.mem (pageOf e') = s.mem (pageOf e')

/-- What both have in common: the address space has changed by free frames and its own ones. -/
structure Within (root : Nat) (s s' : Machine) : Prop where
  user : UserSpace root s'
  ready : Ready s'.pmm
  nframes : s'.pmm.nframes = s.pmm.nframes
  frames : ∀ g, (g ∈ s'.pmm.freeSet ∨ Owns root s' g) ↔ (g ∈ s.pmm.freeSet ∨ Owns root s g)
  mem : ∀ g, g ∉ s.pmm.freeSet → ¬Owns root s g → s'.mem g = s.mem g

theorem Keeps.within (h : Keeps root s s') : Within root s s' :=
  ⟨h.user, h.ready, h.nframes, h.frames, h.mem⟩

theorem Adds.within {page : Bytes} (h : Adds root s s' p e page) : Within root s s' :=
  ⟨h.user, h.ready, h.nframes, h.frames, h.mem⟩

/-- A frame taken from the allocator and filled, not mapped yet, since `s₀`. -/
structure Held (root : Nat) (s₀ s : Machine) (f : Nat) (page : Bytes) : Prop where
  user : UserSpace root s
  ready : Ready s.pmm
  nframes : s.pmm.nframes = s₀.pmm.nframes
  frame : f ≠ 0 ∧ f < s.pmm.nframes ∧ f ∉ s.pmm.freeSet ∧ ¬Owns root s f
  frames : ∀ g, (g = f ∨ g ∈ s.pmm.freeSet ∨ Owns root s g) ↔ (g ∈ s₀.pmm.freeSet ∨ Owns root s₀ g)
  page : s.mem f = page
  mem : ∀ g, g ∉ s₀.pmm.freeSet → ¬Owns root s₀ g → s.mem g = s₀.mem g
  leaves : ∀ p k e, find 256 root s p = .leaf k e ↔ find 256 root s₀ p = .leaf k e
  pages : ∀ p k e, find 256 root s₀ p = .leaf k e → s.mem (pageOf e) = s₀.mem (pageOf e)

variable {s₀ : Machine} {page : Bytes}

/-- A frame taken from the allocator and filled. -/
theorem UserSpace.held (hu : UserSpace root s) {pmm : Pmm} (page : Bytes) (hf : f ∈ s.pmm.freeSet)
    (hf0 : f ≠ 0) (hr : Ready pmm) (hn : pmm.nframes = s.pmm.nframes)
    (hset : pmm.freeSet = s.pmm.freeSet.erase f) :
    Held root s (({ s with pmm := pmm } : Machine).setPage (f * 4096) page) f page := by
  have hno : ¬Owns root s f := fun hown => (hu.used hown).2.2 hf
  have hmem : ∀ g, g ≠ f →
      (({ s with pmm := pmm } : Machine).setPage (f * 4096) page).mem g = s.mem g := fun g hg =>
    Machine.setFrame_ne hg
  have htables : ∀ p n, find 256 root s p = .node n →
      (({ s with pmm := pmm } : Machine).setPage (f * 4096) page).mem n = s.mem n := fun p n hp =>
    hmem n fun hnf => hno (.inl ⟨p, hnf ▸ hp⟩)
  have hfind := find_congr_tables htables
  have howns : ∀ g, Owns root (({ s with pmm := pmm } : Machine).setPage (f * 4096) page) g ↔
      Owns root s g := fun g => by simp only [Owns, hfind]
  have hset' : (({ s with pmm := pmm } : Machine).setPage (f * 4096) page).pmm.freeSet =
      s.pmm.freeSet.erase f := hset
  refine ⟨hu.congr htables hn fun g hg hin => ?_, hr, hn, ⟨hf0, ?_, ?_, by rwa [howns]⟩, fun g => ?_,
    Machine.setFrame_self f page, fun g hg _ => hmem g fun hgf => hg (hgf ▸ hf), fun p k e => by rw [hfind],
    fun p k e hp => hmem _ fun hpf => (hu.page p k e hp).2.2.1 (by rwa [hpf])⟩
  · rw [hset'] at hin
    exact (hu.used hg).2.2 (Finset.mem_of_mem_erase hin)
  · show f < pmm.nframes
    rw [hn]
    exact (Pmm.mem_freeSet.mp hf).1
  · rw [hset']
    exact Finset.notMem_erase f _
  · rw [howns, hset', Finset.mem_erase]
    by_cases hgf : g = f
    · simp [hgf, hf]
    · simp [hgf]

/-- Tables added while the frame is held. -/
theorem Held.grew (h : Held root s₀ s f page) (hg : Grew 256 root s s') : Held root s₀ s' f page := by
  obtain ⟨hf0, hflt, hfree, hno⟩ := h.frame
  have hkeep : ∀ g, g ∉ s.pmm.freeSet → ¬Owns root s g → s'.mem g = s.mem g := fun g h1 h2 =>
    hg.mem g fun p hp => (hg.taken p g hp).elim (fun hp' => h2 (.inl ⟨p, hp'⟩)) h1
  refine ⟨h.user.grew hg, hg.ready, hg.nframes.trans h.nframes, ⟨hf0, hg.nframes ▸ hflt,
    fun hf => hfree ((hg.free f).mp hf).1, fun hown => ?_⟩, fun g => ?_, ?_, fun g h1 h2 => ?_,
    fun p k e => (hg.leaves p k e).trans (h.leaves p k e), fun p k e hp => ?_⟩
  · exact ((hg.owns_iff f).mp (.inr hown)).elim hfree hno
  · rw [hg.owns_iff g]
    exact h.frames g
  · rw [hkeep f hfree hno]
    exact h.page
  · have hout : ¬(g = f ∨ g ∈ s.pmm.freeSet ∨ Owns root s g) := fun hin =>
      ((h.frames g).mp hin).elim h1 h2
    rw [not_or, not_or] at hout
    rw [hkeep g hout.2.1 hout.2.2]
    exact h.mem g h1 h2
  · obtain ⟨-, -, h3, h4⟩ := h.user.page p k e ((h.leaves p k e).mpr hp)
    rw [hg.mem _ fun q hq => (hg.taken q _ hq).elim (h4 q) h3]
    exact h.pages p k e hp

/-- The frame given back. -/
theorem Held.freed (h : Held root s₀ s f page) :
    Keeps root s₀ ((pmmFreeFrame (f * 4096) s).getD s) := by
  obtain ⟨hf0, hflt, hfree, hno⟩ := h.frame
  obtain ⟨p, hex, hr, hn, hset⟩ := pmmFreeFrame_spec h.ready hf0 hflt hfree
  rw [hex, Option.getD_some]
  have hset' : ({ s with pmm := p } : Machine).pmm.freeSet = insert f s.pmm.freeSet := hset
  have hout : ∀ g, Owns root s g → g ∉ p.freeSet := fun g hg => by
    rw [hset, Finset.mem_insert, not_or]
    exact ⟨fun hgf => hno (hgf ▸ hg), (h.user.used hg).2.2⟩
  refine ⟨h.user.congr (fun _ _ _ => rfl) hn hout, hr, hn.trans h.nframes, fun g => ?_, h.mem,
    h.leaves, h.pages⟩
  rw [← h.frames g, hset', Finset.mem_insert, or_assoc]
  exact Iff.rfl

theorem Held.freed_freeSet (h : Held root s₀ s f page) :
    ((pmmFreeFrame (f * 4096) s).getD s).pmm.freeSet = insert f s.pmm.freeSet := by
  obtain ⟨hf0, hflt, hfree, -⟩ := h.frame
  obtain ⟨p, hex, -, -, hset⟩ := pmmFreeFrame_spec h.ready hf0 hflt hfree
  rw [hex]
  exact hset

/-- The frame mapped. -/
theorem Held.mapped (h : Held root s₀ s f page) (hlen : p.length = 4) (hpg : pageOf e = f)
    (hmap : Mapped 256 root s s' p 0 e) : Adds root s₀ s' p e page := by
  obtain ⟨hf0, hflt, hfree, hno⟩ := h.frame
  have hu : UserSpace root s' := h.user.mapped hmap hlen (by rwa [hpg]) (by rwa [hpg]) (by rwa [hpg])
    (by rwa [hpg])
  have hsame : ∀ g, (∀ q, find 256 root s q ≠ .node g) → s'.mem g = s.mem g := fun g hg =>
    hmap.mem g fun q hq => hg q ((hmap.node_iff q g).mp hq)
  have hsuf : ∀ q : List Nat, q.length = 4 → q ≠ p → ¬p <:+ q := fun q hq hne hs =>
    hne (hs.eq_of_length (hlen.trans hq.symm)).symm
  refine ⟨hu, hmap.pmm ▸ h.ready, hmap.pmm ▸ h.nframes, fun g => ?_, fun g h1 h2 => ?_,
    hmap.leaf p suffix_rfl, ?_, fun q hq hne k e' => ?_, fun q k e' hq => ?_⟩
  · rw [← h.frames g, hmap.owns_iff g, hpg, hmap.pmm, ← or_assoc, or_comm]
  · rw [hsame g fun q hq => ?_]
    · exact h.mem g h1 h2
    · exact ((h.frames g).mp (.inr (.inr (.inl ⟨q, hq⟩)))).elim h1 h2
  · rw [hpg, hsame f fun q hq => hno (.inl ⟨q, hq⟩)]
    exact h.page
  · rw [hmap.same q (hsuf q hq hne)]
    exact h.leaves q k e'
  · rw [hsame _ (h.user.page q k e' ((h.leaves q k e').mpr hq)).2.2.2]
    exact h.pages q k e' hq

theorem pageOf_leafEntry {f flags : Nat} (hf : f < 2 ^ 40) (hflags : pteAddr flags = 0) :
    pageOf (leafEntry (f * 4096) flags 1) = f := by
  rw [pageOf, leafEntry, if_neg (by decide), pteAddr_or, pteAddr_or, pteAddr_or, pteAddr_of_lt hf,
    pteAddr_of_lt hf, hflags, show pteAddr 0 = 0 by decide, show pteAddr pteP = 0 by decide,
    Nat.or_zero, Nat.or_zero, Nat.or_zero, frame_div]

/-- **`paging_map_4k` of a frame just filled**: it fails, for want of frames or because there is a
page, and giving the frame back leaves the address space as it was; or the page is added. -/
theorem Held.map (h : Held root s₀ s f page) {virt flags : Nat} (hvirt : virt % 0x1000 = 0)
    (htop : indexAt virt 4 < 256) (hflags : flags < 2 ^ 64) (hnoaddr : pteAddr flags = 0) :
    ∃ s', (pagingMap4k (root * 4096) virt (f * 4096) flags s = (.enomem, s') ∧
        Keeps root s₀ ((pmmFreeFrame (f * 4096) s').getD s') ∧
        ((pmmFreeFrame (f * 4096) s').getD s').pmm.freeSet = {f}) ∨
      (pagingMap4k (root * 4096) virt (f * 4096) flags s = (.eexist, s') ∧
        Keeps root s₀ ((pmmFreeFrame (f * 4096) s').getD s') ∧
        ∃ k e, find 256 root s₀ (vpath virt 4) = .leaf k e) ∨
      (pagingMap4k (root * 4096) virt (f * 4096) flags s = (.ok, s') ∧
        Adds root s₀ s' (vpath virt 4) (leafEntry (f * 4096) flags 1) page) := by
  obtain ⟨s₁, hg, hcases⟩ := mapCommon_spec h.user.space h.ready (.inl rfl) hflags htop hvirt
    (show f * 4096 % 0x1000 = 0 by omega) (h.user.not_leaf_above virt)
  have hgrown := h.grew hg
  rcases hcases with ⟨hcall, -, hempty⟩ | ⟨hcall, hsome⟩ | ⟨s', hcall, hmap⟩
  · refine ⟨s₁, .inl ⟨hcall, hgrown.freed, ?_⟩⟩
    rw [hgrown.freed_freeSet, hempty]
    rfl
  · refine ⟨s₁, .inr (.inl ⟨hcall, hgrown.freed, ?_⟩)⟩
    have hsome' : find 256 root s₁ (vpath virt 4) ≠ .nothing := hsome
    cases hf : find 256 root s₁ (vpath virt 4) with
    | node n =>
      have hlen := find_length hf
      rw [vpath_length] at hlen
      omega
    | nothing => exact absurd hf hsome'
    | leaf k e => exact ⟨k, e, (hgrown.leaves _ k e).mp hf⟩
  · have hlt := lt_of_lt_of_le h.frame.2.1 h.ready.small
    exact ⟨s', .inr (.inr ⟨hcall, hgrown.mapped (vpath_length virt 4)
      (pageOf_leafEntry hlt hnoaddr) hmap⟩)⟩

/-! ## The copy -/

/-- The bits of an entry that the copy keeps. -/
def permBits : Nat := pteW ||| pteUS ||| pteNX

/-- The page at a path, with its permissions and its contents, is the same in both address spaces,
or there is none in either. -/
def Copied (src dst : Nat) (s₀ s : Machine) (p : List Nat) : Prop :=
  (∀ h e, find 256 src s₀ p = .leaf h e → ∃ e', find 256 dst s p = .leaf 0 e' ∧
    e' &&& permBits = e &&& permBits ∧
    slice (s.mem (pageOf e')) 0 4096 = slice (s₀.mem (pageOf e)) 0 4096) ∧
  ∀ h e, find 256 dst s p = .leaf h e → ∃ h' e', find 256 src s₀ p = .leaf h' e'

/-- **The state of the copy**, since `s₀`, when the paths `D` are done: the frames that were free
are still free or the copy's, and nothing else has changed. -/
structure Cloning (src dst : Nat) (s₀ s : Machine) (D : Set (List Nat)) : Prop where
  user : UserSpace dst s
  ready : Ready s.pmm
  nframes : s.pmm.nframes = s₀.pmm.nframes
  frames : ∀ f, f ∈ s₀.pmm.freeSet ↔ f ∈ s.pmm.freeSet ∨ Owns dst s f
  mem : ∀ f, f ∉ s₀.pmm.freeSet → s.mem f = s₀.mem f
  copied : ∀ p, p.length = 4 → p ∈ D → Copied src dst s₀ s p
  todo : ∀ p, p.length = 4 → p ∉ D → ∀ h e, find 256 dst s p ≠ .leaf h e

variable {src dst : Nat} {D : Set (List Nat)}

theorem pteAddr_perm (e : Nat) : pteAddr (e &&& permBits) = 0 := by
  rw [pteAddr, Nat.and_assoc, show permBits &&& pteAddrMask = 0 by decide, Nat.and_zero]

theorem perm_copy (phys e : Nat) :
    leafEntry phys (e &&& permBits) 1 &&& permBits = e &&& permBits := by
  have haddr : pteAddr phys &&& permBits = 0 := by
    rw [pteAddr, Nat.and_assoc, show pteAddrMask &&& permBits = 0 by decide, Nat.and_zero]
  have hself : e &&& permBits &&& permBits = e &&& permBits := by rw [Nat.and_assoc, Nat.and_self]
  rw [leafEntry, if_neg (by decide), Nat.and_or_distrib_right, Nat.and_or_distrib_right,
    Nat.and_or_distrib_right, haddr, hself, show pteP &&& permBits = 0 by decide, Nat.zero_and,
    Nat.zero_or, Nat.or_zero, Nat.or_zero]

/-- The source is as it was. -/
theorem Cloning.source (h : Cloning src dst s₀ s D) (hsrc : UserSpace src s₀) (p : List Nat) :
    find 256 src s p = find 256 src s₀ p :=
  find_congr_tables (fun q n hq => h.mem n (hsrc.space.used q n hq).2.2) p

theorem Cloning.owned_free (h : Cloning src dst s₀ s D) (hf : Owns dst s f) : f ∈ s₀.pmm.freeSet :=
  (h.frames f).mpr (.inr hf)

theorem Cloning.mem_of_eq (h : Cloning src dst s₀ s D)
    (hmem : ∀ g, g ∉ s.pmm.freeSet → ¬Owns dst s g → s'.mem g = s.mem g) (g : Nat)
    (hg : g ∉ s₀.pmm.freeSet) : s'.mem g = s₀.mem g := by
  have hout : ¬(g ∈ s.pmm.freeSet ∨ Owns dst s g) := fun hin => hg ((h.frames g).mpr hin)
  rw [not_or] at hout
  rw [hmem g hout.1 hout.2]
  exact h.mem g hg

theorem Cloning.keeps (h : Cloning src dst s₀ s D) (hk : Keeps dst s s') :
    Cloning src dst s₀ s' D := by
  refine ⟨hk.user, hk.ready, hk.nframes.trans h.nframes,
    fun g => (h.frames g).trans (hk.frames g).symm, h.mem_of_eq hk.mem,
    fun p hp hD => ⟨fun k e hq => ?_, fun k e hq => ?_⟩,
    fun p hp hD k e hq => h.todo p hp hD k e ((hk.leaves p k e).mp hq)⟩
  · obtain ⟨e', h1, h2, h3⟩ := (h.copied p hp hD).1 k e hq
    exact ⟨e', (hk.leaves p 0 e').mpr h1, h2, by rw [hk.pages p 0 e' h1]; exact h3⟩
  · exact (h.copied p hp hD).2 k e ((hk.leaves p k e).mp hq)

theorem Cloning.adds (h : Cloning src dst s₀ s D) {k phys : Nat}
    (hleaf : find 256 src s₀ p = .leaf k e)
    (hadd : Adds dst s s' p (leafEntry phys (e &&& permBits) 1) page)
    (hdata : slice page 0 4096 = slice (s₀.mem (pageOf e)) 0 4096) :
    Cloning src dst s₀ s' (insert p D) := by
  refine ⟨hadd.user, hadd.ready, hadd.nframes.trans h.nframes,
    fun g => (h.frames g).trans (hadd.frames g).symm, h.mem_of_eq hadd.mem,
    fun q hq hD => ?_, fun q hq hD k' e' hq' => ?_⟩
  · by_cases hqp : q = p
    · subst hqp
      refine ⟨fun k' e' hq' => ?_, fun _ _ _ => ⟨k, e, hleaf⟩⟩
      rw [hleaf] at hq'
      cases hq'
      exact ⟨_, hadd.leaf, perm_copy .., by rw [hadd.page]; exact hdata⟩
    · obtain ⟨hforth, hback⟩ := h.copied q hq (hD.resolve_left hqp)
      refine ⟨fun k' e' hq' => ?_, fun k' e' hq' => hback k' e' ((hadd.others q hq hqp k' e').mp hq')⟩
      obtain ⟨e₁, h1, h2, h3⟩ := hforth k' e' hq'
      exact ⟨e₁, (hadd.others q hq hqp 0 e₁).mpr h1, h2, by rw [hadd.pages q 0 e₁ h1]; exact h3⟩
  · have hqp : q ≠ p := fun hqp => hD (.inl hqp)
    exact h.todo q hq (fun hin => hD (.inr hin)) k' e' ((hadd.others q hq hqp k' e').mp hq')

/-- **One page**: it is copied, or memory has run out and the copy is as before but for tables. -/
theorem clonePage_spec (h : Cloning src dst s₀ s D) (hsrc : UserSpace src s₀) {virt k : Nat}
    (hvirt : virt % 0x1000 = 0) (htop : indexAt virt 4 < 256)
    (hleaf : find 256 src s₀ (vpath virt 4) = .leaf k e) :
    Ends (fun s' => Cloning src dst s₀ s' (insert (vpath virt 4) D))
      (fun _ s' => Cloning src dst s₀ s' D) (clonePage (dst * 4096) virt e s) := by
  rw [clonePage]
  rcases pmmAllocFrame_spec h.ready with ⟨-, halloc⟩ | ⟨f, hf, hf0, pmm, halloc, hready, hn, hset⟩
  · rw [halloc]
    exact h
  rw [halloc]
  simp only [if_neg (show ¬f * 4096 = 0 by omega)]
  have hcopy : ({ s with pmm := pmm } : Machine).copyPage (f * 4096) (pteAddr e) =
      ({ s with pmm := pmm } : Machine).setPage (f * 4096)
        (copyIn (s.mem f) 0 (slice (s.mem (pageOf e)) 0 4096)) := by
    rw [Machine.copyPage, frame_div, pageOf]
  have hdata : slice (copyIn (s.mem f) 0 (slice (s.mem (pageOf e)) 0 4096)) 0 4096 =
      slice (s₀.mem (pageOf e)) 0 4096 := by
    have hslice := slice_copyIn (s.mem f) 0 (slice (s.mem (pageOf e)) 0 4096)
    rw [slice_length] at hslice
    rw [hslice, h.mem _ (hsrc.page _ k e hleaf).2.2.1]
  have hheld := h.user.held (copyIn (s.mem f) 0 (slice (s.mem (pageOf e)) 0 4096)) hf hf0 hready hn
    hset
  have hflags : e &&& permBits < 2 ^ 64 := lt_of_le_of_lt Nat.and_le_right (by decide)
  rw [hcopy, show e &&& (pteW ||| pteUS ||| pteNX) = e &&& permBits from rfl]
  obtain ⟨s', hmap⟩ := hheld.map hvirt htop hflags (pteAddr_perm e)
  rcases hmap with ⟨hcall, hkeep, -⟩ | ⟨hcall, hkeep, -⟩ | ⟨hcall, hadd⟩
  · rw [hcall]
    exact h.keeps hkeep
  · rw [hcall]
    exact h.keeps hkeep
  · rw [hcall]
    exact h.adds hleaf hadd hdata

/-! ## The loops of the copy -/

/-- Paths without a page in the source need no copy. -/
theorem Cloning.widen (h : Cloning src dst s₀ s D) {D' : Set (List Nat)} (hsub : D ⊆ D')
    (hnew : ∀ p, p.length = 4 → p ∈ D' → p ∉ D → ∀ k e, find 256 src s₀ p ≠ .leaf k e) :
    Cloning src dst s₀ s D' := by
  refine ⟨h.user, h.ready, h.nframes, h.frames, h.mem, fun p hp hD' => ?_,
    fun p hp hD' => h.todo p hp fun hD => hD' (hsub hD)⟩
  by_cases hD : p ∈ D
  · exact h.copied p hp hD
  · exact ⟨fun k e hq => absurd hq (hnew p hp hD' hD k e), fun k e hq => absurd hq (h.todo p hp hD k e)⟩

/-- The paths through one. -/
def under (p : List Nat) : Set (List Nat) := {q | p <:+ q}

/-- What a part of the copy does: the paths `N` are done afterwards, or it gave up. -/
def Copies (src dst : Nat) (s₀ : Machine) (N : Set (List Nat))
    (f : Machine → Except PagingRc Unit × Machine) : Prop :=
  ∀ D s, Cloning src dst s₀ s D →
    Ends (fun s' => Cloning src dst s₀ s' (D ∪ N)) (fun _ s' => ∃ D', Cloning src dst s₀ s' D') (f s)

variable {n : Nat}

/-- **One loop of the copy**, over a table of the source: the paths through the table are done if the
body does the paths through each entry. -/
theorem copies_loop (hsrc : UserSpace src s₀) {is : List Nat}
    {body : Nat → Nat → Machine → Except PagingRc Unit × Machine} (hp : find 256 src s₀ p = .node n)
    (hseen : ∀ i, i ∈ is ↔ Seen 256 src n i) (hbody : ∀ i ∈ is, has (s₀.word n i) pteP = true →
      Copies src dst s₀ (under (i :: p)) (body i (s₀.word n i))) :
    Copies src dst s₀ (under p) (forPresent id (n * 4096) body is) := by
  intro D s h
  have hlen := find_length hp
  have hentry : ∀ {x D'}, Cloning src dst s₀ x D' → ∀ i, x.entry (n * 4096) i = s₀.word n i :=
    fun hx i => by
      rw [Machine.entry_frame]
      exact Machine.word_congr (hx.mem n (hsrc.space.used p n hp).2.2) i
  -- an entry that is absent, or not of the view, has no pages below it
  have hnone : ∀ i, (i ∈ is → has (s₀.word n i) pteP = false) → ∀ q, (i :: p) <:+ q →
      ∀ k e, find 256 src s₀ q ≠ .leaf k e := by
    intro i habs q hsuf k e hq
    have hnothing : find 256 src s₀ (i :: p) = .nothing := by
      by_cases hi : i ∈ is
      · exact find_absent hp ((hseen i).mp hi) (habs hi)
      · exact find_outside hp fun hin => hi ((hseen i).mpr hin)
    rw [find_nothing hsuf hnothing] at hq
    cases hq
  have hskip : ∀ done, ∀ i ∈ is, ∀ x,
      Cloning src dst s₀ x (D ∪ {q | ∃ j ∈ done, (j :: p) <:+ q}) →
      has ((id x : Machine).entry (n * 4096) i) pteP = false →
      Cloning src dst s₀ x (D ∪ {q | ∃ j ∈ done ++ [i], (j :: p) <:+ q}) := by
    intro done i _ x hx habs
    refine hx.widen (Set.union_subset_union_right D fun q ⟨j, hj, hq⟩ =>
      ⟨j, mem_append_left _ hj, hq⟩) ?_
    rintro q - (hq | ⟨j, hj, hq⟩) hno
    · exact absurd (.inl hq) hno
    rcases mem_append.mp hj with hj | hj
    · exact absurd (.inr ⟨j, hj, hq⟩) hno
    · rw [mem_singleton.mp hj] at hq
      exact hnone i (fun _ => by rw [← hentry hx i]; exact habs) q hq
  have hvisit : ∀ done, ∀ i ∈ is, ∀ x,
      Cloning src dst s₀ x (D ∪ {q | ∃ j ∈ done, (j :: p) <:+ q}) →
      has ((id x : Machine).entry (n * 4096) i) pteP = true →
      Ends (fun y => Cloning src dst s₀ y (D ∪ {q | ∃ j ∈ done ++ [i], (j :: p) <:+ q}))
        (fun _ y => ∃ D', Cloning src dst s₀ y D') (body i ((id x : Machine).entry (n * 4096) i) x) := by
    intro done i hi x hx hpres
    have hx' : (id x : Machine).entry (n * 4096) i = s₀.word n i := hentry hx i
    rw [hx'] at hpres ⊢
    refine (hbody i hi hpres _ x hx).mono (fun y hy => hy.widen ?_ ?_) fun _ _ hy => hy
    · rintro q ((hq | ⟨j, hj, hq⟩) | hq)
      · exact .inl hq
      · exact .inr ⟨j, mem_append_left _ hj, hq⟩
      · exact .inr ⟨i, by simp, hq⟩
    · rintro q - (hq | ⟨j, hj, hq⟩) hno
      · exact absurd (.inl (.inl hq)) hno
      rcases mem_append.mp hj with hj | hj
      · exact absurd (.inl (.inr ⟨j, hj, hq⟩)) hno
      · rw [mem_singleton.mp hj] at hq
        exact absurd (.inr hq) hno
  have hstart : Cloning src dst s₀ s (D ∪ {q | ∃ j ∈ ([] : List Nat), (j :: p) <:+ q}) := by
    refine h.widen Set.subset_union_left ?_
    rintro q - (hq | ⟨j, hj, -⟩) hno
    · exact absurd hq hno
    · cases hj
  have hloop := forPresent_rule id (n * 4096) body
    (fun done x => Cloning src dst s₀ x (D ∪ {q | ∃ j ∈ done, (j :: p) <:+ q}))
    (fun _ x => ∃ D', Cloning src dst s₀ x D') is hskip hvisit [] s hstart
  refine hloop.mono (fun s' hs' => hs'.widen ?_ fun q hq hin hno => ?_) fun _ _ hs' => hs'
  · rintro q (hq | ⟨j, -, hq⟩)
    · exact .inl hq
    · exact .inr ((suffix_cons j p).trans hq)
  · rcases hin with hin | ⟨r, rfl⟩
    · exact absurd (.inl hin) hno
    -- the path goes on below the table, at an entry that is not of the view
    rcases eq_nil_or_concat r with rfl | ⟨r, i, rfl⟩
    · rw [nil_append] at hq
      omega
    · rw [concat_eq_append, append_assoc, singleton_append] at hno ⊢
      refine hnone i (fun hi => ?_) _ ⟨r, rfl⟩
      exact absurd (.inr ⟨i, by simpa using hi, r, rfl⟩) hno

variable {i₁ i₂ i₃ i₄ : Nat}

/-- The address that four indices make. -/
theorem virt_eq_add (h₁ : i₁ < 512) (h₂ : i₂ < 512) (h₃ : i₃ < 512) :
    i₄ * 2 ^ 39 ||| i₃ * 2 ^ 30 ||| i₂ * 2 ^ 21 ||| i₁ * 2 ^ 12 =
      i₄ * 2 ^ 39 + (i₃ * 2 ^ 30 + (i₂ * 2 ^ 21 + i₁ * 2 ^ 12)) := by
  rw [Nat.or_assoc, Nat.or_assoc, Nat.mul_comm i₂, ← Nat.two_pow_add_eq_or_of_lt (by omega),
    Nat.mul_comm i₃, ← Nat.two_pow_add_eq_or_of_lt (by omega), Nat.mul_comm i₄,
    ← Nat.two_pow_add_eq_or_of_lt (by omega)]

theorem vpath_virt (h₁ : i₁ < 512) (h₂ : i₂ < 512) (h₃ : i₃ < 512) (h₄ : i₄ < 512) :
    vpath (i₄ * 2 ^ 39 ||| i₃ * 2 ^ 30 ||| i₂ * 2 ^ 21 ||| i₁ * 2 ^ 12) 4 = [i₁, i₂, i₃, i₄] := by
  rw [virt_eq_add h₁ h₂ h₃]
  simp only [vpath, indexAt, List.cons.injEq, and_true]
  norm_num
  omega

variable {i : Nat}

/-- The entries of a table below the PML4 are all of the view. -/
theorem UserSpace.seen_iff (hsrc : UserSpace src s₀) (hp : find 256 src s₀ (i :: p) = .node n)
    (j : Nat) : j < 512 ↔ Seen 256 src n j := by
  refine ⟨fun hj => ⟨hj, ?_⟩, And.left⟩
  rintro rfl
  cases hsrc.space.distinct _ [] _ hp rfl

/-- A present entry above the page tables is a link. -/
theorem UserSpace.link (hsrc : UserSpace src s₀) (hp : find 256 src s₀ p = .node n)
    (hlen : p.length < 3) (hseen : Seen 256 src n i) (hpres : has (s₀.word n i) pteP = true) :
    find 256 src s₀ (i :: p) = .node (pteAddr (s₀.word n i) / 4096) := by
  refine find_present hp hseen hpres fun k e hq => ?_
  have hheight := leaf_height hq
  rw [hsrc.small _ k e hq, length_cons] at hheight
  omega

/-- The links to the page tables are no large pages. -/
theorem UserSpace.not_large (hsrc : UserSpace src s₀) (hp : find 256 src s₀ p = .node n)
    (hlen : p.length = 2) (hseen : Seen 256 src n i) (hpres : has (s₀.word n i) pteP = true) :
    has (s₀.word n i) ptePS = false := by
  cases hps : has (s₀.word n i) ptePS with
  | false => rfl
  | true =>
    have hheight : 3 - p.length = 1 := by omega
    have hleaf : find 256 src s₀ (i :: p) = .leaf 1 (s₀.word n i) := by
      rw [find_cons hp, step, view_of_seen hseen, hheight, decode_eq_leaf hpres (.inr ⟨rfl, hps⟩)]
    cases hsrc.small _ 1 _ hleaf

/-- A present entry of a page table is a page. -/
theorem find_page (hp : find 256 src s₀ p = .node n) (hlen : p.length = 3)
    (hseen : Seen 256 src n i) (hpres : has (s₀.word n i) pteP = true) :
    find 256 src s₀ (i :: p) = .leaf 0 (s₀.word n i) := by
  rw [find_cons hp, step, view_of_seen hseen, hlen, Nat.sub_self, decode_eq_leaf hpres (.inl rfl)]

theorem copies_page (dst : Nat) (hsrc : UserSpace src s₀) (h₁ : i₁ < 512) (h₂ : i₂ < 512)
    (h₃ : i₃ < 512) (h₄ : i₄ < 256) (hp : find 256 src s₀ [i₂, i₃, i₄] = .node n)
    (hpres : has (s₀.word n i₁) pteP = true) : Copies src dst s₀ (under [i₁, i₂, i₃, i₄])
      (clonePage (dst * 4096) (i₄ * 2 ^ 39 ||| i₃ * 2 ^ 30 ||| i₂ * 2 ^ 21 ||| i₁ * 2 ^ 12)
        (s₀.word n i₁)) := by
  intro D s h
  have hpath := vpath_virt h₁ h₂ h₃ (show i₄ < 512 by omega)
  have hadd : i₄ * 2 ^ 39 ||| i₃ * 2 ^ 30 ||| i₂ * 2 ^ 21 ||| i₁ * 2 ^ 12 = _ := virt_eq_add h₁ h₂ h₃
  have hleaf := find_page hp rfl ((hsrc.seen_iff hp i₁).mp h₁) hpres
  have htop : indexAt (i₄ * 2 ^ 39 ||| i₃ * 2 ^ 30 ||| i₂ * 2 ^ 21 ||| i₁ * 2 ^ 12) 4 < 256 := by
    rw [hadd, indexAt]
    norm_num
    omega
  have hspec := clonePage_spec h hsrc (by rw [hadd]; omega) htop (by rw [hpath]; exact hleaf)
  rw [hpath] at hspec
  refine hspec.mono (fun s' hs' => hs'.widen ?_ fun q hq hin hno => ?_) fun _ s' hs' => ⟨D, hs'⟩
  · rintro q (rfl | hq)
    · exact .inr suffix_rfl
    · exact .inl hq
  · rcases hin with hin | hin
    · exact absurd (.inr hin) hno
    · have hsuf : [i₁, i₂, i₃, i₄] <:+ q := hin
      exact absurd (.inl (hsuf.eq_of_length hq.symm).symm) hno

section Levels

variable {is : List Nat} {body : Nat → Nat → Machine → Except PagingRc Unit × Machine}

/-- The loop over the table behind a link. -/
theorem copies_link (hsrc : UserSpace src s₀) (his : ∀ j, j ∈ is ↔ j < 512)
    (hp : find 256 src s₀ (i :: p) = .node (pteAddr e / 4096))
    (hbody : ∀ j < 512, has (s₀.word (pteAddr e / 4096) j) pteP = true →
      Copies src dst s₀ (under (j :: i :: p)) (body j (s₀.word (pteAddr e / 4096) j))) :
    Copies src dst s₀ (under (i :: p)) (forPresent id (pteAddr e) body is) := by
  have hloop := copies_loop hsrc hp (fun j => (his j).trans (hsrc.seen_iff hp j))
    fun j hj => hbody j ((his j).mp hj)
  rwa [pteAddr_aligned] at hloop

/-- The loop over the lower half of the PML4. -/
theorem copies_root (hsrc : UserSpace src s₀) (his : ∀ i, i ∈ is ↔ i < 256)
    (hbody : ∀ i < 256, has (s₀.word src i) pteP = true →
      Copies src dst s₀ (under [i]) (body i (s₀.word src i))) :
    Copies src dst s₀ (under []) (forPresent id (src * 4096) body is) := by
  have hnil : find 256 src s₀ [] = .node src := rfl
  refine copies_loop hsrc hnil (fun i => (his i).trans ?_) fun i hi => hbody i ((his i).mp hi)
  exact ⟨fun hi => ⟨by omega, fun _ => hi⟩, fun hi => hi.2 rfl⟩

end Levels

/-- **The whole copy.** -/
theorem copies_user (hsrc : UserSpace src s₀) :
    Copies src dst s₀ (under []) (pagingUserClone (dst * 4096) (src * 4096)) := by
  have hall : ∀ j, j ∈ List.range 512 ↔ j < 512 := fun j => List.mem_range
  have hlower : ∀ j, j ∈ List.range 256 ↔ j < 256 := fun j => List.mem_range
  have hnil : find 256 src s₀ [] = .node src := rfl
  rw [pagingUserClone]
  -- as lists the indices would be written out
  generalize List.range 512 = all at hall ⊢
  generalize List.range 256 = lower at hlower ⊢
  refine copies_root hsrc hlower fun i₄ h₄ hp₄ => ?_
  have hn₄ := hsrc.link hnil (by decide) ⟨by omega, fun _ => h₄⟩ hp₄
  refine copies_link hsrc hall hn₄ fun i₃ h₃ hp₃ => ?_
  have hn₃ := hsrc.link hn₄ (by simp) ((hsrc.seen_iff hn₄ i₃).mp h₃) hp₃
  refine copies_link hsrc hall hn₃ fun i₂ h₂ hp₂ => ?_
  have hn₂ := hsrc.link hn₃ (by simp) ((hsrc.seen_iff hn₃ i₂).mp h₂) hp₂
  have hps := hsrc.not_large hn₃ rfl ((hsrc.seen_iff hn₃ i₂).mp h₂) hp₂
  intro D s h
  show Ends _ _ (if _ then _ else _)
  rw [if_neg (by rw [hps]; decide)]
  exact copies_link hsrc hall hn₂ (fun i₁ h₁ hp₁ => copies_page dst hsrc h₁ h₂ h₃ h₄ hn₂ hp₁) D s h

/-! ## Destroying -/

/-- The frames of the address space at a path and below it. -/
def Below (root : Nat) (s : Machine) (p : List Nat) (f : Nat) : Prop :=
  ∃ q, p <:+ q ∧ (find 256 root s q = .node f ∨
    q.length = 4 ∧ ∃ h e, find 256 root s q = .leaf h e ∧ pageOf e = f)

/-- The state of the teardown, since `s₀`, when the frames `freed` have been given back. -/
structure Freeing (s₀ : Machine) (x : Machine × List Nat) (freed : List Nat) : Prop where
  log : x.2 = freed
  mem : x.1.mem = s₀.mem
  ready : Ready x.1.pmm
  nframes : x.1.pmm.nframes = s₀.pmm.nframes
  nodup : freed.Nodup
  free : ∀ f, f ∈ x.1.pmm.freeSet ↔ f ∈ s₀.pmm.freeSet ∨ f ∈ freed

/-- What a part of the teardown does: it gives back the frames `N`, each once. -/
def Frees (s₀ : Machine) (N : Nat → Prop)
    (g : Machine × List Nat → Except Unit Unit × (Machine × List Nat)) : Prop :=
  ∀ freed x, Freeing s₀ x freed → (∀ f, N f → f ∉ freed) →
    Ends (fun y => ∃ more, Freeing s₀ y (freed ++ more) ∧ ∀ f, f ∈ more ↔ N f) (fun _ _ => False) (g x)

/-- One frame in use. -/
theorem frees_frame (hf0 : f ≠ 0) (hlt : f < s₀.pmm.nframes) (hused : f ∉ s₀.pmm.freeSet) :
    Frees s₀ (· = f) (freeFrame (f * 4096)) := by
  intro freed x h hnew
  have hnot : f ∉ x.1.pmm.freeSet := fun hin => ((h.free f).mp hin).elim hused (hnew f rfl)
  obtain ⟨p, hex, hr, hn, hset⟩ := pmmFreeFrame_spec h.ready hf0 (h.nframes ▸ hlt) hnot
  rw [freeFrame, hex]
  refine ⟨[f], ⟨?_, h.mem, hr, hn.trans h.nframes, ?_, fun g => ?_⟩, fun g => mem_singleton⟩
  · show x.2 ++ [f * 4096 / 4096] = freed ++ [f]
    rw [h.log, frame_div]
  · refine nodup_append.mpr ⟨h.nodup, nodup_singleton f, fun a ha b hb => ?_⟩
    rw [mem_singleton.mp hb]
    rintro rfl
    exact hnew a rfl ha
  · show g ∈ p.freeSet ↔ _
    rw [hset, Finset.mem_insert, h.free g, mem_append, mem_singleton]
    tauto

/-- One part after the other, if their frames are apart. -/
theorem Frees.andThen {N M : Nat → Prop}
    {g k : Machine × List Nat → Except Unit Unit × (Machine × List Nat)} (hg : Frees s₀ N g)
    (hk : Frees s₀ M k) (hapart : ∀ f, N f → ¬M f) :
    Frees s₀ (fun f => N f ∨ M f) (Mm.andThen g k) := by
  intro freed x h hnew
  have hend := hg freed x h fun f hf => hnew f (.inl hf)
  rw [Mm.andThen]
  revert hend
  rcases g x with ⟨_ | _, y⟩
  · exact False.elim
  rintro ⟨more, hy, hmore⟩
  have hnew' : ∀ f, M f → f ∉ freed ++ more := fun f hf hin => by
    rcases mem_append.mp hin with hin | hin
    · exact hnew f (.inr hf) hin
    · exact hapart f ((hmore f).mp hin) hf
  refine (hk _ y hy hnew').mono (fun z hz => ?_) fun _ _ hz => hz
  obtain ⟨rest, hz, hrest⟩ := hz
  refine ⟨more ++ rest, append_assoc freed more rest ▸ hz, fun f => ?_⟩
  rw [mem_append, hmore, hrest]

theorem Frees.congr {N M : Nat → Prop}
    {g : Machine × List Nat → Except Unit Unit × (Machine × List Nat)} (hg : Frees s₀ N g)
    (hiff : ∀ f, N f ↔ M f) : Frees s₀ M g := by
  intro freed x h hnew
  refine (hg freed x h fun f hf => hnew f ((hiff f).mp hf)).mono (fun y hy => ?_) fun _ _ hy => hy
  obtain ⟨more, hy, hmore⟩ := hy
  exact ⟨more, hy, fun f => (hmore f).trans (hiff f)⟩

/-- No frame is at two paths. -/
theorem UserSpace.below_unique (hu : UserSpace root s₀) {q : List Nat} (hlen : p.length = q.length)
    (hp : Below root s₀ p f) (hq : Below root s₀ q f) : p = q := by
  have hsuf : ∀ {r : List Nat}, p <:+ r → q <:+ r → p = q := fun h1 h2 =>
    (suffix_of_suffix_length_le h1 h2 hlen.le).eq_of_length hlen
  obtain ⟨r, hpr, hr⟩ := hp
  obtain ⟨t, hqt, ht⟩ := hq
  rcases hr with hr | ⟨hrl, h, e, hr, hpage⟩
  · rcases ht with ht | ⟨-, k, e', ht, hpage'⟩
    · exact hsuf hpr (hu.space.distinct r t f hr ht ▸ hqt)
    · exact absurd (hpage' ▸ hr) ((hu.page t k e' ht).2.2.2 r)
  · rcases ht with ht | ⟨htl, k, e', ht, hpage'⟩
    · exact absurd (hpage ▸ ht) ((hu.page r h e hr).2.2.2 t)
    · exact hsuf hpr (hu.inj r t h k e e' hrl htl hr ht (hpage.trans hpage'.symm) ▸ hqt)

theorem not_below_of_nothing (hp : find 256 root s₀ p = .nothing) (f : Nat) :
    ¬Below root s₀ p f := by
  rintro ⟨q, hsuf, hq⟩
  rw [find_nothing hsuf hp] at hq
  rcases hq with hq | ⟨_, _, _, hq, _⟩ <;> cases hq

/-- The frames below a table: the table, and those below its entries. -/
theorem below_table (hp : find 256 root s₀ p = .node n) :
    Below root s₀ p f ↔ (∃ i, Seen 256 root n i ∧ Below root s₀ (i :: p) f) ∨ f = n := by
  constructor
  · rintro ⟨q, ⟨r, rfl⟩, hq⟩
    rcases eq_nil_or_concat r with rfl | ⟨r, i, rfl⟩
    · rw [nil_append, hp] at hq
      rcases hq with hq | ⟨_, _, _, hq, _⟩
      · cases hq
        exact .inr rfl
      · cases hq
    · rw [concat_eq_append, append_assoc, singleton_append] at hq
      refine .inl ⟨i, ?_, r ++ i :: p, ⟨r, rfl⟩, hq⟩
      by_contra hno
      exact not_below_of_nothing (find_outside hp hno) f ⟨r ++ i :: p, ⟨r, rfl⟩, hq⟩
  · rintro (⟨i, -, q, hq, hf⟩ | rfl)
    · exact ⟨q, (suffix_cons i p).trans hq, hf⟩
    · exact ⟨p, suffix_rfl, .inl hp⟩

section

variable (hu : UserSpace root s₀)
  {body : Nat → Nat → Machine × List Nat → Except Unit Unit × (Machine × List Nat)}

include hu

/-- **One loop of the teardown**, over a table: it frees what is below the entries. -/
theorem frees_loop (hp : find 256 root s₀ p = .node n) (is : List Nat) (hnodup : is.Nodup)
    (hseen : ∀ i ∈ is, Seen 256 root n i) (hbody : ∀ i ∈ is, has (s₀.word n i) pteP = true →
      Frees s₀ (Below root s₀ (i :: p)) (body i (s₀.word n i))) :
    Frees s₀ (fun f => ∃ i ∈ is, Below root s₀ (i :: p) f)
      (forPresent Prod.fst (n * 4096) body is) := by
  induction is with
  | nil =>
    intro freed x h _
    exact ⟨[], by rw [append_nil]; exact h, fun f => by simp⟩
  | cons i is ih =>
    rw [nodup_cons] at hnodup
    have hrest := ih hnodup.2 (fun j hj => hseen j (mem_cons_of_mem i hj))
      fun j hj => hbody j (mem_cons_of_mem i hj)
    intro freed x h hnew
    have hentry : x.1.entry (n * 4096) i = s₀.word n i := by
      rw [Machine.entry_frame]
      exact Machine.word_congr (by rw [h.mem]) i
    rw [forPresent, hentry]
    cases hP : has (s₀.word n i) pteP with
    | false =>
      rw [if_neg (by decide)]
      have hnone := find_absent hp (hseen i mem_cons_self) hP
      refine (hrest.congr fun f => ?_) freed x h hnew
      simp [not_below_of_nothing hnone f]
    | true =>
      rw [if_pos rfl]
      have hapart : ∀ f, Below root s₀ (i :: p) f → ¬∃ j ∈ is, Below root s₀ (j :: p) f := by
        rintro f hf ⟨j, hj, hfj⟩
        have hij : i :: p = j :: p := hu.below_unique (by simp) hf hfj
        cases hij
        exact hnodup.1 hj
      have hboth := (hbody i mem_cons_self hP).andThen hrest hapart
      exact (hboth.congr fun f => by simp) freed x h hnew

/-- A table, after what is below its entries. -/
theorem frees_table {is : List Nat}
    (hp : find 256 root s₀ p = .node n) (hnodup : is.Nodup)
    (hseen : ∀ i, i ∈ is ↔ Seen 256 root n i) (hbody : ∀ i ∈ is, has (s₀.word n i) pteP = true →
      Frees s₀ (Below root s₀ (i :: p)) (body i (s₀.word n i))) : Frees s₀ (Below root s₀ p)
      (andThen (forPresent Prod.fst (n * 4096) body is) (freeFrame (n * 4096))) := by
  obtain ⟨h1, h2, h3⟩ := hu.space.used p n hp
  have hloop := frees_loop hu hp is hnodup (fun i hi => (hseen i).mp hi) hbody
  have hapart : ∀ f, (∃ i ∈ is, Below root s₀ (i :: p) f) → ¬f = n := by
    rintro f ⟨i, -, q, hq, hf⟩ rfl
    -- the table is at its own path only
    rcases hf with hf | ⟨-, k, e, hf, hpage⟩
    · exact not_suffix_self i p (hu.space.distinct q p f hf hp ▸ hq)
    · exact (hu.page q k e hf).2.2.2 p (hpage ▸ hp)
  refine (hloop.andThen (frees_frame h1 h2 h3) hapart).congr fun f => ?_
  rw [below_table hp]
  simp only [hseen]

/-- The table behind a link. -/
theorem frees_link {is : List Nat}
    (hnodup : is.Nodup) (his : ∀ j, j ∈ is ↔ j < 512)
    (hp : find 256 root s₀ (i :: p) = .node (pteAddr e / 4096))
    (hbody : ∀ j < 512, has (s₀.word (pteAddr e / 4096) j) pteP = true →
      Frees s₀ (Below root s₀ (j :: i :: p)) (body j (s₀.word (pteAddr e / 4096) j))) :
    Frees s₀ (Below root s₀ (i :: p))
      (andThen (forPresent Prod.fst (pteAddr e) body is) (freeFrame (pteAddr e))) := by
  have htable := frees_table hu hp hnodup (fun j => (his j).trans (hu.seen_iff hp j))
    fun j hj => hbody j ((his j).mp hj)
  rwa [pteAddr_aligned] at htable

/-- A page. -/
theorem frees_page (hlen : p.length = 3)
    (hp : find 256 root s₀ p = .node n) (hseen : Seen 256 root n i)
    (hpres : has (s₀.word n i) pteP = true) :
    Frees s₀ (Below root s₀ (i :: p)) (freeFrame (pteAddr (s₀.word n i))) := by
  have hleaf := find_page hp hlen hseen hpres
  obtain ⟨h1, h2, h3, -⟩ := hu.page _ _ _ hleaf
  have hframe := frees_frame h1 h2 h3
  rw [pageOf, pteAddr_aligned] at hframe
  refine hframe.congr fun f => ⟨?_, ?_⟩
  · rintro rfl
    exact ⟨i :: p, suffix_rfl, .inr ⟨by rw [length_cons, hlen], 0, _, hleaf, rfl⟩⟩
  · rintro ⟨q, hsuf, hq⟩
    rw [find_leaf hsuf hleaf] at hq
    rcases hq with hq | ⟨_, _, _, hq, hpage⟩
    · cases hq
    · cases hq
      exact hpage.symm

/-- **The whole teardown** gives back the frames of the address space, each once. -/
theorem frees_user :
    Frees s₀ (Below root s₀ []) (pagingUserDestroy (root * 4096)) := by
  have hall : ∀ j, j ∈ List.range 512 ↔ j < 512 := fun j => List.mem_range
  have hlower : ∀ j, j ∈ List.range 256 ↔ j < 256 := fun j => List.mem_range
  have hallNodup : (List.range 512).Nodup := List.nodup_range
  have hlowerNodup : (List.range 256).Nodup := List.nodup_range
  have hnil : find 256 root s₀ [] = .node root := rfl
  have hseen : ∀ i, i ∈ List.range 256 ↔ Seen 256 root root i := fun i => (hlower i).trans
    ⟨fun hi => ⟨by omega, fun _ => hi⟩, fun hi => hi.2 rfl⟩
  rw [pagingUserDestroy]
  generalize List.range 512 = all at hall hallNodup ⊢
  generalize List.range 256 = lower at hlower hlowerNodup hseen ⊢
  refine frees_table hu hnil hlowerNodup hseen fun i₄ h₄ hp₄ => ?_
  have hn₄ := hu.link hnil (by decide) ((hseen i₄).mp h₄) hp₄
  refine frees_link hu hallNodup hall hn₄ fun i₃ h₃ hp₃ => ?_
  have hs₃ := (hu.seen_iff hn₄ i₃).mp h₃
  have hn₃ := hu.link hn₄ (by simp) hs₃ hp₃
  refine frees_link hu hallNodup hall hn₃ fun i₂ h₂ hp₂ => ?_
  have hs₂ := (hu.seen_iff hn₃ i₂).mp h₂
  have hn₂ := hu.link hn₃ (by simp) hs₂ hp₂
  rw [if_neg (by rw [hu.not_large hn₃ rfl hs₂ hp₂]; decide)]
  exact frees_link hu hallNodup hall hn₂ fun i₁ h₁ hp₁ =>
    frees_page hu rfl hn₂ ((hu.seen_iff hn₂ i₁).mp h₁) hp₁

end

/-- A page is found by four indices. -/
theorem UserSpace.leaf_path (hu : UserSpace root s₀) :
    ∀ {q : List Nat}, find 256 root s₀ q = .leaf h e →
      ∃ p, p.length = 4 ∧ find 256 root s₀ p = .leaf h e
  | [], hq => by cases hq
  | i :: q, hq => by
    have hheight := leaf_height hq
    rw [hu.small _ h e hq, length_cons] at hheight
    by_cases hlen : q.length = 3
    · exact ⟨i :: q, by rw [length_cons, hlen], hq⟩
    -- the path is longer, and has ended before its last index
    rcases find_cons_leaf hq with ⟨n, hfind, -⟩ | hfind
    · have := find_length hfind
      omega
    · exact hu.leaf_path hfind

theorem UserSpace.below_nil (hu : UserSpace root s₀) (f : Nat) :
    Below root s₀ [] f ↔ Owns root s₀ f := by
  constructor
  · rintro ⟨q, -, hq | ⟨-, h, e, hq, hpage⟩⟩
    · exact .inl ⟨q, hq⟩
    · exact .inr ⟨q, h, e, hq, hpage⟩
  · rintro (⟨q, hq⟩ | ⟨q, h, e, hq, hpage⟩)
    · exact ⟨q, nil_suffix, .inl hq⟩
    · obtain ⟨p, hlen, hp⟩ := hu.leaf_path hq
      exact ⟨p, nil_suffix, .inr ⟨hlen, h, e, hp, hpage⟩⟩

end Hallucinate.Mm
