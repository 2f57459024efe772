import Hallucinate.Mm.Fork

/-!
# What the processor lets a process do

On the way to a page the processor reads an entry of every table, and each of them can take a right
away: a page is user, or writable, only if all the entries have the bit, and not executable if one of
them has NX. (The kernel sets `EFER.NXE` and `CR0.WP`.) `paging_lookup` returns the last entry only.

`next_table` makes links that are writable and executable, and marks those on the way to a user page
as user. So in a user address space the last entry decides: `UserSpace.rights`.
-/

namespace Hallucinate.Mm

open Lib Lib.Radix List

variable {top root pml4 : Nat} {s s' : Machine}

/-- The entries that the processor reads on the way to the page of an address, from a table on. -/
def entriesFrom (s : Machine) (virt : Nat) : Nat → Nat → List Nat
  | 0, _ => []
  | level + 1, table =>
    let entry := s.entry table (indexAt virt (level + 1))
    if has entry pteP = false then []
    else if level = 0 ∨ level = 1 ∧ has entry ptePS then [entry]
    else entry :: entriesFrom s virt level (pteAddr entry)

/-- The rights to a page. -/
structure Rights where
  user : Bool
  write : Bool
  exec : Bool
  deriving DecidableEq, Repr

/-- The rights that the processor grants to a process at an address, if it is mapped. -/
def rights (s : Machine) (pml4 virt : Nat) : Option Rights :=
  if (pagingLookup s pml4 virt).1 = 0 then none
  else
    let entries := entriesFrom s virt 4 pml4
    some ⟨entries.all (has · pteUS), entries.all (has · pteW), entries.all (!has · pteNX)⟩

/-- The byte that a process reads at an address, if it is mapped. -/
def readByte (s : Machine) (pml4 virt : Nat) : Option UInt8 :=
  (pagingLookup s pml4 virt).2.map fun phys => s.mem (phys / 4096) (phys % 4096)

/-! ## The links between the tables -/

/-- The entry that a path ends with. -/
def linkEntry (top root : Nat) (s : Machine) : List Nat → Nat
  | [] => 0
  | i :: p =>
    match find top root s p with
    | .node n => view top root s n i
    | _ => 0

variable {p : List Nat} {n : Nat}

theorem linkEntry_cons (hp : find top root s p = .node n) (i : Nat) :
    linkEntry top root s (i :: p) = view top root s n i := by
  rw [linkEntry, hp]

/-- No link takes the right to write or to execute away. -/
def Links (top root : Nat) (s : Machine) : Prop :=
  ∀ i p m, find top root s (i :: p) = .node m →
    has (linkEntry top root s (i :: p)) pteW = true ∧
      has (linkEntry top root s (i :: p)) pteNX = false

/-- The links stay open, and those that are user stay so. -/
structure Opens (top root : Nat) (s s' : Machine) : Prop where
  links : Links top root s → Links top root s'
  user : ∀ i p m, find top root s (i :: p) = .node m →
    has (linkEntry top root s (i :: p)) pteUS = true →
    has (linkEntry top root s' (i :: p)) pteUS = true

theorem Opens.refl (s : Machine) : Opens top root s s := ⟨id, fun _ _ _ _ => id⟩

theorem Opens.trans {s'' : Machine} (h : Opens top root s s')
    (hnodes : ∀ p n, find top root s p = .node n → find top root s' p = .node n)
    (h' : Opens top root s' s'') : Opens top root s s'' :=
  ⟨fun hl => h'.links (h.links hl),
    fun i p m hp hus => h'.user i p m (hnodes _ m hp) (h.user i p m hp hus)⟩

/-- What leaves the tables alone leaves the links alone. -/
theorem linkEntry_congr (hmem : ∀ p n, find top root s p = .node n → s'.mem n = s.mem n)
    (q : List Nat) : linkEntry top root s' q = linkEntry top root s q := by
  cases q with
  | nil => rfl
  | cons i p =>
    rw [linkEntry, linkEntry, find_congr_tables hmem]
    cases hp : find top root s p with
    | node n => exact view_congr (Machine.word_congr (hmem p n hp) i)
    | leaf => rfl
    | nothing => rfl

theorem Opens.of_tables (hmem : ∀ p n, find top root s p = .node n → s'.mem n = s.mem n) :
    Opens top root s s' := by
  have hfind := find_congr_tables hmem
  have hlink := linkEntry_congr hmem
  refine ⟨fun hl i p m hp => ?_, fun i p m hp hus => ?_⟩
  · rw [hlink]
    exact hl i p m (hfind (i :: p) ▸ hp)
  · rw [hlink]
    exact hus

variable {i : Nat}

/-- **A write to one entry.** The other links are as before. -/
theorem Opens.of_write (hp : find top root s p = .node n) (hseen : Seen top root n i)
    (hs' : Space top root s')
    (hnodes : ∀ q m, find top root s q = .node m → find top root s' q = .node m)
    (hback : ∀ q m, find top root s' q = .node m → q ≠ i :: p → find top root s q = .node m)
    (hother : ∀ q m j, find top root s q = .node m → ¬(m = n ∧ j = i) → s'.word m j = s.word m j)
    (hlink : ∀ m, find top root s' (i :: p) = .node m → Links top root s →
      has (s'.word n i) pteW = true ∧ has (s'.word n i) pteNX = false)
    (huser : ∀ m, find top root s (i :: p) = .node m → has (linkEntry top root s (i :: p)) pteUS = true →
      has (s'.word n i) pteUS = true) : Opens top root s s' := by
  have hhere : linkEntry top root s' (i :: p) = s'.word n i := by
    rw [linkEntry_cons (hnodes p n hp), view_of_seen hseen]
  have hthere : ∀ j q m, j :: q ≠ i :: p → find top root s (j :: q) = .node m →
      linkEntry top root s' (j :: q) = linkEntry top root s (j :: q) := fun j q m hne hq => by
    obtain ⟨n', hn', -⟩ := walk_tail hq
    rw [linkEntry_cons hn', linkEntry_cons (hnodes q n' hn')]
    refine view_congr (hother q n' j hn' ?_)
    rintro ⟨rfl, rfl⟩
    exact hne (by rw [hs'.distinct q p n' (hnodes q n' hn') (hnodes p n' hp)])
  refine ⟨fun hl j q m hq => ?_, fun j q m hq hus => ?_⟩
  · by_cases heq : j :: q = i :: p
    · rw [heq, hhere]
      exact hlink m (heq ▸ hq) hl
    · have hq' := hback _ m hq heq
      rw [hthere j q m heq hq']
      exact hl j q m hq'
  · by_cases heq : j :: q = i :: p
    · rw [heq, hhere]
      rw [heq] at hq hus
      exact huser m hq hus
    · rw [hthere j q m heq hq]
      exact hus

/-! ## The mapping functions -/

theorem has_or (a b k : Nat) : has (a ||| b) (2 ^ k) = (has a (2 ^ k) || has b (2 ^ k)) := by
  rw [has_two_pow, has_two_pow, has_two_pow, Nat.testBit_or]

variable {k : Nat}

variable {f : Nat}

/-- The bits of an address are those of the mask. -/
theorem has_frame (hf : f < 2 ^ 40) (hk : k < 12 ∨ 52 ≤ k) : has (f * 4096) (2 ^ k) = false := by
  rw [has_two_pow, ← pteAddr_of_lt hf, testBit_pteAddr]
  rcases hk with hk | hk
  · simp [show ¬12 ≤ k by omega]
  · simp [show ¬k < 52 by omega]

variable {user : Nat}

theorem has_user (e : Nat) : has (e ||| pteUS) pteUS = true := by
  rw [pteUS, has_or, show has (2 ^ 2) (2 ^ 2) = true by decide, Bool.or_true]

/-- The entry of a new table. -/
theorem has_table (hf : f < 2 ^ 40) (hu : user = 0 ∨ user = pteUS) :
    has (f * 4096 ||| (pteP ||| pteW) ||| user) pteW = true ∧
      has (f * 4096 ||| (pteP ||| pteW) ||| user) pteNX = false := by
  refine ⟨?_, ?_⟩
  · rw [pteW, has_or, has_or, has_frame hf (.inl (by decide))]
    rcases hu with rfl | rfl <;> decide
  · rw [pteNX, has_or, has_or, has_frame hf (.inr (by decide))]
    rcases hu with rfl | rfl <;> decide

/-- **`next_table`** makes open links, and marks them as user if it is to. -/
theorem nextTable_opens (h : Space top root s) (hr : Ready s.pmm) (hp : find top root s p = .node n)
    (hlen : p.length < 3) (hseen : Seen top root n i) (hu : user = 0 ∨ user = pteUS)
    (hleaf : ∀ k e, find top root s (i :: p) ≠ .leaf k e) :
    Opens top root s (nextTable (n * 4096) i user s).2 ∧
      ((nextTable (n * 4096) i user s).1 ≠ 0 → user = pteUS →
        has (linkEntry top root (nextTable (n * 4096) i user s).2 (i :: p)) pteUS = true) := by
  rw [nextTable, Machine.entry_frame]
  by_cases hhas : has (s.word n i) pteP = true
  · have hfound := find_present hp hseen hhas hleaf
    have hentry : linkEntry top root s (i :: p) = s.word n i := by
      rw [linkEntry_cons hp, view_of_seen hseen]
    rw [if_pos hhas]
    by_cases hmark : user ≠ 0 ∧ has (s.word n i) pteUS = false
    · rw [if_pos hmark]
      have hgrew := h.grew_user hr hp hlen hseen hleaf
      have hv : s.word n i ||| pteUS < 2 ^ 64 := Nat.or_lt_two_pow (rd_lt ..) (by decide)
      have hself : (s.setEntry (n * 4096) i (s.word n i ||| pteUS)).word n i = s.word n i ||| pteUS := by
        rw [Machine.word_setEntry hv, if_pos ⟨rfl, rfl⟩]
      have hus := has_user (s.word n i)
      refine ⟨Opens.of_write hp hseen hgrew.space hgrew.nodes (fun q m hq _ => ?_)
        (fun q m j _ hne => by rw [Machine.word_setEntry hv, if_neg hne]) (fun m _ hl => ?_)
        fun m _ _ => by rw [hself, hus], fun _ _ => ?_⟩
      · -- no frame was taken
        exact (hgrew.taken q m hq).resolve_right (hgrew.space.used q m hq).2.2
      · rw [hself]
        obtain ⟨hw, hnx⟩ := hl i p _ hfound
        rw [hentry] at hw hnx
        rw [pteUS, pteW, pteNX, has_or, has_or]
        rw [pteW] at hw
        rw [pteNX] at hnx
        rw [hw, hnx]
        decide
      · show has (linkEntry top root (s.setEntry (n * 4096) i (s.word n i ||| pteUS)) (i :: p)) pteUS = _
        rw [linkEntry_cons (hgrew.nodes p n hp), view_of_seen hseen, hself, hus]
    · rw [if_neg hmark]
      refine ⟨Opens.refl s, fun _ huser => ?_⟩
      show has (linkEntry top root s (i :: p)) pteUS = true
      rw [hentry]
      by_contra hno
      exact hmark ⟨by rw [huser]; decide, Bool.not_eq_true _ ▸ hno⟩
  · rw [if_neg hhas]
    have habsent : has (s.word n i) pteP = false := Bool.not_eq_true _ ▸ hhas
    rcases pmmAllocFrame_spec hr with ⟨-, halloc⟩ | ⟨f, hf, hf0, pmm, halloc, hready, hn, hset⟩
    · rw [halloc]
      exact ⟨Opens.refl s, fun hne => absurd rfl hne⟩
    · rw [halloc]
      simp only [if_neg (show ¬f * 4096 = 0 by omega)]
      obtain ⟨hgrew, hfound⟩ := h.grew_table hr hp hlen hseen habsent hu hf hf0 hready hn hset
      have hv := hr.tableEntry_lt hf hu
      have hself : ((({ s with pmm := pmm } : Machine).zeroPage (f * 4096)).setEntry (n * 4096) i
          (f * 4096 ||| (pteP ||| pteW) ||| user)).word n i =
            f * 4096 ||| (pteP ||| pteW) ||| user := by
        rw [Machine.word_setEntry hv, if_pos ⟨rfl, rfl⟩]
      have hnone := find_absent hp hseen habsent
      refine ⟨Opens.of_write hp hseen hgrew.space hgrew.nodes (fun q m hq hne => ?_)
        (fun q m j hq hne => ?_) (fun m _ _ => ?_) (fun m hq => ?_), fun _ huser => ?_⟩
      · refine (hgrew.taken q m hq).resolve_right fun hfree => hne ?_
        -- the frame taken is that of the new table
        have hmf : m = f := by
          by_contra hmf
          refine (hgrew.space.used q m hq).2.2 ?_
          show m ∈ pmm.freeSet
          rw [hset]
          exact Finset.mem_erase.mpr ⟨hmf, hfree⟩
        rw [hmf] at hq
        exact hgrew.space.distinct q _ f hq hfound
      · rw [Machine.word_setEntry hv, if_neg hne]
        exact Machine.word_congr (Machine.setFrame_ne fun hmf : m = f => (h.used q m hq).2.2 (hmf ▸ hf)) j
      · rw [hself]
        exact has_table (hr.lt hf) hu
      · rw [hnone] at hq
        cases hq
      · rw [linkEntry_cons (hgrew.nodes p n hp), view_of_seen hseen, hself, huser, has_user]

variable {virt : Nat}

/-- **The descent** marks the links on the way as user if it is to. -/
theorem descend_opens (htop : indexAt virt 4 < top) (hu : user = 0 ∨ user = pteUS) (j : Nat) :
    ∀ {s : Machine} {k n : Nat}, Space top root s → Ready s.pmm → k + j ≤ 3 →
      find top root s (vpath virt k) = .node n →
      (∀ h e, find top root s (vpath virt (k + j)) ≠ .leaf h e) →
      let r := descend virt user ((List.range' k j).map (4 - ·)) (n * 4096) s
      Opens top root s r.2 ∧ (r.1 ≠ 0 → user = pteUS → ∀ l, k < l → l ≤ k + j →
        has (linkEntry top root r.2 (vpath virt l)) pteUS = true) := by
  induction j with
  | zero =>
    intro s k n _ _ _ _ _
    exact ⟨Opens.refl s, fun _ _ l h1 h2 => absurd h1 (by omega)⟩
  | succ j ih =>
    intro s k n hs hr hkj hp hleaf
    have hstep : vpath virt (k + 1) <:+ vpath virt (k + (j + 1)) := vpath_suffix virt (by omega)
    have hlen : (vpath virt k).length < 3 := by
      rw [vpath_length]
      omega
    have hnoleaf := not_leaf_of_suffix hstep hleaf
    have hspec := nextTable_spec hs hr hp hlen (hs.seen htop hp) hu hnoleaf
    obtain ⟨hopen, hmark⟩ := nextTable_opens hs hr hp hlen (hs.seen htop hp) hu hnoleaf
    rw [range'_succ, map_cons, descend]
    rcases hspec with ⟨hzero, -, -⟩ | ⟨m, s₁, hnext, hm, hgrew, hfound⟩
    · rw [hzero]
      exact ⟨Opens.refl s, fun hne => absurd rfl hne⟩
    · rw [hnext] at hopen hmark ⊢
      simp only [if_neg (show ¬m * 4096 = 0 by omega)]
      have hfound' : find top root s₁ (vpath virt (k + 1)) = .node m := hfound
      have hleaf' : ∀ h e, find top root s₁ (vpath virt (k + 1 + j)) ≠ .leaf h e := fun h e hq => by
        rw [show k + 1 + j = k + (j + 1) by omega] at hq
        exact hleaf h e ((hgrew.leaves _ h e).mp hq)
      obtain ⟨hopen', hmark'⟩ := ih hgrew.space hgrew.ready (by omega) hfound' hleaf'
      refine ⟨hopen.trans hgrew.nodes hopen', fun hne huser l h1 h2 => ?_⟩
      by_cases hl : l = k + 1
      · subst hl
        exact hopen'.user _ _ m hfound (hmark (by omega) huser)
      · exact hmark' hne huser l (by omega) (by omega)

variable {q : List Nat}

/-- The way to a table is along tables. -/
theorem node_of_suffix (hpq : p <:+ q) (hq : find top root s q = .node n) :
    ∃ m, find top root s p = .node m := by
  obtain ⟨r, rfl⟩ := hpq
  induction r generalizing n with
  | nil => exact ⟨n, hq⟩
  | cons i r ih =>
    obtain ⟨m, hm, -⟩ := walk_tail hq
    exact ih hm

variable {e : Nat}

variable {l : Nat}

variable {flags : Nat}

/-- The entry that the end of `map_common` writes is no link. -/
theorem writeLeaf_opens (hs : Space top root s) (hl : l = 1 ∨ l = 2) (hf : flags < 2 ^ 64)
    (htop : indexAt virt 4 < top) (phys : Nat) (hp : find top root s (vpath virt (4 - l)) = .node n) :
    
    Opens top root s (writeLeaf (n * 4096) virt phys flags l s).2 := by
  have hspec : _ ∨ ∃ s', writeLeaf (n * 4096) virt phys flags l s = (.ok, s') ∧ _ :=
    writeLeaf_spec hs hl hf htop hp
  obtain ⟨hpath, hseen⟩ := hs.seen_leaf hl htop hp
  rw [hpath, writeLeaf, Machine.entry_frame] at hspec
  rw [writeLeaf, Machine.entry_frame]
  by_cases hhas : has (s.word n (indexAt virt l)) pteP = true
  · rw [if_pos hhas]
    exact Opens.refl s
  rw [if_neg hhas] at hspec ⊢
  rcases hspec with ⟨hbad, -⟩ | ⟨s', hcall, hmap⟩
  · cases hbad
  cases hcall
  have hnone := hmap.free
  refine Opens.of_write hp hseen hmap.space (fun q m => (hmap.node_iff q m).mpr)
    (fun q m hq _ => (hmap.node_iff q m).mp hq) (fun q m j _ hne => ?_) (fun m hq => ?_) fun m hq => ?_
  · show (s.setEntry (n * 4096) (indexAt virt l) (leafEntry phys flags l)).word m j = _
    rw [Machine.word_setEntry (leafEntry_lt hf phys l), if_neg hne]
  · rw [hmap.node_iff, hnone] at hq
    cases hq
  · rw [hnone] at hq
    cases hq

/-- **`map_common`** keeps the links open, and the way to a user page is user. -/
theorem mapCommon_opens (hs : Space top root s) (hr : Ready s.pmm) {phys size : Nat}
    (hl : l = 1 ∨ l = 2) (hf : flags < 2 ^ 64) (htop : indexAt virt 4 < top)
    (hleaf : ∀ h e, find top root s (vpath virt (4 - l)) ≠ .leaf h e) :
    let r := mapCommon (root * 4096) virt phys flags l size s
    Opens top root s r.2 ∧ (r.1 = .ok → has flags pteUS = true → ∀ j, 0 < j → j ≤ 4 - l →
      has (linkEntry top root r.2 (vpath virt j)) pteUS = true) := by
  have hu : flags &&& pteUS = 0 ∨ flags &&& pteUS = pteUS := by
    rw [pteUS, Nat.and_two_pow]
    cases flags.testBit 2 <;> simp
  have hroot : root ≠ 0 := (hs.used [] root rfl).1
  have hstart : find top root s (vpath virt 0) = .node root := rfl
  have hleaf' : ∀ h e, find top root s (vpath virt (0 + (4 - l))) ≠ .leaf h e := by
    rw [Nat.zero_add]
    exact hleaf
  obtain ⟨s₁, hgrew, hdesc⟩ := descend_spec htop hu (4 - l) hs hr (by omega) hroot hstart hleaf'
  obtain ⟨hopen, hmark⟩ := descend_opens htop hu (4 - l) hs hr (by omega) hstart hleaf'
  rw [← range_eq_range', Nat.zero_add] at hdesc hmark
  rw [← range_eq_range'] at hopen
  rw [mapCommon]
  by_cases hal : virt % size ≠ 0 ∨ phys % size ≠ 0
  · rw [if_pos hal]
    exact ⟨Opens.refl s, fun hok => by cases hok⟩
  rw [if_neg hal]
  rcases hdesc with ⟨hzero, -, -⟩ | ⟨n, hn, hfound, hdesc⟩
  · rw [hzero] at hopen ⊢
    exact ⟨hopen, fun hok => by cases hok⟩
  rw [hdesc] at hopen hmark ⊢
  simp only [if_neg (show ¬n * 4096 = 0 by omega)]
  have hwrite := writeLeaf_opens hgrew.space hl hf htop phys hfound
  refine ⟨hopen.trans hgrew.nodes hwrite, fun _ hus j h0 hj => ?_⟩
  have huser : flags &&& pteUS = pteUS := hu.resolve_left fun h0 => by
    rw [has, h0] at hus
    cases hus
  obtain ⟨m, hm⟩ := node_of_suffix (vpath_suffix virt hj) hfound
  obtain ⟨j, rfl⟩ := Nat.exists_eq_succ_of_ne_zero h0.ne'
  exact hwrite.user _ _ m hm (hmark (by omega) huser _ h0 hj)

/-- The links of the address spaces that there are. -/
theorem Built.links (h : Built pml4 s) : Links 256 (pml4 / 4096) s := by
  induction h with
  | create hr hnew =>
    obtain ⟨f, rfl, -, -, -, -, -, -, hbare⟩ := createUser_cases hr hnew
    rw [frame_div]
    intro i p m hp
    exact absurd (node_of_bare hbare hp).1 (cons_ne_nil i p)
  | @map s s' virt f flags hbuilt howned hvirt hflags hcall ih =>
    obtain ⟨haddr, hu, hr⟩ := hbuilt.user
    generalize pml4 / 4096 = root at haddr hu ih ⊢
    subst haddr
    have hopen : Opens 256 root s (mapCommon (root * 4096) virt (f * 4096) flags 1 0x1000 s).2 :=
      (mapCommon_opens hu.space hr (.inl rfl) hflags.1 (indexAt_user hvirt) (hu.not_leaf_above virt)).1
    rw [show mapCommon (root * 4096) virt (f * 4096) flags 1 0x1000 s = _ from hcall] at hopen
    exact hopen.links ih
  | other _ hmem _ _ _ ih => exact (Opens.of_tables hmem).links ih

/-! ## The rights to a page -/

/-- The entries on the way to a page are links and, last, its own. -/
theorem entriesFrom_spec (hs : Space top root s) (htop : indexAt virt 4 < top)
    (hleaf : find top root s (vpath virt 4) = .leaf k e) (level : Nat) : ∀ {n : Nat}, level ≤ 4 →
      find top root s (vpath virt (4 - level)) = .node n →
      e ∈ entriesFrom s virt level (n * 4096) ∧ ∀ x ∈ entriesFrom s virt level (n * 4096),
        x = e ∨ ∃ l m, 0 < l ∧ l ≤ 3 ∧ find top root s (vpath virt l) = .node m ∧
          x = linkEntry top root s (vpath virt l) := by
  induction level with
  | zero =>
    intro n _ hp
    rw [Nat.sub_zero, hleaf] at hp
    cases hp
  | succ level ih =>
    intro n hlevel hp
    rw [entriesFrom, Machine.entry_frame]
    rcases hs.level_cases htop hlevel hp with ⟨-, hend⟩ | ⟨hP, hl, hend⟩ | ⟨hP, hl, hnext⟩
    · rw [hend] at hleaf
      cases hleaf
    · rw [hend] at hleaf
      cases hleaf
      rw [if_neg (by rw [hP]; decide), if_pos hl]
      exact ⟨mem_singleton_self _, fun x hx => .inl (mem_singleton.mp hx)⟩
    · rw [if_neg (by rw [hP]; decide), if_neg hl, ← pteAddr_aligned]
      obtain ⟨hin, hrest⟩ := ih (by omega) hnext
      refine ⟨mem_cons_of_mem _ hin, fun x hx => ?_⟩
      cases mem_cons.mp hx with
      | inl hx =>
        refine .inr ⟨4 - level, _, by omega, by omega, hnext, ?_⟩
        rw [hx, vpath_level hlevel, linkEntry_cons hp, view_of_seen (hs.seen_level htop hlevel hp)]
      | inr hx => exact hrest x hx

theorem all_eq_of_mem {f : Nat → Bool} {l : List Nat} (he : e ∈ l)
    (hl : ∀ x ∈ l, x = e ∨ f x = true) : l.all f = f e := by
  cases hf : f e with
  | true =>
    refine all_eq_true.mpr fun x hx => ?_
    rcases hl x hx with rfl | hx
    · exact hf
    · exact hx
  | false => exact all_eq_false.mpr ⟨e, he, by rw [hf]; decide⟩

/-- **The rights to a page** are those of its entry, where the links to it are user. -/
theorem UserSpace.rights (hu : UserSpace root s) (hlinks : Links 256 root s) (hv : virt < 2 ^ 47)
    (hleaf : find 256 root s (vpath virt 4) = .leaf 0 e)
    (huser : ∀ l, 0 < l → l ≤ 3 → has (linkEntry 256 root s (vpath virt l)) pteUS = true) :
    Mm.rights s (root * 4096) virt = some ⟨has e pteUS, has e pteW, !has e pteNX⟩ := by
  obtain ⟨hentry, hne⟩ := (hu.lookup hv e).mpr hleaf
  obtain ⟨hin, hall⟩ := entriesFrom_spec hu.space (indexAt_user hv) hleaf 4 le_rfl rfl
  have hlink : ∀ l m, 0 < l → find 256 root s (vpath virt l) = .node m →
      has (linkEntry 256 root s (vpath virt l)) pteW = true ∧
        has (linkEntry 256 root s (vpath virt l)) pteNX = false := fun l m h0 hm => by
    obtain ⟨l, rfl⟩ := Nat.exists_eq_succ_of_ne_zero h0.ne'
    exact hlinks _ _ m hm
  have hbit : ∀ {f : Nat → Bool}, (∀ l m, 0 < l → l ≤ 3 → find 256 root s (vpath virt l) = .node m →
      f (linkEntry 256 root s (vpath virt l)) = true) →
      (entriesFrom s virt 4 (root * 4096)).all f = f e := fun {f} hf =>
    all_eq_of_mem hin fun x hx => (hall x hx).imp_right fun ⟨l, m, h0, h3, hm, hxl⟩ => by
      rw [hxl]
      exact hf l m h0 h3 hm
  rw [Mm.rights, if_neg (by rw [hentry]; exact hne)]
  simp only [hbit (f := (has · pteUS)) fun l m h0 h3 _ => huser l h0 h3,
    hbit (f := (has · pteW)) fun l m h0 _ hm => (hlink l m h0 hm).1,
    hbit (f := (!has · pteNX)) fun l m h0 _ hm => by rw [(hlink l m h0 hm).2]; rfl]

/-- A page is read in its frame. -/
theorem UserSpace.readByte (hu : UserSpace root s) (hv : virt < 2 ^ 47)
    (hleaf : find 256 root s (vpath virt 4) = .leaf 0 e) :
    Mm.readByte s (root * 4096) virt = some (s.mem (pageOf e) (virt % 4096)) := by
  have hlt : virt % 4096 < 2 ^ 12 := Nat.mod_lt _ (by decide)
  have hphys : pteAddr e / 4096 * 4096 ||| virt % 4096 = pageOf e * 4096 + virt % 4096 := by
    rw [pageOf, Nat.mul_comm]
    exact (Nat.two_pow_add_eq_or_of_lt hlt _).symm
  rw [Mm.readByte, pagingLookup_spec hu.space (indexAt_user hv), hleaf]
  show some (s.mem ((pteAddr e / 4096 * 4096 ||| virt % 4096) / 4096)
    ((pteAddr e / 4096 * 4096 ||| virt % 4096) % 4096)) = _
  rw [hphys, show (pageOf e * 4096 + virt % 4096) / 4096 = pageOf e by omega,
    show (pageOf e * 4096 + virt % 4096) % 4096 = virt % 4096 by omega]

/-- The tables on the way to a page. -/
theorem UserSpace.node_above (hu : UserSpace root s) (hl : l ≤ 3)
    (hleaf : find 256 root s (vpath virt 4) = .leaf k e) :
    ∃ m, find 256 root s (vpath virt l) = .node m := by
  cases hlast : find 256 root s (vpath virt 3) with
  | node n => exact node_of_suffix (vpath_suffix virt hl) hlast
  | leaf k' e' => exact absurd hlast (hu.not_leaf_above virt k' e')
  | nothing =>
    rw [find_nothing (vpath_suffix virt (show 3 ≤ 4 by decide)) hlast] at hleaf
    cases hleaf

/-- Addresses of one page have one path, and others have others. -/
theorem vpath_eq_iff {a b : Nat} (ha : a < 2 ^ 48) (hb : b < 2 ^ 48) :
    vpath a 4 = vpath b 4 ↔ a / 4096 = b / 4096 := by
  simp only [vpath, indexAt, List.cons.injEq, and_true]
  norm_num
  omega

/-- Where something is found, the entry is one of the view. -/
theorem seen_of_found (hq : find top root s q = .node n) (hne : find top root s (i :: q) ≠ .nothing) :
    Seen top root n i := by
  by_contra hno
  exact hne (find_outside hq hno)

/-- Every page has an address. -/
theorem UserSpace.exists_virt (hu : UserSpace root s) (hlen : p.length = 4)
    (hleaf : find 256 root s p = .leaf k e) : ∃ virt < 2 ^ 47, vpath virt 4 = p := by
  obtain ⟨i₁, i₂, i₃, i₄, rfl⟩ := length_eq_four.mp hlen
  have hfound : ∀ {q : List Nat} {n : Nat}, find 256 root s q = .node n →
      find 256 root s q ≠ .nothing := fun hq hno => by
    rw [hq] at hno
    cases hno
  have hlast : ∃ n, find 256 root s [i₂, i₃, i₄] = .node n := by
    cases hq : find 256 root s [i₂, i₃, i₄] with
    | node n => exact ⟨n, rfl⟩
    | leaf k' e' =>
      have hheight := leaf_height hq
      rw [hu.small _ k' e' hq] at hheight
      exact absurd hheight (by simp)
    | nothing =>
      rw [find_nothing (suffix_cons ..) hq] at hleaf
      cases hleaf
  obtain ⟨n₃, h₃⟩ := hlast
  obtain ⟨n₂, h₂, -⟩ := walk_tail h₃
  obtain ⟨n₁, h₁, -⟩ := walk_tail h₂
  have hroot : find 256 root s [] = .node root := rfl
  have hi₁ := (seen_of_found h₃ (by rw [hleaf]; exact fun h => nomatch h)).1
  have hi₂ := (seen_of_found h₂ (hfound h₃)).1
  have hi₃ := (seen_of_found h₁ (hfound h₂)).1
  have hi₄ := (seen_of_found hroot (hfound h₁)).2 rfl
  refine ⟨_, ?_, vpath_virt hi₁ hi₂ hi₃ (show i₄ < 512 by omega)⟩
  rw [virt_eq_add hi₁ hi₂ hi₃]
  omega

end Hallucinate.Mm
