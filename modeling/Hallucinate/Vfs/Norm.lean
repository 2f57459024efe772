import Hallucinate.Vfs.Path

/-!
# `vfs_path_norm` on its buffer

The function of `kernel/fs/vfs_path.c` with its loops over the input and its accesses to `out`. An
access before the start of `out`, or a write at or beyond `cap`, is a fault (`none`). The input is what
is left of a string up to its terminating zero; `size_t` sums are taken modulo `2 ^ 64`.

* `norm_refines`: there is no fault, and the function does what `vfsPathNorm` does on lists of
  components. The text in the buffer is the list's (`Holds`), and as the output grows by no more than
  the input shrinks, the sum that is compared with `cap` does not wrap.
* **`path_norm_correct`**: what the function writes is the canonical path, and normalizing that gives it
  back.
* **`path_norm_rejects`**: the length is checked on the text so far. So a path is refused as documented,
  by its longest component and its result, exactly when no part of it is longer than the buffer
  without the result being so.
-/

namespace Hallucinate.Vfs

open Lib Gfs List

/-! ## The buffer -/

/-- `out[i]`. -/
def readOut (out : Bytes) (i : Int) : Option UInt8 := if i < 0 then none else some (out i.toNat)

/-- Bytes written from `out[i]` on. -/
def writeOut (cap : Nat) (out : Bytes) (i : Int) (src : List UInt8) : Option Bytes :=
  if src ≠ [] ∧ (i < 0 ∨ (cap : Int) < i + src.length) then none else some (copyIn out i.toNat src)

/-- `while (olen > 1 && out[olen - 1] != '/') olen--`. -/
def popLoop (out : Bytes) : Nat → Option Nat
  | 0 => some 0
  | olen + 1 =>
    if 1 < olen + 1 then do
      let b ← readOut out ((olen + 1 : Nat) - 1)
      if b ≠ 47 then popLoop out olen else some (olen + 1)
    else some (olen + 1)

/-- One component in the loop of `vfs_path_norm`. -/
def normComp (cap : Nat) (comp : List UInt8) (out : Bytes) (olen : Nat) :
    Option (Except Errno (Bytes × Nat)) :=
  if comp = [46] then some (.ok (out, olen))
  else if comp = [46, 46] then do
    let olen ← popLoop out olen
    some (.ok (out, if 1 < olen then olen - 1 else olen))
  else if 255 < comp.length then some (.error .enametoolong)
  else
    let sep : Nat := if 1 < olen then 1 else 0
    if cap < (olen + sep + comp.length + 1) % 2 ^ 64 then some (.error .enametoolong)
    else do
      let out ← if sep ≠ 0 then writeOut cap out olen [47] else some out
      let olen : Nat := (olen + sep) % 2 ^ 64
      let out ← writeOut cap out olen comp
      some (.ok (out, (olen + comp.length) % 2 ^ 64))

/-- The loop of `vfs_path_norm`. -/
def normLoop (cap : Nat) (p : List UInt8) (out : Bytes) (olen : Nat) : Option (Except Errno Bytes) :=
  match hp : p.dropWhile (· = 47) with
  | [] => (writeOut cap out olen [0]).map .ok
  | b :: p' =>
    match normComp cap ((b :: p').takeWhile (· ≠ 47)) out olen with
    | none => none
    | some (.error e) => some (.error e)
    | some (.ok (out, olen)) => normLoop cap ((b :: p').dropWhile (· ≠ 47)) out olen
termination_by p.length
decreasing_by
  obtain ⟨hb, hlt⟩ := skip_slashes hp
  have hle := (dropWhile_suffix (· ≠ (47 : UInt8)) (l := p')).length_le
  rw [dropWhile_cons_of_pos (by simpa using hb)]
  omega

/-- `vfs_path_norm`, with `out` as it is afterwards. -/
def vfsPathNormBuf (path : Option CStr) (cap : Nat) (out : Bytes) : Option (Except Errno Bytes) :=
  match path with
  | none => some (.error .einval)
  | some path =>
    if path.bytes = [] then some (.error .einval)
    else if cap < 2 then some (.error .enametoolong)
    else do
      let out ← writeOut cap out 0 [47]
      normLoop cap path.bytes out 1

/-! ## The text in the buffer -/

/-- The first bytes of the buffer. -/
def Holds (out : Bytes) (text : List UInt8) : Prop := slice out 0 text.length = text

/-- The string in the buffer. -/
def HoldsStr (out : Bytes) (text : List UInt8) : Prop := Holds out text ∧ out text.length = 0

variable {out out' : Bytes} {text text' comp : List UInt8} {cap K : Nat}

theorem Holds.append_iff : Holds out (text ++ text') ↔
    Holds out text ∧ slice out text.length text'.length = text' := by
  unfold Holds
  rw [length_append, slice_add, Nat.zero_add]
  constructor
  · exact fun h => append_inj h (slice_length ..)
  · rintro ⟨h1, h2⟩
    rw [h1, h2]

theorem Holds.take (h : Holds out text) (n : Nat) : Holds out (text.take n) := by
  rw [← take_append_drop n text] at h
  exact (Holds.append_iff.mp h).1

/-- Writing behind the text. -/
theorem Holds.write (h : Holds out text) (src : List UInt8) :
    Holds (copyIn out text.length src) (text ++ src) := by
  refine Holds.append_iff.mpr ⟨?_, slice_copyIn ..⟩
  exact (slice_copyIn_of_disjoint (.inl (by omega))).trans h

theorem writeOut_eq {i : Nat} {src : List UInt8} (h : i + src.length ≤ cap) :
    writeOut cap out i src = some (copyIn out i src) := by
  refine if_neg ?_
  rintro ⟨-, hlt | hlt⟩ <;> omega

theorem readOut_last {b : UInt8} (h : Holds out (text ++ [b])) :
    readOut out ((text.length + 1 : Nat) - 1) = some b := by
  obtain ⟨-, hlast⟩ := Holds.append_iff.mp h
  have hb : out text.length = b := by
    have hhead := congrArg List.head? hlast
    exact Option.some.inj hhead
  rw [readOut, if_neg (by omega)]
  have hidx : ((text.length + 1 : Nat) - 1 : Int).toNat = text.length := by omega
  rw [hidx, hb]

/-- The loop of `..` stops behind the last slash. -/
theorem popLoop_eq (a : UInt8) (text : List UInt8) (h : Holds out (a :: text)) :
    popLoop out (a :: text).length = some ((text.rdropWhile (· ≠ 47)).length + 1) := by
  induction text using List.reverseRecOn with
  | nil => rfl
  | append_singleton text b ih =>
    have hlen : (a :: (text ++ [b])).length = (a :: text).length + 1 := by simp
    have h : Holds out ((a :: text) ++ [b]) := h
    have hread := readOut_last h
    have hrest := (Holds.append_iff.mp h).1
    rw [hlen, popLoop, if_pos (by simp), hread, Option.bind_eq_bind, Option.bind_some]
    by_cases hb : b = 47
    · subst hb
      rw [if_neg (by decide), rdropWhile_concat_neg _ _ _ (by decide)]
      simp
    · rw [if_pos hb, ih hrest, rdropWhile_concat_pos _ _ b (by simpa using hb)]

/-- `..` on the text. -/
theorem popLoop_text (h : Holds out text) : ∃ olen, popLoop out text.length = some olen ∧
    (if 1 < olen then olen - 1 else olen) = (popName text).length ∧ Holds out (popName text) := by
  cases text with
  | nil => exact ⟨0, rfl, rfl, rfl⟩
  | cons a text =>
    have hpre : text.rdropWhile (· ≠ 47) <+: text := rdropWhile_prefix _ _
    refine ⟨_, popLoop_eq a text h, ?_, ?_⟩
    · show _ = (a :: (text.rdropWhile (· ≠ 47)).dropLast).length
      rw [length_cons, length_dropLast]
      split <;> omega
    · have hpop : popName (a :: text) <+: a :: text :=
        prefix_cons_inj a |>.mpr (( dropLast_prefix _).trans hpre)
      rw [prefix_iff_eq_take.mp hpop]
      exact h.take _

/-! ## The loop -/

/-- The buffer and the list agree. -/
def Agrees : Except Errno (Bytes × Nat) → Except Errno (List UInt8) → Prop
  | .ok (out, olen), .ok text => olen = text.length ∧ Holds out text
  | .error e, .error e' => e = e'
  | _, _ => False

/-- Whether a separator is written before the next name. -/
def sepLen (text : List UInt8) : Nat := if 1 < text.length then 1 else 0

/-- One component does the same to the buffer and to the list. -/
theorem normComp_agrees (h : Holds out text) (hcap : text.length < cap)
    (hfit : text.length + sepLen text + comp.length + 1 < 2 ^ 64) :
    ∃ r, normComp cap comp out text.length = some r ∧ Agrees r (normStep cap text comp) := by
  unfold normComp normStep
  by_cases hdot : comp = [46]
  · rw [if_pos hdot, if_pos hdot]
    exact ⟨_, rfl, rfl, h⟩
  rw [if_neg hdot, if_neg hdot]
  by_cases hup : comp = [46, 46]
  · obtain ⟨olen, hpop, hlen, hholds⟩ := popLoop_text h
    rw [if_pos hup, if_pos hup, hpop]
    exact ⟨_, rfl, hlen, hholds⟩
  rw [if_neg hup, if_neg hup]
  by_cases hlong : 255 < comp.length
  · rw [if_pos hlong, if_pos hlong]
    exact ⟨_, rfl, rfl⟩
  rw [if_neg hlong, if_neg hlong]
  by_cases h1 : 1 < text.length
  · rw [sepLen, if_pos h1] at hfit
    simp only [if_pos h1, length_singleton, Nat.mod_eq_of_lt hfit, ne_eq, one_ne_zero,
      not_false_eq_true, if_true]
    by_cases hbig : cap < text.length + 1 + comp.length + 1
    · rw [if_pos hbig, if_pos hbig]
      exact ⟨_, rfl, rfl⟩
    · have hsep : text.length + ([47] : List UInt8).length ≤ cap := by
        rw [length_singleton]
        omega
      have hname : text.length + 1 + comp.length ≤ cap := by omega
      rw [if_neg hbig, if_neg hbig, writeOut_eq hsep, Option.bind_eq_bind, Option.bind_some,
        Nat.mod_eq_of_lt (by omega), writeOut_eq hname, Option.bind_some,
        Nat.mod_eq_of_lt (by omega)]
      refine ⟨_, rfl, ?_, ?_⟩
      · rw [length_append, length_append, length_singleton]
      · have hboth := (h.write [47]).write comp
        rwa [length_append, length_singleton] at hboth
  · rw [sepLen, if_neg h1] at hfit
    simp only [if_neg h1, length_nil, Nat.mod_eq_of_lt hfit, ne_eq, not_true_eq_false, if_false]
    by_cases hbig : cap < text.length + 0 + comp.length + 1
    · rw [if_pos hbig, if_pos hbig]
      exact ⟨_, rfl, rfl⟩
    · have hname : text.length + comp.length ≤ cap := by omega
      rw [if_neg hbig, if_neg hbig, Option.bind_eq_bind, Option.bind_some, Nat.add_zero,
        Nat.mod_eq_of_lt (by omega), writeOut_eq hname, Option.bind_some,
        Nat.mod_eq_of_lt (by omega)]
      refine ⟨_, rfl, ?_, ?_⟩
      · rw [append_nil, length_append]
      · rw [append_nil]
        exact h.write comp

theorem sepLen_le (text : List UInt8) : sepLen text ≤ 1 := by
  unfold sepLen
  split <;> omega

theorem popName_initial (text : List UInt8) : popName text <+: text := by
  cases text with
  | nil => exact nil_prefix
  | cons a text =>
    exact (prefix_cons_inj a).mpr (( dropLast_prefix _).trans ( rdropWhile_prefix _ _))

/-- The text stays within the buffer, and grows by no more than the component and a separator. -/
theorem normStep_length (hs : normStep cap text comp = .ok text') (hcap : text.length < cap) :
    text'.length < cap ∧ text'.length ≤ text.length + sepLen text + comp.length := by
  unfold normStep at hs
  split at hs
  · cases hs
    exact ⟨hcap, by omega⟩
  · split at hs
    · cases hs
      have hpre := (popName_initial text).length_le
      exact ⟨by omega, by omega⟩
    · split at hs
      · cases hs
      · simp only at hs
        have hsep : (if 1 < text.length then [(47 : UInt8)] else []).length = sepLen text := by
          unfold sepLen
          split <;> rfl
        generalize (if 1 < text.length then [(47 : UInt8)] else []) = sep at hs hsep
        split at hs
        · cases hs
        · cases hs
          rw [length_append, length_append]
          exact ⟨by omega, by omega⟩

/-- What the buffer holds at the end. -/
def AgreesEnd (cap K : Nat) : Except Errno Bytes → Except Errno (List UInt8) → Prop
  | .ok out, .ok text => HoldsStr out text ∧ text.length < cap ∧ text.length ≤ K
  | .error e, .error e' => e = e'
  | _, _ => False

/-- **The loop goes through the components.** -/
theorem normLoop_agrees (hK : K + 1 < 2 ^ 64) (p : List UInt8) (h : Holds out text)
    (hcap : text.length < cap) (hk : text.length ≤ K) (hfit : p.dropWhile (· = 47) ≠ [] →
      text.length + sepLen text + (p.dropWhile (· = 47)).length ≤ K) :
    ∃ r, normLoop cap p out text.length = some r ∧
      AgreesEnd cap K r (normWalk cap text (components p)) := by
  induction hlen : p.length using Nat.strongRecOn generalizing p out text with
  | ind len ih =>
    rw [normLoop, ← components_skip p]
    split
    · rename_i hp
      rw [hp, components_nil, normWalk, writeOut_eq (by rw [length_singleton]; omega)]
      refine ⟨_, rfl, ⟨?_, ?_⟩, hcap, hk⟩
      · exact (slice_copyIn_of_disjoint (.inl (by omega))).trans h
      · exact copyIn_of_mem (show 0 < [(0 : UInt8)].length by decide)
    · rename_i b p' hp
      obtain ⟨hb, hle⟩ := skip_slashes hp
      have hlt : ((b :: p').dropWhile (· ≠ 47)).length ≤ p'.length := by
        rw [dropWhile_cons_of_pos (by simpa using hb)]
        exact (dropWhile_suffix _).length_le
      rw [hp] at hfit
      have hfit := hfit (cons_ne_nil b p')
      have hsplit := congrArg List.length (takeWhile_append_dropWhile (p := (· ≠ (47 : UInt8)))
        (l := b :: p'))
      rw [length_append] at hsplit
      rw [hp, components_cons hb, normWalk]
      -- what is left after the component and the slashes behind it
      generalize hcomp : (b :: p').takeWhile (· ≠ 47) = comp at *
      generalize hrest : (b :: p').dropWhile (· ≠ 47) = rest at *
      have hskip : rest.dropWhile (· = 47) ≠ [] → (rest.dropWhile (· = 47)).length + 1 ≤ rest.length := by
        intro hne
        cases rest with
        | nil => exact absurd rfl hne
        | cons c rest =>
          have hc : c = 47 := by
            have hhead := head?_dropWhile_not (· ≠ (47 : UInt8)) (b :: p')
            rw [hrest] at hhead
            simpa using hhead
          rw [dropWhile_cons_of_pos (by simpa using hc), length_cons]
          exact Nat.succ_le_succ (dropWhile_suffix _).length_le
      obtain ⟨r, hr, hagree⟩ := normComp_agrees h hcap (show text.length + sepLen text + comp.length + 1 < 2 ^ 64 by omega)
      rw [hr]
      cases hstep : normStep cap text comp with
      | error e =>
        rw [hstep] at hagree
        cases r with
        | error e' => exact ⟨_, rfl, hagree⟩
        | ok x => exact absurd hagree id
      | ok text' =>
        rw [hstep] at hagree
        cases r with
        | error e' => exact absurd hagree id
        | ok x =>
          obtain ⟨out', olen⟩ := x
          obtain ⟨rfl, hholds⟩ := hagree
          obtain ⟨hcap', hgrow⟩ := normStep_length hstep hcap
          refine ih rest.length (by omega) rest hholds hcap' (by omega) (fun hne => ?_) rfl
          have hskip := hskip hne
          have hsep := sepLen_le text'
          omega

/-- **`vfs_path_norm` on its buffer does what it does on lists**, without a fault. -/
theorem norm_refines (path : CStr) (cap : Nat) (out : Bytes)
    (hK : path.bytes.length + 1 < K ∨ path.bytes.head? = some 47 ∧ path.bytes.length < K)
    (hlt : K < 2 ^ 64) :
    ∃ r, vfsPathNormBuf (some path) cap out = some r ∧
      AgreesEnd cap (K - 1) r (vfsPathNorm (some path) cap) := by
  unfold vfsPathNormBuf vfsPathNorm
  simp only
  by_cases hnil : path.bytes = []
  · rw [if_pos hnil, if_pos hnil]
    exact ⟨_, rfl, rfl⟩
  have hpos := length_pos_iff.mpr hnil
  rw [if_neg hnil, if_neg hnil]
  by_cases hcap : cap < 2
  · rw [if_pos hcap, if_pos hcap]
    exact ⟨_, rfl, rfl⟩
  have hfirst : writeOut cap out 0 [47] = some (copyIn out 0 [47]) :=
    writeOut_eq (i := 0) (by rw [length_singleton]; omega)
  rw [if_neg hcap, if_neg hcap, hfirst, Option.bind_eq_bind, Option.bind_some]
  refine normLoop_agrees (K := K - 1) (by omega) path.bytes (slice_copyIn out 0 [47])
    (by rw [length_singleton]; omega) (by rw [length_singleton]; omega) fun hne => ?_
  have hle := (dropWhile_suffix (· = (47 : UInt8)) (l := path.bytes)).length_le
  show 1 + 0 + _ ≤ K - 1
  rcases hK with hK | ⟨hhead, hK⟩
  · omega
  · cases hb : path.bytes with
    | nil => exact absurd hb hnil
    | cons b bytes =>
      rw [hb] at hhead hK
      obtain rfl : b = 47 := Option.some.inj hhead
      have hle' := (dropWhile_suffix (· = (47 : UInt8)) (l := bytes)).length_le
      rw [dropWhile_cons_of_pos (by decide)]
      rw [length_cons] at hK
      omega

/-! ## The canonical path -/

/-- A slash-separated component over a stack of names: empty ones and `.` are ignored, `..` pops. -/
def foldName (names : List (List UInt8)) (comp : List UInt8) : List (List UInt8) :=
  if comp = [] ∨ comp = [46] then names
  else if comp = [46, 46] then names.tail
  else comp :: names

/-- The canonical path of components: a slash, and the names left on the stack joined by slashes. -/
def canonicalOf (comps : List (List UInt8)) : List UInt8 :=
  47 :: [47].intercalate (comps.foldl foldName []).reverse

/-- The canonical path. -/
def canonical (path : List UInt8) : List UInt8 := canonicalOf (path.splitOn 47)

variable {names comps : List (List UInt8)}

theorem intercalate_concat {α : Type} (sep x : List α) {l : List (List α)} (hl : l ≠ []) :
    sep.intercalate (l ++ [x]) = sep.intercalate l ++ sep ++ x := by
  induction l with
  | nil => exact absurd rfl hl
  | cons a l ih =>
    cases l with
    | nil => rw [singleton_append, intercalate_cons_cons, intercalate_singleton,
        intercalate_singleton]
    | cons a' l =>
      have ih := ih (cons_ne_nil a' l)
      rw [cons_append] at ih
      rw [cons_append, cons_append, intercalate_cons_cons, ih,
        intercalate_cons_cons]
      simp only [append_assoc]

theorem joined_eq_intercalate (names : List (List UInt8)) :
    joined names = 47 :: [47].intercalate names.reverse := by
  induction names with
  | nil => rfl
  | cons name names ih =>
    by_cases hn : names = []
    · subst hn
      rw [reverse_singleton, intercalate_singleton]
      rfl
    · have hrev : names.reverse ≠ [] := fun hnil => hn (reverse_eq_nil_iff.mp hnil)
      rw [joined_cons hn, ih, reverse_cons, intercalate_concat _ _ hrev]
      simp only [cons_append, append_assoc, nil_append]

/-- Empty components do not count. -/
theorem foldl_foldName (comps names : List (List UInt8)) :
    comps.foldl foldName names = (comps.filter (· ≠ [])).foldl stackStep names := by
  rw [foldl_filter]
  congr 1
  funext names comp
  by_cases hnil : comp = []
  · simp [foldName, hnil]
  · simp [foldName, stackStep, hnil]

theorem canonicalOf_eq (comps : List (List UInt8)) :
    canonicalOf comps = joined ((comps.filter (· ≠ [])).foldl stackStep []) := by
  rw [joined_eq_intercalate, ← foldl_foldName]
  rfl

theorem canonical_eq (path : List UInt8) :
    canonical path = joined ((components path).foldl stackStep []) :=
  canonicalOf_eq _

/-- A component that is put on the stack. -/
def Pushed (comp : List UInt8) : Prop := comp ≠ [46] ∧ comp ≠ [46, 46]

variable {e : Errno}

theorem normStep_error (h : ∀ n ∈ names, NameLike n)
    (hs : normStep cap (joined names) comp = .error e) :
    e = .enametoolong ∧ Pushed comp ∧ (255 < comp.length ∨ cap ≤ (joined (comp :: names)).length) := by
  unfold normStep at hs
  split at hs
  · cases hs
  · rename_i hdot
    split at hs
    · cases hs
    · rename_i hup
      split at hs
      · rename_i hlong
        cases hs
        exact ⟨rfl, ⟨hdot, hup⟩, .inl hlong⟩
      · simp only at hs
        have hpush := congrArg List.length (joined_push h comp)
        generalize (if 1 < (joined names).length then [(47 : UInt8)] else []) = sep at hs hpush
        rw [length_append, length_append] at hpush
        split at hs
        · rename_i hbig
          cases hs
          exact ⟨rfl, ⟨hdot, hup⟩, .inr (by omega)⟩
        · cases hs

/-- **A path is refused** for a name that is too long, or for a beginning that does not fit. -/
theorem normWalk_error_iff (h : ∀ n ∈ names, NameLike n) (hc : ∀ n ∈ comps, NameLike n)
    (hcap : (joined names).length < cap) :
    normWalk cap (joined names) comps = .error e ↔ e = .enametoolong ∧
      ((∃ comp ∈ comps, Pushed comp ∧ 255 < comp.length) ∨
        ∃ pre, pre <+: comps ∧ cap ≤ (joined (pre.foldl stackStep names)).length) := by
  induction comps generalizing names with
  | nil =>
    constructor
    · intro herr
      cases herr
    rintro ⟨-, ⟨comp, hin, -⟩ | ⟨pre, hpre, hbig⟩⟩
    · cases hin
    · rw [prefix_nil.mp hpre] at hbig
      exact absurd hcap (Nat.not_lt.mpr hbig)
  | cons comp comps ih =>
    rw [normWalk]
    cases hs : normStep cap (joined names) comp with
    | error e' =>
      obtain ⟨rfl, hpushed, hwhy⟩ := normStep_error h hs
      show Except.error _ = _ ↔ _
      rw [Except.error.injEq]
      refine ⟨fun he => ⟨he.symm, ?_⟩, fun he => he.1.symm⟩
      rcases hwhy with hlong | hbig
      · exact .inl ⟨comp, mem_cons_self, hpushed, hlong⟩
      · refine .inr ⟨[comp], (prefix_cons_inj comp).mpr nil_prefix, ?_⟩
        have hst : stackStep names comp = comp :: names := by
          rw [stackStep, if_neg hpushed.1, if_neg hpushed.2]
        rw [foldl_cons, foldl_nil, hst]
        exact hbig
    | ok out =>
      obtain ⟨rfl, hshort⟩ := normStep_joined h hs
      obtain ⟨hcap', -⟩ := normStep_length hs hcap
      show normWalk cap _ comps = _ ↔ _
      rw [ih (nameLike_stackStep h (hc comp mem_cons_self))
        (fun n hn => hc n (mem_cons_of_mem comp hn)) hcap']
      refine and_congr_right fun _ => or_congr ?_ ?_
      · constructor
        · rintro ⟨comp', hin, hlong⟩
          exact ⟨comp', mem_cons_of_mem comp hin, hlong⟩
        rintro ⟨comp', hin, hpushed, hlong⟩
        rcases mem_cons.mp hin with rfl | hin
        · exact absurd hlong (Nat.not_lt.mpr (hshort hpushed.1 hpushed.2))
        · exact ⟨comp', hin, hpushed, hlong⟩
      · constructor
        · rintro ⟨pre, hpre, hbig⟩
          exact ⟨comp :: pre, (prefix_cons_inj comp).mpr hpre, hbig⟩
        rintro ⟨pre, hpre, hbig⟩
        rcases prefix_cons_iff.mp hpre with rfl | ⟨pre', rfl, hpre'⟩
        · exact absurd hcap (Nat.not_lt.mpr hbig)
        · exact ⟨pre', hpre', hbig⟩

/-! ## Normalizing twice -/

/-- What is on the stack was pushed, and is not too long. -/
theorem pushed_foldl (h : ∀ n ∈ names, Pushed n ∧ n.length ≤ 255)
    (hc : ∀ n ∈ comps, Pushed n → n.length ≤ 255) :
    ∀ n ∈ comps.foldl stackStep names, Pushed n ∧ n.length ≤ 255 := by
  induction comps generalizing names with
  | nil => exact h
  | cons comp comps ih =>
    refine ih (fun n hn => ?_) fun n hn => hc n (mem_cons_of_mem comp hn)
    unfold stackStep at hn
    split at hn
    · exact h n hn
    · rename_i hdot
      split at hn
      · exact h n (mem_of_mem_tail hn)
      · rename_i hup
        rcases mem_cons.mp hn with rfl | hn
        · exact ⟨⟨hdot, hup⟩, hc n mem_cons_self ⟨hdot, hup⟩⟩
        · exact h n hn

/-- Names that are pushed one after the other. -/
theorem foldl_pushed (h : ∀ n ∈ comps, Pushed n) (names : List (List UInt8)) :
    comps.foldl stackStep names = comps.reverse ++ names := by
  induction comps generalizing names with
  | nil => rfl
  | cons comp comps ih =>
    obtain ⟨hdot, hup⟩ := h comp mem_cons_self
    rw [foldl_cons, stackStep, if_neg hdot, if_neg hup,
      ih fun n hn => h n (mem_cons_of_mem comp hn), reverse_cons, append_assoc]
    rfl

/-- A path below another one is longer. -/
theorem length_joined_append (names' names : List (List UInt8)) :
    (joined names).length ≤ (joined (names' ++ names)).length := by
  induction names' with
  | nil => exact Nat.le_refl _
  | cons name names' ih =>
    refine ih.trans ?_
    rw [cons_append]
    by_cases hn : names' ++ names = []
    · rw [hn]
      exact Nat.succ_le_succ (Nat.zero_le _)
    · rw [joined_cons hn, length_append]
      exact Nat.le_add_right _ _

/-- **A canonical path is its own canonical path.** -/
theorem normWalk_joined (h : ∀ n ∈ names, NameLike n) (hp : ∀ n ∈ names, Pushed n ∧ n.length ≤ 255)
    (hcap : (joined names).length < cap) :
    normWalk cap (joined []) (components (joined names)) = .ok (joined names) := by
  rw [components_joined h]
  have hnames : ∀ n ∈ names.reverse, NameLike n := fun n hn => h n (mem_reverse.mp hn)
  have hpushed : ∀ n ∈ names.reverse, Pushed n := fun n hn => (hp n (mem_reverse.mp hn)).1
  have hroot : (joined []).length < cap := by
    have hle := length_joined_append names []
    rw [append_nil] at hle
    omega
  cases hw : normWalk cap (joined []) names.reverse with
  | ok out =>
    rw [normWalk_ok nameLike_nil hnames hw, foldl_pushed hpushed, reverse_reverse, append_nil]
  | error e =>
    obtain ⟨-, ⟨comp, hin, -, hlong⟩ | ⟨pre, ⟨post, hpost⟩, hbig⟩⟩ :=
      (normWalk_error_iff nameLike_nil hnames hroot).mp hw
    · exact absurd (hp comp (mem_reverse.mp hin)).2 (Nat.not_le.mpr hlong)
    · -- the beginnings of a canonical path are shorter
      have hpre : ∀ n ∈ pre, Pushed n := fun n hn =>
        hpushed n (hpost ▸ mem_append_left _ hn)
      have hle := length_joined_append post.reverse pre.reverse
      rw [← reverse_append, hpost, reverse_reverse] at hle
      rw [foldl_pushed hpre, append_nil] at hbig
      omega

/-! ## The results -/

/-- An accepted path is canonical afterwards, and its own canonical path. -/
theorem norm_ok_canonical {path : CStr} (hok : vfsPathNorm (some path) cap = .ok text)
    (hfit : text.length < cap) : text = canonical path.bytes ∧
      ∃ hz : 0 ∉ canonical path.bytes,
        vfsPathNorm (some ⟨canonical path.bytes, hz⟩) cap = .ok (canonical path.bytes) := by
  obtain ⟨hne, hcap, hwalk⟩ := norm_ok hok
  have hcomps : ∀ n ∈ components path.bytes, NameLike n := fun n hn => components_nameLike path hn
  have htext := normWalk_ok nameLike_nil hcomps hwalk
  have hnames := nameLike_foldl nameLike_nil hcomps
  have hroot : (joined []).length < cap := hcap
  have hpushed : ∀ n ∈ (components path.bytes).foldl stackStep [], Pushed n ∧ n.length ≤ 255 := by
    refine pushed_foldl nofun fun n hn hp => Nat.le_of_not_lt fun hlong => ?_
    have herr := (normWalk_error_iff nameLike_nil hcomps hroot).mpr ⟨rfl, .inl ⟨n, hn, hp, hlong⟩⟩
    rw [hwalk] at herr
    cases herr
  rw [canonical_eq]
  refine ⟨htext, noNul_joined hnames, ?_⟩
  obtain ⟨rest, hrest⟩ := joined_eq ((components path.bytes).foldl stackStep [])
  have hsome : joined ((components path.bytes).foldl stackStep []) ≠ [] := by
    rw [hrest]
    exact cons_ne_nil _ _
  rw [norm_eq hsome hcap]
  exact normWalk_joined hnames hpushed (htext ▸ hfit)

/-- **`vfs_path_norm` writes the canonical path** and stays inside of `out`; normalizing again gives
the same. -/
theorem path_norm_correct (path : CStr) (cap : Nat) (out : Bytes)
    (hlen : path.bytes.length + 2 < 2 ^ 64) :
    ∃ r, vfsPathNormBuf (some path) cap out = some r ∧ ∀ out', r = .ok out' →
      HoldsStr out' (canonical path.bytes) ∧ (canonical path.bytes).length < cap ∧
      ∃ hz : 0 ∉ canonical path.bytes, ∀ out₁, ∃ out₂,
        vfsPathNormBuf (some ⟨canonical path.bytes, hz⟩) cap out₁ = some (.ok out₂) ∧
          HoldsStr out₂ (canonical path.bytes) := by
  obtain ⟨r, hr, hagree⟩ := norm_refines path cap out (K := path.bytes.length + 2) (.inl (by omega)) hlen
  refine ⟨r, hr, ?_⟩
  rintro out' rfl
  cases hn : vfsPathNorm (some path) cap with
  | error e =>
    rw [hn] at hagree
    exact absurd hagree id
  | ok text =>
    rw [hn] at hagree
    obtain ⟨hreads, hcap, hk⟩ := hagree
    obtain ⟨rfl, hz, hagain⟩ := norm_ok_canonical hn hcap
    refine ⟨hreads, hcap, hz, fun out₁ => ?_⟩
    obtain ⟨r, hr, hagree⟩ := norm_refines ⟨canonical path.bytes, hz⟩ cap out₁
      (K := path.bytes.length + 2) (.inr ⟨rfl, by show (canonical path.bytes).length < _; omega⟩) hlen
    rw [hagain] at hagree
    cases r with
    | error e => exact absurd hagree id
    | ok out₂ => exact ⟨out₂, hr, hagree.1⟩

/-- `a/./b//../c` in eight bytes. -/
theorem path_norm_correct_example :
    ∃ r, vfsPathNormBuf (some ⟨[97, 47, 46, 47, 98, 47, 47, 46, 46, 47, 99], by decide⟩) 8 (fun _ => 0) =
      some r ∧ ∀ out', r = .ok out' → HoldsStr out' [47, 97, 47, 99] := by
  obtain ⟨r, hr, hok⟩ := path_norm_correct ⟨[97, 47, 46, 47, 98, 47, 47, 46, 46, 47, 99], by decide⟩ 8
    (fun _ => 0) (by decide)
  exact ⟨r, hr, fun out' hr' => (hok out' hr').1⟩

/-! ## What is refused -/

/-- A component that is neither `.` nor `..` and too long. -/
def LongName (path : List UInt8) : Prop :=
  ∃ comp ∈ path.splitOn 47, comp ≠ [46] ∧ comp ≠ [46, 46] ∧ 255 < comp.length

/-- Some of the first components have a canonical path that does not fit. -/
def LongPart (path : List UInt8) (cap : Nat) : Prop :=
  ∃ pre, pre <+: path.splitOn 47 ∧ cap - 1 < (canonicalOf pre).length

theorem longName_iff (path : List UInt8) :
    LongName path ↔ ∃ comp ∈ components path, Pushed comp ∧ 255 < comp.length := by
  refine exists_congr fun comp => ?_
  unfold components
  rw [mem_filter]
  constructor
  · rintro ⟨hin, hdot, hup, hlong⟩
    refine ⟨⟨hin, ?_⟩, ⟨hdot, hup⟩, hlong⟩
    have hne : comp ≠ [] := ne_nil_of_length_pos (by omega)
    simpa using hne
  · rintro ⟨⟨hin, -⟩, ⟨hdot, hup⟩, hlong⟩
    exact ⟨hin, hdot, hup, hlong⟩

theorem longPart_iff (path : List UInt8) {cap : Nat} (hcap : 2 ≤ cap) : LongPart path cap ↔
    ∃ pre, pre <+: components path ∧ cap ≤ (joined (pre.foldl stackStep [])).length := by
  constructor
  · rintro ⟨pre, hpre, hbig⟩
    rw [canonicalOf_eq] at hbig
    exact ⟨_, hpre.filter _, by omega⟩
  · rintro ⟨pre, hpre, hbig⟩
    obtain ⟨pre', hpre', rfl⟩ := prefix_filter_iff.mp hpre
    refine ⟨pre', hpre', ?_⟩
    rw [canonicalOf_eq]
    omega

/-- A result that does not fit is a part that does not. -/
theorem longPart_of_result {path : List UInt8} (h : cap - 1 < (canonical path).length) :
    LongPart path cap :=
  ⟨_, prefix_refl _, h⟩

/-- **What `vfs_path_norm` refuses** is what it documents exactly when a part of the path fits whenever
the result does. -/
theorem path_norm_rejects (path : CStr) (hne : path.bytes ≠ []) (cap : Nat) (hcap : 2 ≤ cap)
    (out : Bytes) (hlen : path.bytes.length + 2 < 2 ^ 64) :
    (vfsPathNormBuf (some path) cap out = some (.error .enametoolong) ↔
        LongName path.bytes ∨ cap - 1 < (canonical path.bytes).length) ↔
      (LongPart path.bytes cap → LongName path.bytes ∨ cap - 1 < (canonical path.bytes).length) := by
  have hcomps : ∀ n ∈ components path.bytes, NameLike n := fun n hn => components_nameLike path hn
  have hroot : (joined []).length < cap := hcap
  have hrefused : vfsPathNormBuf (some path) cap out = some (.error .enametoolong) ↔
      LongName path.bytes ∨ LongPart path.bytes cap := by
    obtain ⟨r, hr, hagree⟩ := norm_refines path cap out (K := path.bytes.length + 2) (.inl (by omega)) hlen
    have hwalk : r = .error .enametoolong ↔
        normWalk cap (joined []) (components path.bytes) = .error .enametoolong := by
      rw [norm_eq hne hcap] at hagree
      cases hw : normWalk cap (joined []) (components path.bytes) with
      | error e =>
        rw [hw] at hagree
        cases r with
        | error e' => rw [show e' = e from hagree, Except.error.injEq, Except.error.injEq]
        | ok out' => exact absurd hagree id
      | ok text =>
        rw [hw] at hagree
        cases r with
        | error e' => exact absurd hagree id
        | ok out' => exact ⟨nofun, nofun⟩
    rw [hr, Option.some.injEq, hwalk, normWalk_error_iff nameLike_nil hcomps hroot, longName_iff,
      longPart_iff _ hcap, eq_self, true_and]
  rw [hrefused]
  constructor
  · exact fun hiff hpart => hiff.mp (.inr hpart)
  · refine fun himp => ⟨fun hwhy => hwhy.elim .inl himp, fun hwhy => hwhy.imp_right longPart_of_result⟩

/-- `/a` in two bytes. -/
theorem path_norm_rejects_example :
    vfsPathNormBuf (some ⟨[47, 97], by decide⟩) 2 (fun _ => 0) = some (.error .enametoolong) :=
  ((path_norm_rejects ⟨[47, 97], by decide⟩ (by decide) 2 (by decide) (fun _ => 0) (by decide)).mpr
    fun _ => .inr (by decide)).mpr (.inr (by decide))

/-- `/a/..` is `/`, and is refused in two bytes. -/
theorem long_part_refused :
    vfsPathNormBuf (some ⟨[47, 97, 47, 46, 46], by decide⟩) 2 (fun _ => 0) =
      some (.error .enametoolong) ∧
    canonical [47, 97, 47, 46, 46] = [47] ∧ ¬ LongName [47, 97, 47, 46, 46] := by
  refine ⟨?_, by decide, ?_⟩
  · obtain ⟨r, hr, hagree⟩ := norm_refines ⟨[47, 97, 47, 46, 46], by decide⟩ 2 (fun _ => 0) (K := 7)
      (.inl (by decide)) (by decide)
    have herr : vfsPathNorm (some ⟨[47, 97, 47, 46, 46], by decide⟩) 2 = .error .enametoolong := by
      decide
    rw [herr] at hagree
    cases r with
    | error e => rw [hr, show e = .enametoolong from hagree]
    | ok out => exact absurd hagree id
  · rintro ⟨comp, hin, -, -, hlong⟩
    have hsplit : ([47, 97, 47, 46, 46] : List UInt8).splitOn 47 = [[], [97], [46, 46]] := by decide
    rw [hsplit] at hin
    have hshort : ∀ comp ∈ ([[], [97], [46, 46]] : List (List UInt8)), comp.length ≤ 2 := by decide
    have hle := hshort comp hin
    omega

end Hallucinate.Vfs
