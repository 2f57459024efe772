import Hallucinate.Gfs.Progress

/-!
# The space check of `gfs_write`

`gfs_write` compares the clear bits of the working bitmap with the blocks it touches (`writeBlocks`)
and two more, for the node table and the node map. Blocks freed on the way cannot be used again before
the commit, and the two bitmaps are the same when a transaction begins, so the check is exact:

* **`write_space_exact`**: in every consistent state, on a device that works, the call returns
  `GFS_ENOSPC` exactly if that many blocks are not free; otherwise no allocation fails, and the call
  writes everything or finds the file in too many pieces.
-/

namespace Hallucinate.Gfs

open Lib

variable {s : St} {V : View}

/-- The end of a call on a device that works: it committed, or it gave up for a reason in `Why`. -/
theorem Wp.quiet {α : Type} {p : GfsM α} {P : α → St → Prop} {Why : Err → Prop}
    (h : Wp p (outcome P (Abort s.fresh Why)) s.fresh) :
    ∃ r s', call p (fun _ => false) s = some (r, s') ∧
      outcome P (fun e s' => Safe s.fresh s' ∧ Why e) r s' := by
  obtain ⟨r, s', hrun, hpost⟩ := Prog.run_of_wp h fun _ => false
  refine ⟨r, s', hrun, ?_⟩
  cases r with
  | ok a => exact hpost
  | error e =>
    obtain ⟨hsafe, hfail | hwhy⟩ := hpost
    · rw [run_quiet rfl hrun] at hfail
      cases hfail
    · exact ⟨hsafe, hwhy⟩

/-- **The space check is exact.** -/
theorem write_space_exact {id off : Nat} {src : List UInt8} (h : Shows s V)
    (hid : ValidId s.core id) (hdata : (V.recs id).type = nodeData) (hsrc : 0 < src.length)
    (hsize : off + src.length ≤ maxFileSize) :
    ∃ r s', call (gfsWrite id off src) (fun _ => false) s = some (r, s') ∧
      (r = .error .enospc ↔ s.core.freeBlocks < writeBlocks off src.length + 2) ∧
      (writeBlocks off src.length + 2 ≤ s.core.freeBlocks →
        r = .ok src.length ∨ r = .error .efrag) := by
  obtain ⟨tbl, leak, hc⟩ := h
  obtain ⟨R, hlive, -⟩ := hc.fresh.split id
  have hok : FileOk s.core V.recs id (off + src.length) := ⟨hsize, hid, hdata⟩
  obtain ⟨r, s', hrun, hpost⟩ := (wp_writeLive hlive rfl (hc.fresh.view.node id).fits
    (hc.fresh.view.node id).file hsrc fun _ hstop => hstop).quiet
  refine ⟨r, s', hrun, ?_⟩
  have hfree : s.core.freeBlocks = s.fresh.clear := hc.freeBlocks
  rw [hfree]
  cases r with
  | ok n =>
    obtain ⟨rfl, -, hspace, -⟩ := hpost
    refine ⟨⟨nofun, fun hlt => ?_⟩, fun _ => .inl rfl⟩
    omega
  | error e =>
    cases hpost.2 with
    | check hn => exact absurd hok hn
    | space hlt => exact ⟨⟨fun _ => hlt, fun _ => rfl⟩, fun hle => by omega⟩
    | pieces hle _ => exact ⟨⟨nofun, fun hlt => by omega⟩, fun _ => .inr rfl⟩

/-- One byte is written to a new file. -/
theorem write_space_exact_oneByte : ∃ s V, Shows s V ∧ ValidId s.core 2 ∧
    (V.recs 2).type = nodeData ∧
    ∃ r s', call (gfsWrite 2 0 [7]) (fun _ => false) s = some (r, s') ∧
      (r = .error .enospc ↔ s.core.freeBlocks < writeBlocks 0 1 + 2) ∧
      (writeBlocks 0 1 + 2 ≤ s.core.freeBlocks → r = .ok 1 ∨ r = .error .efrag) := by
  obtain ⟨-, s, tbl, V, -, -, -, hst⟩ :=
    exists_firstNode (.inr rfl) (letter_ok (b := 102) (by decide) (by decide))
  have hid : ValidId s.core 2 := hst.validId (by decide) (by decide)
  have hdata : (V.recs 2).type = nodeData := hst.type 2
  exact ⟨s, V, hst.shows, hid, hdata, write_space_exact hst.shows hid hdata (by decide) (by decide)⟩

end Hallucinate.Gfs
