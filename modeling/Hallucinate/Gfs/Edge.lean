import Hallucinate.Gfs.Handle

/-!
# Edge chains (`edge_add`, `edge_remove_name`, `edge_chain_free`, `edge_lookup`)

The outgoing edges of a node are a chain of edge blocks, 14 records to the block. `edge_add` puts
an edge into the first block, or into a fresh one in front of it. `edge_remove_name` rebuilds the
chain: it reads the old blocks into `a`, fills `b` with the records it keeps, and writes `b` out
each time it is full, linked to the block written before.
-/

namespace Hallucinate.Gfs

open Lib

/-- `edge_add` into the first block, whose contents `a` have room. -/
def edgeAddRoom (node : DiskNode) (e : Edge) (a : Bytes) : GfsM DiskNode := do
  setBuf .a (wr (edgeEncode a (ebCount a) e) ebCountOff 4 (ebCount a + 1))
  let phys ← allocBlock
  let bp ← writeMeta phys .a
  freeBlock node.edgeHead.phys
  pure { node with edgeHead := bp, edgeCount := (node.edgeCount + 1) % 2 ^ 32 }

/-- `edge_add` into a block of its own, in front of the chain. -/
def edgeAddFront (node : DiskNode) (e : Edge) : GfsM DiskNode := do
  setBuf .a (edgeEncode (ebSetHeader ebFresh 1 node.edgeHead) 0 e)
  let phys ← allocBlock
  let bp ← writeMeta phys .a
  pure { node with edgeHead := bp, edgeCount := (node.edgeCount + 1) % 2 ^ 32 }

/-- `edge_add`: the node with the edge added to its chain. -/
def edgeAdd (node : DiskNode) (e : Edge) : GfsM DiskNode :=
  if node.edgeHead.phys = 0 then edgeAddFront node e
  else do
    readMeta node.edgeHead .a
    let a ← getBuf .a
    if ebCount a < 14 then edgeAddRoom node e a else edgeAddFront node e

/-- The locals of `edge_remove_name` that change in its loops. -/
structure RemoveSt where
  outPrev : Bp
  outCount : Nat
  total : Nat
  removed : Option Nat

/-- Write the full or last output block, linked to the one before it. -/
def flushEdges (st : RemoveSt) : GfsM Bp := do
  let b ← getBuf .b
  setBuf .b (ebSetHeader b st.outCount st.outPrev)
  let phys ← allocBlock
  writeMeta phys .b

/-- Make room in `b`: a full output block is written. -/
def flushFull (st : RemoveSt) : GfsM RemoveSt :=
  if st.outCount = 14 then do
    let bp ← flushEdges st
    setBuf .b ebFresh
    pure { st with outPrev := bp, outCount := 0 }
  else pure st

/-- One record of the block in `a`: dropped if it is the first to match, else copied to `b`. -/
def removeRecord (name : List UInt8) (st : RemoveSt) (k : Nat) : GfsM RemoveSt := do
  let a ← getBuf .a
  if st.removed = none ∧ edgeMatches a k name = true then
    pure { st with removed := some (edgeAt a k).target }
  else do
    let st ← flushFull st
    let b ← getBuf .b
    setBuf .b (copyIn b (ebRecord st.outCount) (slice a (ebRecord k) 272))
    pure { st with outCount := st.outCount + 1, total := (st.total + 1) % 2 ^ 32 }

/-- The loop over the old chain. -/
def removeWalk (name : List UInt8) : Nat → Bp → RemoveSt → GfsM RemoveSt
  | fuel, cur, st =>
    if cur.phys = 0 then pure st
    else match fuel with
      | 0 => diverge
      | fuel + 1 => do
        readMeta cur .a
        let a ← getBuf .a
        let st ← Prog.foldP (removeRecord name) st (List.range (ebCount a))
        freeBlock cur.phys
        removeWalk name fuel (ebNext a) st

/-- `edge_remove_name`: the node without the edge, and the edge's target. -/
def edgeRemoveName (node : DiskNode) (name : List UInt8) : GfsM (DiskNode × Nat) := do
  let fs ← getCore
  setBuf .b ebFresh
  let st ← removeWalk name fs.totalBlocks node.edgeHead ⟨⟨0, 0⟩, 0, 0, none⟩
  match st.removed with
  | none => fail .enoent
  | some target => do
    let newHead ← (if 0 < st.outCount then flushEdges st else pure st.outPrev)
    pure ({ node with edgeHead := newHead, edgeCount := st.total }, target)

/-- The loop of `edge_chain_free`. -/
def chainFreeWalk : Nat → Bp → GfsM Unit
  | fuel, head =>
    if head.phys = 0 then pure ()
    else match fuel with
      | 0 => diverge
      | fuel + 1 => do
        readMeta head .a
        let a ← getBuf .a
        freeBlock head.phys
        chainFreeWalk fuel (ebNext a)

/-- `edge_chain_free`. -/
def edgeChainFree (head : Bp) : GfsM Unit := do
  let fs ← getCore
  chainFreeWalk fs.totalBlocks head

/-- The loop of `edge_lookup`. -/
def lookupWalk (name : List UInt8) : Nat → Bp → GfsM Nat
  | fuel, cur =>
    if cur.phys = 0 then fail .enoent
    else match fuel with
      | 0 => diverge
      | fuel + 1 => do
        readMeta cur .a
        let a ← getBuf .a
        match (List.range (ebCount a)).find? fun k => edgeMatches a k name with
        | some k => pure (edgeAt a k).target
        | none => lookupWalk name fuel (ebNext a)

/-- `edge_lookup`. -/
def edgeLookup (dir : DiskNode) (name : List UInt8) : GfsM Nat := do
  let fs ← getCore
  lookupWalk name fs.totalBlocks dir.edgeHead

end Hallucinate.Gfs
