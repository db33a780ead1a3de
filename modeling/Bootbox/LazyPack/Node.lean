import Bootbox.LazyPack.SyncRange
import Bootbox.Lib.FlatFile
import Bootbox.Lib.OrderedMap
import Mathlib.Data.UInt

/-!
The file node `makeLazy` of `lazypack.js` installs: a window of the pack whose
reads fetch chunks on demand into a bounded cache of clean chunks, and whose
writes go to private copies that are never evicted.

The position in the server's answers is part of the state, so every operation
is a function of the node and the answers, and any pattern of failing fetches is
one choice of `Net`.
-/

namespace Bootbox.LazyPack

open Lib OrderedMap

def CHUNK : ℕ := 1 <<< 20

/-- The number of clean chunks kept when the caller names none. -/
def CACHE_CHUNKS : ℕ := 32

/-- A pack and the window of it that a lazy file shows. The chunk size is `CHUNK`
in the program; nothing below depends on more than its being positive. -/
structure Placement where
  pack : List UInt8
  base : ℕ
  size : ℕ
  cacheChunks : ℕ
  chunkBytes : ℕ := CHUNK
  inPack : base + size ≤ pack.length
  chunkBytes_pos : 0 < chunkBytes := by decide

/-- `cacheChunks || CACHE_CHUNKS`. -/
def Placement.keep (w : Placement) : ℕ :=
  if w.cacheChunks = 0 then CACHE_CHUNKS else w.cacheChunks

/-- The state of a lazy file: what `makeLazy` closes over, the fields of the node
it changes, its read progress, and the number of requests sent. -/
structure Node where
  cache : List (ℕ × List UInt8)
  dirty : List (ℕ × List UInt8)
  packEnd : ℕ
  usedBytes : ℕ
  top : ℕ
  fetched : ℕ
  requests : ℕ

/-- The node as `makeLazy` leaves it. -/
def makeLazy (w : Placement) : Node where
  cache := []
  dirty := []
  packEnd := w.size
  usedBytes := w.size
  top := 0
  fetched := 0
  requests := 0

/-- Keep a fetched chunk, dropping the oldest one when there are too many. -/
def insertClean (w : Placement) (cache : List (ℕ × List UInt8)) (ci : ℕ) (c : List UInt8) :
    List (ℕ × List UInt8) :=
  let cache := set cache ci c
  if w.keep < cache.length then deleteFirst cache else cache

/-- The bytes of chunk `ci`: the private copy, the cached one, zeros past the
pack, or a fetch. -/
def chunk (w : Placement) (net : Net) (node : Node) (ci : ℕ) :
    Except LazyError (List UInt8) × Node :=
  match get node.dirty ci with
  | some c => (.ok c, node)
  | none =>
    match get node.cache ci with
    | some c =>
      (.ok c, { node with cache := set (delete node.cache ci) ci c })
    | none =>
      let s := ci * w.chunkBytes
      let e := min node.packEnd (s + w.chunkBytes)
      if node.packEnd ≤ s then (.ok (List.replicate w.chunkBytes 0), node)
      else
        match syncRange w.pack net (w.base + s) (w.base + e) node.requests with
        | (.error err, n) => (.error err, { node with requests := n })
        | (.ok c, n) =>
          (.ok c,
            { node with
              cache := insertClean w node.cache ci c
              fetched := node.fetched + c.length
              requests := n })

/-- The part of one chunk a read copies: `k` bytes from offset `o`, zeros where
the chunk is short. -/
def copyOut (c : List UInt8) (o k : ℕ) : List UInt8 :=
  let have_ := min k (c.length - o)
  (c.drop o).take have_ ++ List.replicate (k - have_) 0

theorem loop_decreasing (w : Placement) {pos n done : ℕ} (h : done < n) :
    n - (done + min (n - done) (w.chunkBytes - (pos + done) % w.chunkBytes)) < n - done := by
  have := Nat.mod_lt (pos + done) w.chunkBytes_pos
  omega

/-- The loop of `read`. -/
def readLoop (w : Placement) (net : Net) (position n done : ℕ) (node : Node) :
    Except LazyError (List UInt8) × Node :=
  if _h : done < n then
    let p := position + done
    let o := p % w.chunkBytes
    let k := min (n - done) (w.chunkBytes - o)
    match chunk w net node (p / w.chunkBytes) with
    | (.error err, node) => (.error err, node)
    | (.ok c, node) =>
      match readLoop w net position n (done + k) node with
      | (.error err, node) => (.error err, node)
      | (.ok rest, node) => (.ok (copyOut c o k ++ rest), node)
  else (.ok [], node)
termination_by n - done
decreasing_by exact loop_decreasing w ‹_›

/-- `stream_ops.read`, with the bytes it puts in the buffer. -/
def read (w : Placement) (net : Net) (node : Node) (length position : ℕ) :
    Except LazyError (List UInt8) × Node :=
  if node.usedBytes ≤ position then (.ok [], node)
  else
    let n := min length (node.usedBytes - position)
    readLoop w net position n 0 { node with top := max node.top (position + n) }

/-- `dirty.set(ci, c)`. -/
def Node.setDirty (node : Node) (ci : ℕ) (c : List UInt8) : Node :=
  { node with dirty := set node.dirty ci c }

/-- The private copy of chunk `ci`, made from the current bytes if there is none. -/
def privateChunk (w : Placement) (net : Net) (node : Node) (ci : ℕ) :
    Except LazyError (List UInt8) × Node :=
  match get node.dirty ci with
  | some c => (.ok c, node)
  | none =>
    match chunk w net node ci with
    | (.error err, node) => (.error err, node)
    | (.ok c, node) =>
      let c := c.take w.chunkBytes ++ List.replicate (w.chunkBytes - c.length) 0
      (.ok c, { node.setDirty ci c with cache := delete node.cache ci })

/-- `c.set(data, o)`. -/
def setBytes (c : List UInt8) (o : ℕ) (data : List UInt8) : List UInt8 :=
  c.take o ++ data ++ c.drop (o + data.length)

/-- The loop of `write`. -/
def writeLoop (w : Placement) (net : Net) (position : ℕ) (src : List UInt8) (done : ℕ)
    (node : Node) : Except LazyError Unit × Node :=
  if _h : done < src.length then
    let p := position + done
    let ci := p / w.chunkBytes
    let o := p % w.chunkBytes
    let k := min (src.length - done) (w.chunkBytes - o)
    match privateChunk w net node ci with
    | (.error err, node) => (.error err, node)
    | (.ok c, node) =>
      writeLoop w net position src (done + k)
        (node.setDirty ci (setBytes c o ((src.drop done).take k)))
  else (.ok (), node)
termination_by src.length - done
decreasing_by exact loop_decreasing w ‹_›

/-- `stream_ops.write`. -/
def write (w : Placement) (net : Net) (node : Node) (src : List UInt8) (position : ℕ) :
    Except LazyError ℕ × Node :=
  match writeLoop w net position src 0 node with
  | (.error err, node) => (.error err, node)
  | (.ok _, node) =>
    (.ok src.length, { node with usedBytes := max node.usedBytes (position + src.length) })

/-- `stream_ops.allocate`. -/
def allocate (node : Node) (offset length : ℕ) : Node :=
  { node with usedBytes := max node.usedBytes (offset + length) }

/-- `tail.fill(0, o)`. -/
def fillTail (c : List UInt8) (o : ℕ) : List UInt8 :=
  c.take o ++ List.replicate (c.length - o) 0

/-- What `node_ops.setattr` does when the size is reduced to `sz`. -/
def shrink (w : Placement) (node : Node) (sz : ℕ) : Node :=
  let node :=
    if sz < node.packEnd then { node with packEnd := sz, cache := [] } else node
  let dirty := node.dirty.filter fun e => e.1 * w.chunkBytes < sz
  match get dirty (sz / w.chunkBytes) with
  | some tail =>
    { node with dirty := set dirty (sz / w.chunkBytes) (fillTail tail (sz % w.chunkBytes)) }
  | none => { node with dirty := dirty }

/-- `node_ops.setattr` with a size. -/
def setattr (w : Placement) (node : Node) (sz : ℕ) : Node :=
  { (if sz < node.usedBytes then shrink w node sz else node) with usedBytes := sz }

def call (w : Placement) (net : Net) (node : Node) :
    FlatFile.Call UInt8 → FlatFile.Reply UInt8 × Node
  | .read position length =>
    match read w net node length position with
    | (.ok bytes, node) => (.bytes bytes, node)
    | (.error _, node) => (.failed, node)
  | .write position src =>
    match write w net node src position with
    | (.ok n, node) => (.count n, node)
    | (.error _, node) => (.failed, node)
  | .allocate offset length => (.done, allocate node offset length)
  | .truncate size => (.done, setattr w node size)

/-- A sequence of calls, with the replies in order. -/
def run (w : Placement) (net : Net) (node : Node) :
    List (FlatFile.Call UInt8) → List (FlatFile.Reply UInt8) × Node
  | [] => ([], node)
  | c :: cs =>
    let r := call w net node c
    let rs := run w net r.2 cs
    (r.1 :: rs.1, rs.2)

end Bootbox.LazyPack
