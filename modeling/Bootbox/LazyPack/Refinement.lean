import Bootbox.LazyPack.Node

/-!
A lazy file behaves as a flat array of bytes. The bytes a node stands for are
read off its private chunks and the pack; the clean cache holds nothing but
copies of pack bytes, so it never takes part in what the file contains.

`Rep` is what every step of every loop keeps. `Inv` adds what holds between
calls: the file is zero past its size, and the pack does not reach past it.
-/

namespace Bootbox.LazyPack

open Lib List OrderedMap

variable {c : List UInt8} {ci o : ℕ}

/-- The byte at `i` of the chunks and the pack, wherever the size stands. -/
def Node.raw (w : Placement) (node : Node) (i : ℕ) : UInt8 :=
  match get node.dirty (i / w.chunkBytes) with
  | some c => c.getD (i % w.chunkBytes) 0
  | none => if i < node.packEnd then w.pack.getD (w.base + i) 0 else 0

/-- The bytes of chunk `ci` that the pack still backs. -/
def cleanBytes (w : Placement) (packEnd ci : ℕ) : List UInt8 :=
  packRange w.pack (w.base + ci * w.chunkBytes)
    (w.base + min packEnd (ci * w.chunkBytes + w.chunkBytes))

structure Rep (w : Placement) (node : Node) : Prop where
  packEnd_le : node.packEnd ≤ w.size
  cached : ∀ e ∈ node.cache, e.2 = cleanBytes w node.packEnd e.1
  dirty_length : ∀ ci c, OrderedMap.get node.dirty ci = some c → c.length = w.chunkBytes

structure Inv (w : Placement) (node : Node) : Prop extends Rep w node where
  packEnd_le_used : node.packEnd ≤ node.usedBytes
  zero_beyond : ∀ i, node.usedBytes ≤ i → node.raw w i = 0

/-- The two nodes hold the same file; they may differ in their caches and counters. -/
structure SameFile (a b : Node) : Prop where
  dirty : b.dirty = a.dirty
  packEnd : b.packEnd = a.packEnd
  usedBytes : b.usedBytes = a.usedBytes

def Node.abs (w : Placement) (node : Node) : FlatFile UInt8 where
  size := node.usedBytes
  byte i := if i < node.usedBytes then node.raw w i else 0
  beyond i hi := if_neg (by omega)

/-- The last range read made on the way from `node` to `node'` has failed. -/
def FetchFailed (w : Placement) (net : Net) (node node' : Node) : Prop :=
  ∃ start stop n e, node.requests ≤ n ∧
    syncRange w.pack net start stop n = (.error e, node'.requests)

/-- The node is in order and stands for `f`. -/
structure Represents (w : Placement) (node : Node) (f : FlatFile UInt8) : Prop where
  inv : Inv w node
  abs_eq : node.abs w = f

def Placement.contents (w : Placement) : FlatFile UInt8 where
  size := w.size
  byte i := if i < w.size then w.pack.getD (w.base + i) 0 else 0
  beyond i hi := if_neg (by omega)

variable {w : Placement} {net : Net} {node node' : Node}

theorem SameFile.refl (node : Node) : SameFile node node := ⟨rfl, rfl, rfl⟩

theorem SameFile.trans {a b c : Node} (h : SameFile a b) (h' : SameFile b c) : SameFile a c :=
  ⟨h'.dirty.trans h.dirty, h'.packEnd.trans h.packEnd, h'.usedBytes.trans h.usedBytes⟩

theorem SameFile.raw_eq (h : SameFile node node') (i : ℕ) : node'.raw w i = node.raw w i := by
  simp only [Node.raw, h.dirty, h.packEnd]

theorem SameFile.abs_eq (h : SameFile node node') : node'.abs w = node.abs w := by
  refine FlatFile.ext h.usedBytes (funext fun i => ?_)
  simp only [Node.abs, h.usedBytes, h.raw_eq i]

theorem Inv.of_sameFile (inv : Inv w node) (same : SameFile node node') (rep : Rep w node') :
    Inv w node' where
  toRep := rep
  packEnd_le_used := by
    rw [same.packEnd, same.usedBytes]
    exact inv.packEnd_le_used
  zero_beyond i hi := by
    rw [same.raw_eq]
    exact inv.zero_beyond i (same.usedBytes ▸ hi)

theorem abs_byte (inv : Inv w node) (i : ℕ) : (node.abs w).byte i = node.raw w i := by
  by_cases hi : i < node.usedBytes
  · exact if_pos hi
  · rw [inv.zero_beyond i (by omega)]
    exact if_neg hi

/-- A node whose bytes are those of a flat file is in order and stands for it. -/
theorem represents_of_bytes {f : FlatFile UInt8} (rep : Rep w node)
    (hpack : node.packEnd ≤ node.usedBytes) (hsize : node.usedBytes = f.size)
    (hbyte : ∀ i, node.raw w i = f.byte i) : Represents w node f := by
  have inv : Inv w node :=
    ⟨rep, hpack, fun i hi => (hbyte i).trans (f.beyond i (hsize ▸ hi))⟩
  refine ⟨inv, ?_⟩
  refine FlatFile.ext hsize (funext fun i => ?_)
  rw [abs_byte inv, hbyte]

/-! ### Chunks -/

theorem getD_packRange (pack : List UInt8) (start stop j : ℕ) :
    (packRange pack start stop).getD j 0 =
      if start + j < stop then pack.getD (start + j) 0 else 0 := by
  simp only [packRange, getD_eq_getElem?_getD, getElem?_take, getElem?_drop]
  by_cases h : start + j < stop
  · rw [if_pos (by omega), if_pos h]
  · rw [if_neg (by omega), if_neg h]
    rfl

theorem getD_cleanBytes (hdirty : get node.dirty ci = none) (ho : o < w.chunkBytes) :
    (cleanBytes w node.packEnd ci).getD o 0 = node.raw w (ci * w.chunkBytes + o) := by
  have hdiv : (ci * w.chunkBytes + o) / w.chunkBytes = ci := by
    rw [Nat.mul_comm, Nat.mul_add_div w.chunkBytes_pos, Nat.div_eq_of_lt ho, Nat.add_zero]
  simp only [Node.raw, hdiv, hdirty, cleanBytes, getD_packRange, Nat.add_assoc]
  congr 1
  simp only [eq_iff_iff]
  omega

theorem getD_dirty (hdirty : get node.dirty ci = some c) (ho : o < w.chunkBytes) :
    c.getD o 0 = node.raw w (ci * w.chunkBytes + o) := by
  have hdiv : (ci * w.chunkBytes + o) / w.chunkBytes = ci := by
    rw [Nat.mul_comm, Nat.mul_add_div w.chunkBytes_pos, Nat.div_eq_of_lt ho, Nat.add_zero]
  have hmod : (ci * w.chunkBytes + o) % w.chunkBytes = o := by
    rw [Nat.mul_add_mod_self_right, Nat.mod_eq_of_lt ho]
  simp only [Node.raw, hdiv, hdirty, hmod]

theorem mem_insertClean {cache : List (ℕ × List UInt8)} {e : ℕ × List UInt8}
    (h : e ∈ insertClean w cache ci c) : e = (ci, c) ∨ e ∈ cache := by
  simp only [insertClean] at h
  split at h
  · exact mem_set (mem_of_mem_deleteFirst h)
  · exact mem_set h

/-- What a chunk lookup does: the file stays, a chunk it returns shows the file,
and only a chunk that the pack backs can fail to arrive. -/
structure ChunkSpec (w : Placement) (net : Net) (node : Node) (ci : ℕ)
    (r : Except LazyError (List UInt8) × Node) : Prop where
  rep : Rep w r.2
  same : SameFile node r.2
  requests_le : node.requests ≤ r.2.requests
  ok : ∀ c, r.1 = .ok c → ∀ o, o < w.chunkBytes →
    c.getD o 0 = node.raw w (ci * w.chunkBytes + o)
  failed : ∀ e, r.1 = .error e → ci * w.chunkBytes < node.packEnd ∧ FetchFailed w net node r.2

theorem chunk_spec (net : Net) (rep : Rep w node) (ci : ℕ) :
    ChunkSpec w net node ci (chunk w net node ci) := by
  unfold chunk
  cases hdirty : OrderedMap.get node.dirty ci with
  | some c =>
    exact ⟨rep, .refl node, le_rfl, fun _ h o ho => by cases h; exact getD_dirty hdirty ho, by simp⟩
  | none =>
    cases hcache : OrderedMap.get node.cache ci with
    | some c =>
      have hc : c = cleanBytes w node.packEnd ci := rep.cached _ (OrderedMap.mem_of_get hcache)
      refine ⟨⟨rep.packEnd_le, ?_, rep.dirty_length⟩, ⟨rfl, rfl, rfl⟩, le_rfl, ?_, by simp⟩
      · intro e he
        rcases OrderedMap.mem_set he with rfl | he
        · exact hc
        · exact rep.cached e (OrderedMap.mem_of_mem_delete he)
      · rintro _ ⟨⟩ o ho
        rw [hc]
        exact getD_cleanBytes hdirty ho
    | none =>
      simp only
      split
      · -- past the pack and never written
        refine ⟨rep, .refl node, le_rfl, ?_, by simp⟩
        rintro _ ⟨⟩ o ho
        rw [← getD_cleanBytes hdirty ho, cleanBytes, getD_packRange, if_neg (by omega)]
        simp [List.getD_eq_getElem?_getD, ho]
      · rename_i hs
        have hend := w.inPack
        have hpack := rep.packEnd_le
        cases hsync : syncRange w.pack net (w.base + ci * w.chunkBytes)
            (w.base + min node.packEnd (ci * w.chunkBytes + w.chunkBytes)) node.requests with
        | mk r n =>
          have hle : node.requests ≤ n := by
            have hfrom := le_syncRangeFrom w.pack net (w.base + ci * w.chunkBytes)
              (w.base + min node.packEnd (ci * w.chunkBytes + w.chunkBytes)) [0, 1, 2, 3, 4]
              node.requests
            rwa [← syncRange, hsync] at hfrom
          cases r with
          | error e =>
            exact ⟨⟨rep.packEnd_le, rep.cached, rep.dirty_length⟩, ⟨rfl, rfl, rfl⟩, hle, by simp,
              fun _ _ => ⟨by omega, _, _, _, e, le_rfl, hsync⟩⟩
          | ok c =>
            have hc : c = cleanBytes w node.packEnd ci :=
              syncRange_ok (by omega) (by omega) (congrArg Prod.fst hsync)
            refine ⟨⟨rep.packEnd_le, ?_, rep.dirty_length⟩, ⟨rfl, rfl, rfl⟩, hle, ?_, by simp⟩
            · intro e he
              rcases mem_insertClean he with rfl | he
              · exact hc
              · exact rep.cached e he
            · rintro _ ⟨⟩ o ho
              rw [hc]
              exact getD_cleanBytes hdirty ho

/-! ### Reads -/

theorem copyOut_eq (c : List UInt8) (o k : ℕ) :
    copyOut c o k = (range k).map fun j => c.getD (o + j) 0 := by
  apply ext_getElem?
  intro j
  simp only [copyOut, getElem?_append, length_take, length_drop, getElem?_take, getElem?_drop,
    getElem?_replicate, getElem?_map, getD_eq_getElem?_getD]
  grind

/-- What the read loop delivers from `done` on. -/
structure ReadSpec (w : Placement) (net : Net) (node : Node) (start n : ℕ)
    (r : Except LazyError (List UInt8) × Node) : Prop where
  rep : Rep w r.2
  same : SameFile node r.2
  ok : ∀ bytes, r.1 = .ok bytes → bytes = (List.range n).map fun i => node.raw w (start + i)
  failed : ∀ e, r.1 = .error e → FetchFailed w net node r.2

theorem FetchFailed.of_le {node₁ : Node} (h : node.requests ≤ node₁.requests)
    (hfailed : FetchFailed w net node₁ node') : FetchFailed w net node node' := by
  obtain ⟨start, stop, n, e, hn, hsync⟩ := hfailed
  exact ⟨start, stop, n, e, h.trans hn, hsync⟩

theorem readLoop_spec (net : Net) (rep : Rep w node) (position n done : ℕ) :
    ReadSpec w net node (position + done) (n - done) (readLoop w net position n done node) := by
  fun_induction readLoop w net position n done node with
  | case1 done node h p err node' hchunk =>
    have hc : ChunkSpec w net node (p / w.chunkBytes) (_, _) := hchunk ▸ chunk_spec net rep _
    exact ⟨hc.rep, hc.same, nofun, fun e he => (hc.failed e he).2⟩
  | case2 done node h p o k c node₁ hchunk err node₂ hrest ih =>
    have hc : ChunkSpec w net node (p / w.chunkBytes) (_, _) := hchunk ▸ chunk_spec net rep _
    have hr := ih hc.rep
    rw [hrest] at hr
    exact ⟨hr.rep, hc.same.trans hr.same, nofun, fun e he => (hr.failed e he).of_le hc.requests_le⟩
  | case3 done node h p o k c node₁ hchunk rest node₂ hrest ih =>
    have hc : ChunkSpec w net node (p / w.chunkBytes) (_, _) := hchunk ▸ chunk_spec net rep _
    have hr := ih hc.rep
    rw [hrest] at hr
    refine ⟨hr.rep, hc.same.trans hr.same, ?_, nofun⟩
    rintro _ ⟨⟩
    have ho : o < w.chunkBytes := Nat.mod_lt _ w.chunkBytes_pos
    have hp : p / w.chunkBytes * w.chunkBytes + o = p := Nat.div_add_mod' _ _
    have hhead : copyOut c o k = (List.range k).map fun i => node.raw w (position + done + i) := by
      rw [copyOut_eq]
      refine List.map_congr_left fun j hj => ?_
      have hj' : o + j < w.chunkBytes := by
        have := List.mem_range.mp hj
        omega
      rw [hc.ok c rfl _ hj', ← Nat.add_assoc, hp]
    have htail : rest =
        (List.range (n - (done + k))).map fun i => node.raw w (position + done + (k + i)) := by
      rw [hr.ok rest rfl]
      refine List.map_congr_left fun i _ => ?_
      rw [hc.same.raw_eq, Nat.add_assoc, Nat.add_assoc, Nat.add_assoc]
    have hlen : n - done = k + (n - (done + k)) := by omega
    rw [hhead, htail, hlen, List.range_add, List.map_append, List.map_map]
    rfl
  | case4 done node h =>
    refine ⟨rep, .refl node, ?_, nofun⟩
    rintro _ ⟨⟩
    rw [show n - done = 0 by omega]
    rfl

/-! ### Writes -/

/-- The bytes after `[start + done, start + stop)` has received its part of `src`. -/
def stored (f : ℕ → UInt8) (start : ℕ) (src : List UInt8) (done stop i : ℕ) : UInt8 :=
  if start + done ≤ i ∧ i < start + stop then src.getD (i - start) 0 else f i

theorem stored_self (f : ℕ → UInt8) (start : ℕ) (src : List UInt8) (done i : ℕ) :
    stored f start src done done i = f i :=
  if_neg (by omega)

theorem stored_stored {f : ℕ → UInt8} {start : ℕ} {src : List UInt8} {done mid stop : ℕ}
    (h₁ : done ≤ mid) (h₂ : mid ≤ stop) (i : ℕ) :
    stored (stored f start src done mid) start src mid stop i = stored f start src done stop i := by
  unfold stored
  split_ifs <;> first | rfl | omega

theorem getD_setBytes {data : List UInt8} (h : o + data.length ≤ c.length) (j : ℕ) :
    (setBytes c o data).getD j 0 =
      if o ≤ j ∧ j < o + data.length then data.getD (j - o) 0 else c.getD j 0 := by
  simp only [setBytes, getD_eq_getElem?_getD, getElem?_append, length_append,
    length_take, getElem?_take, getElem?_drop]
  grind

theorem length_setBytes {data : List UInt8} (h : o + data.length ≤ c.length) :
    (setBytes c o data).length = c.length := by
  simp only [setBytes, length_append, length_take, length_drop]
  omega

/-- The bytes of a node whose private copy of chunk `ci` is replaced. -/
theorem raw_setDirty (node : Node) (ci : ℕ) (c : List UInt8) (i : ℕ) :
    (node.setDirty ci c).raw w i =
      if i / w.chunkBytes = ci then c.getD (i % w.chunkBytes) 0 else node.raw w i := by
  simp only [Node.raw, Node.setDirty, get_set]
  by_cases h : i / w.chunkBytes = ci <;> simp [h]

theorem Rep.setDirty (rep : Rep w node) (ci : ℕ) (hc : c.length = w.chunkBytes) :
    Rep w (node.setDirty ci c) where
  packEnd_le := rep.packEnd_le
  cached := rep.cached
  dirty_length ci' c' h := by
    rw [Node.setDirty, OrderedMap.get_set] at h
    split at h
    · cases h
      exact hc
    · exact rep.dirty_length ci' c' h

/-- What taking a private copy does: the file stays, and the copy is the chunk
now found under `ci`. -/
structure PrivateSpec (w : Placement) (net : Net) (node : Node) (ci : ℕ)
    (r : Except LazyError (List UInt8) × Node) : Prop where
  rep : Rep w r.2
  packEnd : r.2.packEnd = node.packEnd
  usedBytes : r.2.usedBytes = node.usedBytes
  requests_le : node.requests ≤ r.2.requests
  raw : ∀ i, r.2.raw w i = node.raw w i
  ok : ∀ c, r.1 = .ok c → OrderedMap.get r.2.dirty ci = some c
  failed : ∀ e, r.1 = .error e → ci * w.chunkBytes < node.packEnd ∧ FetchFailed w net node r.2

theorem getD_padded (c : List UInt8) {n j : ℕ} (hj : j < n) :
    (c.take n ++ replicate (n - c.length) 0).getD j 0 = c.getD j 0 := by
  simp only [getD_eq_getElem?_getD, getElem?_append, length_take, getElem?_take, getElem?_replicate]
  grind

theorem privateChunk_spec (net : Net) (rep : Rep w node) (ci : ℕ) :
    PrivateSpec w net node ci (privateChunk w net node ci) := by
  unfold privateChunk
  cases hdirty : OrderedMap.get node.dirty ci with
  | some c =>
    exact ⟨rep, rfl, rfl, le_rfl, fun _ => rfl, fun _ h => by cases h; exact hdirty, nofun⟩
  | none =>
    have spec := chunk_spec net rep ci
    rcases hchunk : chunk w net node ci with ⟨r, node'⟩
    rw [hchunk] at spec
    cases r with
    | error e =>
      exact ⟨spec.rep, spec.same.packEnd, spec.same.usedBytes, spec.requests_le,
        spec.same.raw_eq, nofun, spec.failed⟩
    | ok c =>
      have hlen : (c.take w.chunkBytes ++
          List.replicate (w.chunkBytes - c.length) 0).length = w.chunkBytes := by
        simp only [List.length_append, List.length_take, List.length_replicate]
        omega
      have rep' := spec.rep.setDirty ci hlen
      refine ⟨⟨rep'.packEnd_le, ?_, rep'.dirty_length⟩, spec.same.packEnd, spec.same.usedBytes,
        spec.requests_le, ?_, ?_, nofun⟩
      · exact fun e he => spec.rep.cached e (OrderedMap.mem_of_mem_delete he)
      · intro i
        refine (raw_setDirty node' ci _ i).trans ?_
        split
        · rename_i hi
          have hmod := Nat.mod_lt i w.chunkBytes_pos
          rw [getD_padded c hmod, spec.ok c rfl _ hmod, ← hi, Nat.div_add_mod']
        · exact spec.same.raw_eq i
      · rintro _ ⟨⟩
        simp [Node.setDirty, OrderedMap.get_set]

theorem mem_piece_iff {p k i : ℕ} (hk : p % w.chunkBytes + k ≤ w.chunkBytes) :
    (i / w.chunkBytes = p / w.chunkBytes ∧
        p % w.chunkBytes ≤ i % w.chunkBytes ∧ i % w.chunkBytes < p % w.chunkBytes + k) ↔
      p ≤ i ∧ i < p + k := by
  have hi := Nat.div_add_mod i w.chunkBytes
  have hp := Nat.div_add_mod p w.chunkBytes
  constructor
  · rintro ⟨hdiv, h₁, h₂⟩
    rw [hdiv] at hi
    omega
  · rintro ⟨h₁, h₂⟩
    have hdiv : i / w.chunkBytes = p / w.chunkBytes := by
      refine Nat.div_eq_of_lt_le ?_ ?_
      · rw [Nat.mul_comm]
        omega
      · rw [Nat.succ_mul, Nat.mul_comm]
        omega
    rw [hdiv] at hi
    omega

theorem raw_store_piece {src : List UInt8} {position done k : ℕ}
    (hdirty : get node.dirty ((position + done) / w.chunkBytes) = some c)
    (hlen : c.length = w.chunkBytes) (hsrc : done + k ≤ src.length)
    (hk : (position + done) % w.chunkBytes + k ≤ w.chunkBytes) (i : ℕ) :
    (node.setDirty ((position + done) / w.chunkBytes)
        (setBytes c ((position + done) % w.chunkBytes) ((src.drop done).take k))).raw w i =
      stored (node.raw w) position src done (done + k) i := by
  have hdata : ((src.drop done).take k).length = k := by
    rw [length_take, length_drop]
    omega
  have hpiece := mem_piece_iff (i := i) hk
  rw [raw_setDirty, getD_setBytes (by omega), hdata, stored]
  by_cases hi : position + done ≤ i ∧ i < position + done + k
  · obtain ⟨hdiv, hmod⟩ := hpiece.mpr hi
    have h1 := Nat.div_add_mod i w.chunkBytes
    have h2 := Nat.div_add_mod (position + done) w.chunkBytes
    rw [hdiv] at h1
    rw [if_pos hdiv, if_pos hmod, if_pos (by omega)]
    simp only [getD_eq_getElem?_getD, getElem?_take, getElem?_drop]
    rw [if_pos (by omega)]
    congr 2
    omega
  · rw [if_neg (c := _ ≤ i ∧ _) (by omega)]
    by_cases hdiv : i / w.chunkBytes = (position + done) / w.chunkBytes
    · rw [if_pos hdiv, if_neg fun hmod => hi (hpiece.mp ⟨hdiv, hmod⟩),
        getD_dirty hdirty (Nat.mod_lt i w.chunkBytes_pos), ← hdiv, Nat.div_add_mod']
    · rw [if_neg hdiv]

/-- What the write loop does from `done` on: it stores a part `[done, stop)` of
the source, all of it unless a fetch fails. A failing fetch is of a chunk the
pack backs, and the part ends where that chunk starts. -/
structure WriteSpec (w : Placement) (net : Net) (node : Node) (position : ℕ) (src : List UInt8)
    (done : ℕ)
    (r : Except LazyError Unit × Node) : Prop where
  rep : Rep w r.2
  packEnd : r.2.packEnd = node.packEnd
  usedBytes : r.2.usedBytes = node.usedBytes
  ok : r.1 = .ok () → ∀ i, r.2.raw w i = stored (node.raw w) position src done src.length i
  failed : ∀ e, r.1 = .error e → FetchFailed w net node r.2 ∧
    ∃ stop, done ≤ stop ∧ stop < src.length ∧
    (position + stop) / w.chunkBytes * w.chunkBytes < node.packEnd ∧
    (stop = done ∨ (position + stop) % w.chunkBytes = 0) ∧
    ∀ i, r.2.raw w i = stored (node.raw w) position src done stop i

theorem writeLoop_spec (net : Net) (rep : Rep w node) (position : ℕ) (src : List UInt8) (done : ℕ)
    (hdone : done ≤ src.length) :
    WriteSpec w net node position src done (writeLoop w net position src done node) := by
  fun_induction writeLoop w net position src done node with
  | case1 done node h p ci err node' hprivate =>
    have spec : PrivateSpec w net node ci (_, _) := hprivate ▸ privateChunk_spec net rep _
    refine ⟨spec.rep, spec.packEnd, spec.usedBytes, nofun, fun _ _ => ?_⟩
    exact ⟨(spec.failed err rfl).2, done, Nat.le_refl _, h, (spec.failed err rfl).1, .inl rfl,
      fun i => (spec.raw i).trans (stored_self ..).symm⟩
  | case2 done node h p ci o k c node₁ hprivate ih =>
    have spec : PrivateSpec w net node ci (_, _) := hprivate ▸ privateChunk_spec net rep _
    have ho : o < w.chunkBytes := Nat.mod_lt _ w.chunkBytes_pos
    have hk : o + k ≤ w.chunkBytes := by omega
    have hsrc : done + k ≤ src.length := by omega
    have hdirty := spec.ok c rfl
    have hlen := spec.rep.dirty_length ci c hdirty
    have hdata : o + ((src.drop done).take k).length ≤ c.length := by
      rw [List.length_take, List.length_drop]
      omega
    have rest := ih (spec.rep.setDirty ci ((length_setBytes hdata).trans hlen)) hsrc
    have hpiece : (node₁.setDirty ci (setBytes c o ((src.drop done).take k))).raw w =
        stored (node.raw w) position src done (done + k) := by
      rw [← (funext spec.raw : node₁.raw w = node.raw w)]
      exact funext (raw_store_piece hdirty hlen hsrc hk)
    refine ⟨rest.rep, rest.packEnd.trans spec.packEnd, rest.usedBytes.trans spec.usedBytes,
      fun hok i => ?_, fun e he => ?_⟩
    · exact (rest.ok hok i).trans (hpiece ▸ stored_stored (Nat.le_add_right done k) hsrc i)
    · obtain ⟨hfetch, stop, h₁, h₂, hpack, hend, hraw⟩ := rest.failed e he
      refine ⟨hfetch.of_le spec.requests_le, stop, by omega, h₂, spec.packEnd ▸ hpack, .inr ?_,
        fun i => (hraw i).trans (hpiece ▸ stored_stored (Nat.le_add_right done k) h₁ i)⟩
      rcases hend with rfl | hend
      · -- the loop went on, so the piece reached the end of its chunk
        have hp : w.chunkBytes * (p / w.chunkBytes) + o = p := Nat.div_add_mod _ _
        have hnext : position + (done + k) = w.chunkBytes * (p / w.chunkBytes + 1) := by
          rw [Nat.mul_succ]
          omega
        rw [hnext, Nat.mul_mod_right]
      · exact hend
  | case3 done node h =>
    exact ⟨rep, rfl, rfl, fun _ i => by rw [show done = src.length by omega, stored_self], nofun⟩

/-! ### Truncation -/

theorem getD_fillTail (c : List UInt8) (o j : ℕ) :
    (fillTail c o).getD j 0 = if j < o then c.getD j 0 else 0 := by
  simp only [fillTail, getD_eq_getElem?_getD, getElem?_append, length_take,
    getElem?_take, getElem?_replicate]
  grind

theorem length_fillTail (c : List UInt8) (o : ℕ) : (fillTail c o).length = c.length := by
  simp only [fillTail, length_append, length_take, length_replicate]
  omega

theorem shrink_packEnd (node : Node) (sz : ℕ) :
    (shrink w node sz).packEnd = min node.packEnd sz := by
  simp only [shrink]
  split <;> split <;> simp only <;> omega

theorem shrink_cache (node : Node) (sz : ℕ) :
    (shrink w node sz).cache = if sz < node.packEnd then [] else node.cache := by
  simp only [shrink]
  split <;> split <;> rfl

/-- The private chunks that survive: those that start below the new size, the one
it cuts being cleared from there on. -/
theorem get_shrink_dirty (node : Node) (sz ci : ℕ) :
    get (shrink w node sz).dirty ci =
      if ci * w.chunkBytes < sz then
        (get node.dirty ci).map fun c =>
          if ci = sz / w.chunkBytes then fillTail c (sz % w.chunkBytes) else c
      else none := by
  have hkept (d : List (ℕ × List UInt8)) (i : ℕ) :
      get (d.filter fun e => e.1 * w.chunkBytes < sz) i =
        if i * w.chunkBytes < sz then get d i else none :=
    get_filter_key d (fun i => i * w.chunkBytes < sz) i
  have hdirty : (if sz < node.packEnd then { node with packEnd := sz, cache := [] }
      else node : Node).dirty = node.dirty := by
    split <;> rfl
  simp only [shrink, hdirty]
  split
  · rename_i tail htail
    rw [get_set]
    rw [hkept] at htail ⊢
    by_cases hci : ci = sz / w.chunkBytes
    · subst hci
      split at htail
      · rename_i hlt
        simp [hlt, htail]
      · cases htail
    · simp [hci]
  · rename_i htail
    rw [hkept] at htail ⊢
    by_cases hci : ci = sz / w.chunkBytes
    · subst hci
      split at htail
      · simp [htail]
      · rename_i hlt
        simp [hlt]
    · simp [hci]

/-- Below the new size nothing changes, and from it on the bytes are zero. -/
theorem raw_shrink (node : Node) (sz i : ℕ) :
    (shrink w node sz).raw w i = if i < sz then node.raw w i else 0 := by
  have hi := Nat.div_add_mod i w.chunkBytes
  have hsz := Nat.div_add_mod sz w.chunkBytes
  have hmod := Nat.mod_lt i w.chunkBytes_pos
  simp only [Node.raw, get_shrink_dirty, shrink_packEnd]
  rw [Nat.mul_comm (i / w.chunkBytes)]
  by_cases hlt : w.chunkBytes * (i / w.chunkBytes) < sz
  · rw [if_pos hlt]
    cases hd : get node.dirty (i / w.chunkBytes) with
    | none =>
      simp only [Option.map_none, Nat.lt_min]
      by_cases h : i < sz <;> simp [h]
    | some c =>
      simp only [Option.map_some]
      by_cases hci : i / w.chunkBytes = sz / w.chunkBytes
      · rw [if_pos hci, getD_fillTail]
        rw [hci] at hi
        congr 1
        simp only [eq_iff_iff]
        omega
      · -- the chunk lies wholly below the new size
        have hle : i / w.chunkBytes + 1 ≤ sz / w.chunkBytes := by
          have : i / w.chunkBytes ≤ sz / w.chunkBytes := by
            by_contra h
            have hgt : sz / w.chunkBytes + 1 ≤ i / w.chunkBytes := by omega
            have := Nat.mul_le_mul_left w.chunkBytes hgt
            rw [Nat.mul_succ] at this
            have := Nat.mod_lt sz w.chunkBytes_pos
            omega
          omega
        have := Nat.mul_le_mul_left w.chunkBytes hle
        rw [Nat.mul_succ] at this
        rw [if_neg hci, if_pos (by omega)]
  · rw [if_neg hlt, if_neg (by omega), if_neg (by omega)]

theorem Rep.shrink (rep : Rep w node) (sz : ℕ) : Rep w (shrink w node sz) where
  packEnd_le := by
    rw [shrink_packEnd]
    exact Nat.le_trans (Nat.min_le_left _ _) rep.packEnd_le
  cached e he := by
    rw [shrink_cache] at he
    split at he
    · cases he
    · rw [shrink_packEnd, Nat.min_eq_left (by omega)]
      exact rep.cached e he
  dirty_length ci c h := by
    rw [get_shrink_dirty] at h
    split at h
    · obtain ⟨d, hd, rfl⟩ := Option.map_eq_some_iff.mp h
      split
      · rw [length_fillTail]
        exact rep.dirty_length ci d hd
      · exact rep.dirty_length ci d hd
    · cases h

/-! ### Calls and runs -/

/-- What one call must do: keep the invariant, act as the flat file does, and fail only if
its last range read has. -/
structure Refines (w : Placement) (net : Net) (node : Node) (c : FlatFile.Call UInt8)
    (r : FlatFile.Reply UInt8 × Node) : Prop where
  inv : Inv w r.2
  step : FlatFile.Step (node.abs w) c r.1 (r.2.abs w)
  failed : r.1 = .failed → FetchFailed w net node r.2

theorem makeLazy_represents (w : Placement) : Represents w (makeLazy w) w.contents :=
  represents_of_bytes ⟨Nat.le_refl _, nofun, nofun⟩ (Nat.le_refl _) rfl fun _ => rfl

theorem read_refines (net : Net) (inv : Inv w node) (position length : ℕ) :
    Refines w net node (.read position length) (call w net node (.read position length)) := by
  unfold call read
  by_cases hpos : node.usedBytes ≤ position
  · simp only [if_pos hpos]
    have hempty : (node.abs w).read position length = [] := by
      simp [FlatFile.read, Node.abs, Nat.sub_eq_zero_of_le hpos]
    exact ⟨inv, hempty ▸ .read _ _ _, nofun⟩
  · simp only [if_neg hpos]
    have rep : Rep w { node with
        top := max node.top (position + min length (node.usedBytes - position)) } :=
      ⟨inv.packEnd_le, inv.cached, inv.dirty_length⟩
    have spec := readLoop_spec net rep position
      (min length (node.usedBytes - position)) 0
    split
    · rename_i bytes node' hread
      rw [hread] at spec
      have same : SameFile node node' := ⟨spec.same.dirty, spec.same.packEnd, spec.same.usedBytes⟩
      have hbytes : bytes = (node.abs w).read position length := by
        rw [spec.ok bytes rfl, FlatFile.read]
        exact List.map_congr_left fun i _ => (abs_byte inv _).symm
      refine ⟨inv.of_sameFile same spec.rep, ?_, nofun⟩
      simp only [same.abs_eq, hbytes]
      exact .read _ _ _
    · rename_i e node' hread
      rw [hread] at spec
      have same : SameFile node node' := ⟨spec.same.dirty, spec.same.packEnd, spec.same.usedBytes⟩
      refine ⟨inv.of_sameFile same spec.rep, ?_, fun _ => spec.failed e rfl⟩
      simp only [same.abs_eq]
      exact .readFailed _ _ _

theorem write_refines (net : Net) (inv : Inv w node) (position : ℕ) (src : List UInt8) :
    Refines w net node (.write position src) (call w net node (.write position src)) := by
  have spec := writeLoop_spec net inv.toRep position src 0 (Nat.zero_le _)
  have hused := inv.packEnd_le_used
  rcases hwrite : writeLoop w net position src 0 node with ⟨r, node'⟩
  rw [hwrite] at spec
  obtain ⟨rep, hpackEnd, husedBytes, hok, hfailed⟩ := spec
  simp only at rep hpackEnd husedBytes hok hfailed
  cases r with
  | ok =>
    have hspec : Represents w
        { node' with usedBytes := max node'.usedBytes (position + src.length) }
        ((node.abs w).write position src) := by
      refine represents_of_bytes ⟨rep.packEnd_le, rep.cached, rep.dirty_length⟩ ?_ ?_ fun i => ?_
      · simp only
        omega
      · simp [Node.abs, husedBytes]
      · refine (hok rfl i).trans ?_
        simp only [stored, FlatFile.write, abs_byte inv, Nat.add_zero]
    simp only [call, write, hwrite]
    exact ⟨hspec.inv, hspec.abs_eq ▸ .write _ _ _, nofun⟩
  | error e =>
    obtain ⟨hfetch, stop, -, hstop, hpack, hend, hraw⟩ := hfailed e rfl
    -- whatever was stored lies below the chunk that failed, hence below the size
    have hbelow : stop = 0 ∨ position + stop ≤ node.usedBytes := by
      have := Nat.div_add_mod' (position + stop) w.chunkBytes
      omega
    have hlen : (src.take stop).length = stop := by
      rw [List.length_take]
      omega
    have hspec : Represents w node' ((node.abs w).overwrite position (src.take stop)) := by
      refine represents_of_bytes rep (by omega) husedBytes fun i => (hraw i).trans ?_
      simp only [stored, FlatFile.overwrite, abs_byte inv, Nat.add_zero, hlen]
      have hsize : (node.abs w).size = node.usedBytes := rfl
      by_cases hi : position ≤ i ∧ i < position + stop
      · rw [if_pos hi, if_pos ⟨hi.1, hi.2, by omega⟩]
        simp only [List.getD_eq_getElem?_getD, List.getElem?_take]
        rw [if_pos (by omega)]
      · rw [if_neg hi, if_neg fun h => hi ⟨h.1, h.2.1⟩]
    simp only [call, write, hwrite]
    exact ⟨hspec.inv, hspec.abs_eq ▸ .writeFailed _ _ _ _, fun _ => hfetch⟩

/-- A file that grows shows zeros in the new range. -/
theorem raw_eq_resize (inv : Inv w node) {n : ℕ} (hn : node.usedBytes ≤ n) (i : ℕ) :
    node.raw w i = ((node.abs w).resize n).byte i := by
  change node.raw w i = if i < n then (node.abs w).byte i else 0
  rw [abs_byte inv]
  split
  · rfl
  · exact inv.zero_beyond i (by omega)

theorem allocate_refines (net : Net) (inv : Inv w node) (offset length : ℕ) :
    Refines w net node (.allocate offset length) (call w net node (.allocate offset length)) := by
  have hused := inv.packEnd_le_used
  have hspec : Represents w (allocate node offset length)
      ((node.abs w).resize (max node.usedBytes (offset + length))) := by
    refine represents_of_bytes ⟨inv.packEnd_le, inv.cached, inv.dirty_length⟩ ?_ rfl
      (raw_eq_resize inv (Nat.le_max_left _ _))
    simp only [allocate]
    omega
  exact ⟨hspec.inv, hspec.abs_eq ▸ .allocate _ _ _, nofun⟩

theorem truncate_refines (net : Net) (inv : Inv w node) (sz : ℕ) :
    Refines w net node (.truncate sz) (call w net node (.truncate sz)) := by
  have hspec : Represents w (setattr w node sz) ((node.abs w).resize sz) := by
    have hused := inv.packEnd_le_used
    unfold setattr
    by_cases hsz : sz < node.usedBytes
    · simp only [if_pos hsz]
      have rep := inv.toRep.shrink sz
      refine represents_of_bytes ⟨rep.packEnd_le, rep.cached, rep.dirty_length⟩ ?_ rfl fun i => ?_
      · simp only [shrink_packEnd]
        omega
      · refine (raw_shrink node sz i).trans ?_
        simp only [FlatFile.resize, abs_byte inv]
    · simp only [if_neg hsz]
      refine represents_of_bytes ⟨inv.packEnd_le, inv.cached, inv.dirty_length⟩ ?_ rfl
        (raw_eq_resize inv (by omega))
      simp only
      omega
  exact ⟨hspec.inv, hspec.abs_eq ▸ .truncate _ _, nofun⟩

theorem call_refines (net : Net) (inv : Inv w node) (c : FlatFile.Call UInt8) :
    Refines w net node c (call w net node c) := by
  cases c with
  | read position length => exact read_refines net inv position length
  | write position src => exact write_refines net inv position src
  | allocate offset length => exact allocate_refines net inv offset length
  | truncate sz => exact truncate_refines net inv sz

/-- From any node in order, a sequence of calls runs as on the flat file. -/
theorem run_refines (net : Net) (inv : Inv w node) (cs : List (FlatFile.Call UInt8)) :
    Inv w (run w net node cs).2 ∧
      FlatFile.Runs (node.abs w) cs (run w net node cs).1 ((run w net node cs).2.abs w) := by
  induction cs generalizing node with
  | nil => exact ⟨inv, .nil _⟩
  | cons c cs ih =>
    obtain ⟨inv', step, -⟩ := call_refines net inv c
    obtain ⟨inv'', runs⟩ := ih inv'
    exact ⟨inv'', .cons step runs⟩

def samplePlacement : Placement where
  pack := [0, 1, 2, 3, 4]
  base := 1
  size := 4
  cacheChunks := 1
  chunkBytes := 2
  inPack := by decide

end Bootbox.LazyPack
