import Mathlib.Data.List.Sort

/-!
The package loader of the Android guest (`fetchRemotePackage` in `load.js`). The package
is received in chunks of any size, and each file of its table is filled into a buffer of
its own.

The loader hands over what it has once the body ends, if so many bytes were stored as
the package has. Bytes behind the last file are dropped without being counted, so a body
that is too long is not noticed; and the table is sorted by the starts of the files only,
so an empty file has to be listed before a file that begins where it does
(`delivers_iff`).
-/

namespace Bootbox.Android

open List Option

variable {s t total : ℕ} {stored : List UInt8}

/-- A file of the package, from `start` to before `stop`. -/
structure PackFile where
  filename : String
  start : ℕ
  stop : ℕ
  deriving DecidableEq

inductive LoadError
  | notContiguous (filename : String)
  | invalidLength
  | covers (expect total : ℕ)
  | truncated (loaded total : ℕ)

/-- The text of an error; what the engine says of a length below zero is its own. -/
def LoadError.message (total : ℕ) (rangeError : String) : LoadError → String
  | .notContiguous filename => reserve ("Error: package files are not contiguous at " ++ filename)
  | .invalidLength => reserve rangeError
  | .covers expect total =>
    reserve ("Error: package metadata covers " ++ toString expect ++ " of " ++ toString total ++
      " bytes")
  | .truncated loaded total =>
    "Android package truncated: received " ++ toString loaded ++ " of " ++ toString total ++
      " bytes"
where
  reserve (cause : String) : String :=
    "Bootbox could not reserve memory for the Android package (" ++ toString total ++
      " bytes). " ++ cause

/-! ### The loader -/

/-- The files by their starts, those of one start in the order of the table. -/
def sorted (table : List PackFile) : List PackFile :=
  table.mergeSort fun a b => a.start ≤ b.start

/-- The buffers of the files, if each begins where the one before it ends. -/
def reserveFrom : ℕ → List PackFile → Except LoadError (List (List UInt8) × ℕ)
  | expect, [] => .ok ([], expect)
  | expect, f :: fs =>
    if f.start ≠ expect then .error (.notContiguous f.filename)
    else if f.stop < f.start then .error .invalidLength
    else (reserveFrom f.stop fs).map fun r => (replicate (f.stop - f.start) 0 :: r.1, r.2)

def reserve (files : List PackFile) (total : ℕ) : Except LoadError (List (List UInt8)) :=
  match reserveFrom 0 files with
  | .error e => .error e
  | .ok (parts, expect) => if expect ≠ total then .error (.covers expect total) else .ok parts

/-- The loader between two chunks: `fi` is the file the next byte belongs to. -/
structure Load where
  loaded : ℕ
  fi : ℕ
  parts : List (List UInt8)

/-- `buf.set(bytes, pos)`, which throws if the bytes do not fit. -/
def setAt (buf : List UInt8) (pos : ℕ) (bytes : List UInt8) : Option (List UInt8) :=
  if pos + bytes.length ≤ buf.length then
    some (buf.take pos ++ (bytes ++ buf.drop (pos + bytes.length)))
  else none

/-- The loop over a chunk, which may span several files. No result stands for an exception
or for a loop that does not end in so many rounds. -/
def fill (files : List PackFile) (value : List UInt8) : ℕ → Load → ℕ → Option Load
  | 0, _, _ => none
  | rounds + 1, st, off =>
    if off < value.length ∧ st.fi < files.length then do
      let f ← files[st.fi]?
      let buf ← st.parts[st.fi]?
      let pos := st.loaded - f.start
      let n := min (value.length - off) (buf.length - pos)
      let buf ← setAt buf pos ((value.drop off).take n)
      let loaded := st.loaded + n
      let fi := if f.stop ≤ loaded then st.fi + 1 else st.fi
      fill files value rounds ⟨loaded, fi, st.parts.set st.fi buf⟩ (off + n)
    else some st

def handleChunk (files : List PackFile) (st : Load) (value : List UInt8) : Option Load :=
  fill files value (value.length + files.length + 1) st 0

/-- The loader on a body in chunks: an error, or the files with their buffers. -/
def fetchRemotePackage (table : List PackFile) (packageSize : ℕ) (chunks : List (List UInt8)) :
    Option (Except LoadError (List (PackFile × List UInt8))) :=
  let files := sorted table
  match reserve files packageSize with
  | .error e => some (.error e)
  | .ok parts => do
      let st ← chunks.foldlM (handleChunk files) ⟨0, 0, parts⟩
      if st.loaded ≠ packageSize then return .error (.truncated st.loaded packageSize)
      else return .ok (files.zip st.parts)

/-! ### Tables -/

/-- The files lie one behind the other, from `s` to `t`. -/
def Contiguous : ℕ → List PackFile → ℕ → Prop
  | s, [], t => s = t
  | s, f :: fs, t => f.start = s ∧ f.start ≤ f.stop ∧ Contiguous f.stop fs t

variable {fs table : List PackFile}

theorem Contiguous.le (h : Contiguous s fs t) : s ≤ t := by
  induction fs generalizing s with
  | nil => exact Nat.le_of_eq h
  | cons f fs ih =>
    obtain ⟨hs, hle, hrest⟩ := h
    have := ih hrest
    omega

theorem Contiguous.bounds (h : Contiguous s fs t) :
    ∀ f ∈ fs, s ≤ f.start ∧ f.start ≤ f.stop ∧ f.stop ≤ t := by
  induction fs generalizing s with
  | nil => nofun
  | cons f fs ih =>
    obtain ⟨hs, hle, hrest⟩ := h
    have ht := hrest.le
    intro g hg
    rcases mem_cons.mp hg with rfl | hg
    · omega
    · have := ih hrest g hg
      omega

variable {f : PackFile}

theorem Contiguous.snoc (h : Contiguous s fs f.start) (hle : f.start ≤ f.stop) :
    Contiguous s (fs ++ [f]) f.stop := by
  induction fs generalizing s with
  | nil => exact ⟨h.symm, hle, rfl⟩
  | cons g fs ih => exact ⟨h.1, h.2.1, ih h.2.2⟩

/-- No file of a contiguous table begins before an earlier one has ended. -/
theorem Contiguous.pairwise (h : Contiguous s fs t) : fs.Pairwise fun a b => a.stop ≤ b.start := by
  induction fs generalizing s with
  | nil => exact .nil
  | cons f fs ih =>
    exact pairwise_cons.mpr ⟨fun g hg => (h.2.2.bounds g hg).1, ih h.2.2⟩

theorem reserveFrom_eq_ok {parts : List (List UInt8)} :
    reserveFrom s fs = .ok (parts, t) ↔
      Contiguous s fs t ∧ parts = fs.map fun f => replicate (f.stop - f.start) 0 := by
  induction fs generalizing s parts with
  | nil =>
    simp only [reserveFrom, Contiguous, map_nil, Except.ok.injEq, Prod.mk.injEq]
    exact ⟨fun h => ⟨h.2, h.1.symm⟩, fun h => ⟨h.2.symm, h.1⟩⟩
  | cons f fs ih =>
    rw [reserveFrom, Contiguous]
    by_cases hs : f.start = s
    · rw [if_neg (not_not.mpr hs)]
      by_cases hle : f.stop < f.start
      · rw [if_pos hle]
        exact ⟨nofun, fun h => absurd h.1.2.1 (by omega)⟩
      · rw [if_neg hle]
        cases hrest : reserveFrom f.stop fs with
        | error e =>
          refine ⟨nofun, fun h => ?_⟩
          have hok := ih.mpr ⟨h.1.2.2, rfl⟩
          rw [hrest] at hok
          cases hok
        | ok r =>
          simp only [Except.map, Except.ok.injEq, Prod.mk.injEq, map_cons]
          constructor
          · rintro ⟨rfl, rfl⟩
            obtain ⟨hcont, hparts⟩ := ih.mp hrest
            exact ⟨⟨hs, by omega, hcont⟩, by rw [hparts]⟩
          · rintro ⟨⟨-, -, hcont⟩, rfl⟩
            have hok := ih.mpr ⟨hcont, rfl⟩
            rw [hrest, Except.ok.injEq] at hok
            subst hok
            exact ⟨rfl, rfl⟩
    · rw [if_pos hs]
      exact ⟨nofun, fun h => absurd h.1.1 hs⟩

theorem reserve_eq_ok {parts : List (List UInt8)} :
    reserve fs total = .ok parts ↔
      Contiguous 0 fs total ∧ parts = fs.map fun f => replicate (f.stop - f.start) 0 := by
  rw [← reserveFrom_eq_ok, reserve]
  cases reserveFrom 0 fs with
  | error e => exact ⟨nofun, nofun⟩
  | ok r =>
    by_cases h : r.2 = total
    · simp [h, Prod.ext_iff]
    · simp [h, Prod.ext_iff]

/-! ### Filling the buffers -/

/-- The buffer of a file once these bytes of the package are stored. -/
def partOf (stored : List UInt8) (f : PackFile) : List UInt8 :=
  (stored.drop f.start).take (f.stop - f.start) ++
    replicate (f.stop - max f.start (min f.stop stored.length)) 0

theorem partOf_nil (f : PackFile) : partOf [] f = replicate (f.stop - f.start) 0 := by
  simp [partOf]

theorem partOf_full (h : f.stop ≤ stored.length) :
    partOf stored f = (stored.drop f.start).take (f.stop - f.start) := by
  rw [partOf, show f.stop - max f.start (min f.stop stored.length) = 0 by omega,
    replicate_zero, append_nil]

/-- More bytes leave the files before and behind the current one as they are. -/
theorem partOf_append_of_full (h : f.stop ≤ stored.length) (more : List UInt8) :
    partOf (stored ++ more) f = partOf stored f := by
  rw [partOf_full h, partOf_full (by rw [length_append]; omega)]
  rcases Nat.le_total f.start stored.length with hle | hle
  · rw [drop_append_of_le_length hle, take_append_of_le_length]
    rw [length_drop]
    omega
  · rw [show f.stop - f.start = 0 by omega, take_zero, take_zero]

theorem partOf_of_le (h : stored.length ≤ f.start) :
    partOf stored f = replicate (f.stop - f.start) 0 := by
  rw [partOf, drop_eq_nil_of_le h, take_nil, nil_append]
  congr 1
  omega

theorem partOf_current (hstart : f.start ≤ stored.length) (hstop : stored.length ≤ f.stop) :
    partOf stored f = stored.drop f.start ++ replicate (f.stop - stored.length) 0 := by
  rw [partOf, take_of_length_le (by rw [length_drop]; omega)]
  congr 2
  omega

theorem setAt_partOf {more : List UInt8} (hstart : f.start ≤ stored.length)
    (hstop : stored.length + more.length ≤ f.stop) :
    setAt (partOf stored f) (stored.length - f.start) more = some (partOf (stored ++ more) f) := by
  have hlen : (stored.drop f.start).length = stored.length - f.start := length_drop
  have hfits : stored.length - f.start + more.length ≤
      (stored.drop f.start ++ replicate (f.stop - stored.length) (0 : UInt8)).length := by
    rw [length_append, hlen, length_replicate]
    omega
  rw [setAt, partOf_current hstart (by omega), if_pos hfits,
    partOf_current (by rw [length_append]; omega) (by rw [length_append]; omega),
    drop_append_of_le_length hstart, length_append]
  rw [← hlen, take_left, append_assoc, ← drop_drop, drop_left, drop_replicate, Nat.sub_sub]

/-- The loader with these bytes of the package stored: the files before the current one are
full, and the current one, if there is one, holds the last of them. -/
structure Filling (files : List PackFile) (total : ℕ) (st : Load) (stored : List UInt8) :
    Prop where
  split : ∃ full todo s, files = full ++ todo ∧ st.fi = full.length ∧ Contiguous 0 full s ∧
    Contiguous s todo total ∧ s ≤ stored.length ∧
      ∀ f, todo.head? = some f → stored.length ≤ f.stop
  loaded : st.loaded = stored.length
  parts : st.parts = files.map (partOf stored)
  le_total : stored.length ≤ total

variable {st : Load}

/-- One round at the current file: as many bytes as are there and as fit are stored, and a
full file is left. -/
theorem Filling.round {full todo : List PackFile} (h : Filling (full ++ f :: todo) total st stored)
    (hfi : st.fi = full.length) (hfull : Contiguous 0 full f.start) (hf : f.start ≤ f.stop)
    (htodo : Contiguous f.stop todo total) (hstart : f.start ≤ stored.length) {more : List UInt8}
    (hmore : stored.length + more.length ≤ f.stop) :
    Filling (full ++ f :: todo) total
      ⟨st.loaded + more.length, if f.stop ≤ st.loaded + more.length then st.fi + 1 else st.fi,
        st.parts.set st.fi (partOf (stored ++ more) f)⟩ (stored ++ more) := by
  have htotal := htodo.le
  refine ⟨?_, ?_, ?_, ?_⟩
  · rw [h.loaded, length_append]
    split
    case isTrue hend =>
      refine ⟨full ++ [f], todo, f.stop, by simp, by simp [hfi], hfull.snoc hf, htodo, hend,
        fun g hg => ?_⟩
      have := htodo.bounds g (mem_of_head? hg)
      omega
    case isFalse hend =>
      refine ⟨full, f :: todo, f.start, rfl, hfi, hfull, ⟨rfl, hf, htodo⟩, by omega, ?_⟩
      rintro g hg
      cases hg
      exact hmore
  · rw [h.loaded, length_append]
  · -- the files before are full, those behind still empty
    have hbefore : full.map (partOf (stored ++ more)) = full.map (partOf stored) := by
      refine map_congr_left fun g hg => partOf_append_of_full ?_ more
      have := hfull.bounds g hg
      omega
    have hbehind : todo.map (partOf (stored ++ more)) = todo.map (partOf stored) := by
      refine map_congr_left fun g hg => ?_
      have := htodo.bounds g hg
      rw [partOf_of_le (by rw [length_append]; omega), partOf_of_le (by omega)]
    have hlen : full.length = (full.map (partOf stored)).length := (length_map _).symm
    rw [h.parts, map_append, map_cons, map_append, map_cons, hbefore, hbehind,
      hfi, hlen, set_append_right _ _ (Nat.le_refl _), Nat.sub_self, set_cons_zero]
  · rw [length_append]
    omega

/-- Enough rounds store the rest of a chunk, as far as the package goes. -/
theorem fill_spec {files : List PackFile} {value : List UInt8} {rounds : ℕ} {off : ℕ}
    {before : List UInt8} (h : Filling files total st (before ++ value.take off))
    (hrounds : value.length - off + (files.length - st.fi) < rounds) :
    ∃ st', fill files value rounds st off = some st' ∧
      Filling files total st' ((before ++ value).take total) := by
  induction rounds generalizing st off with
  | zero => omega
  | succ rounds ih =>
    have hle := h.le_total
    obtain ⟨full, todo, s, rfl, hfi, hfull, htodo, hs, hhead⟩ := h.split
    rw [fill]
    cases todo with
    | nil =>
      -- behind the last file what is left of the chunk is dropped
      refine ⟨st, if_neg (by rw [append_nil]; omega), ?_⟩
      have hs' : s = total := htodo
      have hlen : (before ++ value.take off).length = total := by omega
      have hpre : before ++ value.take off <+: before ++ value :=
        (prefix_append_right_inj before).mpr ( take_prefix off value)
      rw [← hlen, ← prefix_iff_eq_take.mp hpre]
      exact hlen ▸ h
    | cons f todo =>
      obtain ⟨rfl, hf, hrest⟩ := htodo
      have hstop := hhead f rfl
      by_cases hoff : off < value.length
      · have hfile : (full ++ f :: todo)[st.fi]? = some f := by
          rw [hfi, getElem?_append_right (Nat.le_refl _), Nat.sub_self, getElem?_cons_zero]
        have hpart : st.parts[st.fi]? = some (partOf (before ++ value.take off) f) := by
          rw [h.parts, getElem?_map, hfile, map_some]
        have hbuf : (partOf (before ++ value.take off) f).length = f.stop - f.start := by
          rw [partOf_current hs hstop, length_append, length_drop, length_replicate]
          omega
        have hcond : off < value.length ∧ st.fi < (full ++ f :: todo).length := by
          refine ⟨hoff, ?_⟩
          rw [hfi, length_append, length_cons]
          omega
        rw [if_pos hcond, hfile, bind_eq_bind, bind_some, hpart,
          bind_eq_bind, bind_some, hbuf, h.loaded]
        dsimp only
        generalize hn : min (value.length - off)
          (f.stop - f.start - ((before ++ value.take off).length - f.start)) = n
        have hmore : ((value.drop off).take n).length = n := by
          rw [length_take, length_drop]
          omega
        have hfit : (before ++ value.take off).length + ((value.drop off).take n).length ≤
            f.stop := by omega
        have hnext := h.round hfi hfull hf hrest hs hfit
        have happend : before ++ value.take off ++ (value.drop off).take n =
            before ++ value.take (off + n) := by
          rw [append_assoc, ← take_add]
        rw [setAt_partOf hs hfit, bind_some]
        rw [hmore, happend, h.loaded] at hnext
        rw [happend]
        refine ih hnext ?_
        -- a round that stores nothing leaves a full file
        dsimp only
        rw [length_append, length_cons] at hrounds ⊢
        split <;> omega
      · refine ⟨st, if_neg fun hcond => hoff hcond.1, ?_⟩
        rw [take_of_length_le (show value.length ≤ off by omega)] at h hle
        rw [take_of_length_le hle]
        exact h

theorem foldlM_handleChunk {files : List PackFile} (chunks : List (List UInt8))
    {before : List UInt8} (h : Filling files total st stored)
    (hstored : stored = before.take total) :
    ∃ st', chunks.foldlM (handleChunk files) st = some st' ∧
      Filling files total st' ((before ++ chunks.flatten).take total) := by
  induction chunks generalizing st stored before with
  | nil => exact ⟨st, rfl, by rwa [flatten_nil, append_nil, ← hstored]⟩
  | cons value chunks ih =>
    have hfill : Filling files total st (stored ++ value.take 0) := by
      rwa [take_zero, append_nil]
    obtain ⟨st', hst', h'⟩ := fill_spec hfill
      (show value.length - 0 + (files.length - st.fi) < value.length + files.length + 1 by omega)
    have hbefore : (stored ++ value).take total = (before ++ value).take total := by
      rw [hstored, take_append, take_append, take_take, Nat.min_self, length_take]
      congr 2
      omega
    obtain ⟨st'', hst'', h''⟩ := ih h' hbefore
    refine ⟨st'', ?_, by rwa [flatten_cons, ← append_assoc]⟩
    rw [foldlM_cons]
    change (fill files value _ st 0).bind _ = _
    rw [hst']
    exact hst''

/-! ### The order of the table -/

/-- The files of the table, in some order, lie one behind the other and cover the package. -/
def Tiles (table : List PackFile) (total : ℕ) : Prop :=
  ∃ fs, fs.Perm table ∧ Contiguous 0 fs total

/-- Of two files that begin at one place the empty one is listed first. -/
def Ordered (table : List PackFile) : Prop :=
  table.Pairwise fun a b => a.start = b.start → a.stop = a.start

theorem pairwise_sorted (table : List PackFile) :
    (sorted table).Pairwise fun a b => a.start ≤ b.start := by
  refine (pairwise_mergeSort ?_ ?_ table).imp of_decide_eq_true
  · intro a b c hab hbc
    exact decide_eq_true ((of_decide_eq_true hab).trans (of_decide_eq_true hbc))
  · intro a b
    simpa using Nat.le_total a.start b.start

/-- Files that begin at one place keep their order. -/
theorem filter_sorted (table : List PackFile) (s : ℕ) :
    (sorted table).filter (fun f => f.start = s) = table.filter fun f => f.start = s := by
  have hsub : (table.filter fun f => f.start = s).Sublist (sorted table) := by
    refine List.sublist_mergeSort ?_ ?_ ?_ List.filter_sublist
    · intro a b c hab hbc
      exact decide_eq_true ((of_decide_eq_true hab).trans (of_decide_eq_true hbc))
    · intro a b
      simpa using Nat.le_total a.start b.start
    · refine List.Pairwise.imp_of_mem ?_ (List.pairwise_of_forall (R := fun _ _ => True)
        fun _ _ => trivial)
      intro a b ha hb _
      have ha' : a.start = s := by simpa using (List.mem_filter.mp ha).2
      have hb' : b.start = s := by simpa using (List.mem_filter.mp hb).2
      exact decide_eq_true (by omega)
  have hself : (table.filter fun f => f.start = s).filter (fun f => f.start = s) =
      table.filter fun f => f.start = s := by
    rw [List.filter_filter]
    simp
  have hsub' := hsub.filter fun f => f.start = s
  rw [hself] at hsub'
  refine (hsub'.eq_of_length ?_).symm
  exact (((List.mergeSort_perm table _).filter _).length_eq).symm

theorem pair_sublist_iff (table : List PackFile) {a b : PackFile} (h : a.start = b.start) :
    List.Sublist [a, b] (sorted table) ↔ List.Sublist [a, b] table := by
  have hpair : [a, b].filter (fun f => f.start = a.start) = [a, b] := by simp [h]
  constructor
  · intro hsub
    have hfilter := hsub.filter fun f => f.start = a.start
    rw [hpair, filter_sorted] at hfilter
    exact hfilter.trans filter_sublist
  · intro hsub
    have hfilter := hsub.filter fun f => f.start = a.start
    rw [hpair, ← filter_sorted] at hfilter
    exact hfilter.trans filter_sublist

def Before (a b : ℕ × ℕ) : Prop := a.1 < b.1 ∨ a.1 = b.1 ∧ a.2 ≤ b.2

def PackFile.place (f : PackFile) : ℕ × ℕ := (f.start, f.stop)

theorem Contiguous.congr {gs : List PackFile} (h : fs.map PackFile.place = gs.map PackFile.place)
    (hfs : Contiguous s fs t) : Contiguous s gs t := by
  induction fs generalizing s gs with
  | nil =>
    rw [map_nil] at h
    rw [map_eq_nil_iff.mp h.symm]
    exact hfs
  | cons f fs ih =>
    obtain ⟨g, gs, rfl⟩ := exists_cons_of_ne_nil
      (show gs ≠ [] by rintro rfl; cases h)
    rw [map_cons, map_cons, cons.injEq, PackFile.place, PackFile.place, Prod.mk.injEq] at h
    obtain ⟨⟨hstart, hstop⟩, hrest⟩ := h
    obtain ⟨hs, hle, hcont⟩ := hfs
    exact ⟨hstart ▸ hs, hstart ▸ hstop ▸ hle, ih hrest (hstop ▸ hcont)⟩

/-- Sorting by the starts makes the table contiguous exactly if it lists each empty file
before the one that begins where it does. -/
theorem contiguous_sorted_iff (h : Tiles table total) :
    Contiguous 0 (sorted table) total ↔ Ordered table := by
  obtain ⟨fs, hperm, hcont⟩ := h
  have hsound : ∀ f ∈ table, f.start ≤ f.stop := fun f hf =>
    (hcont.bounds f (hperm.mem_iff.mpr hf)).2.1
  constructor
  · intro hsorted
    rw [Ordered, pairwise_iff_forall_sublist]
    intro a b hsub heq
    have hle := pairwise_iff_forall_sublist.mp hsorted.pairwise
      ((pair_sublist_iff table heq).mpr hsub)
    have := hsound a (hsub.subset mem_cons_self)
    omega
  · intro hordered
    have hsorted : ((sorted table).map PackFile.place).Pairwise Before := by
      rw [pairwise_map, pairwise_iff_forall_sublist]
      intro a b hsub
      have hle := pairwise_iff_forall_sublist.mp (pairwise_sorted table) hsub
      rcases Nat.lt_or_eq_of_le hle with hlt | heq
      · exact .inl hlt
      · have htable := (pair_sublist_iff table heq).mp hsub
        have hempty := pairwise_iff_forall_sublist.mp hordered htable heq
        have := hsound b (htable.subset (by simp))
        refine .inr ⟨heq, ?_⟩
        simp only [PackFile.place]
        omega
    have hfs : (fs.map PackFile.place).Pairwise Before := by
      rw [pairwise_map]
      refine hcont.pairwise.imp_of_mem fun {a b} ha hb hab => ?_
      have := hcont.bounds a ha
      have := hcont.bounds b hb
      simp only [Before, PackFile.place]
      omega
    refine hcont.congr (List.Perm.eq_of_pairwise ?_ hfs hsorted ?_)
    · intro a b _ _ hab hba
      refine Prod.ext ?_ ?_ <;> rcases hab with hab | hab <;> rcases hba with hba | hba <;> omega
    · exact (hperm.trans (mergeSort_perm table _).symm).map _

/-! ### What is handed over -/

/-- For a body as long as the package each file is handed over with its part of the body;
for any other body there is an error. -/
def Delivers (table : List PackFile) (total : ℕ) (chunks : List (List UInt8)) : Prop :=
  (chunks.flatten.length = total →
    ∃ out, fetchRemotePackage table total chunks = some (.ok out) ∧
      (out.map Prod.fst).Perm table ∧
        ∀ x ∈ out, x.2 = (chunks.flatten.drop x.1.start).take (x.1.stop - x.1.start)) ∧
    (chunks.flatten.length ≠ total → ∃ e, fetchRemotePackage table total chunks = some (.error e))

theorem fetch_of_contiguous (h : Contiguous 0 (sorted table) total) (chunks : List (List UInt8)) :
    fetchRemotePackage table total chunks = some
      (if (chunks.flatten.take total).length ≠ total then
        .error (.truncated (chunks.flatten.take total).length total)
      else .ok ((sorted table).zip ((sorted table).map (partOf (chunks.flatten.take total))))) := by
  have hparts : (sorted table).map (fun f => replicate (f.stop - f.start) (0 : UInt8)) =
      (sorted table).map (partOf []) := by
    simp only [← partOf_nil]
  have hreserve := reserve_eq_ok.mpr ⟨h, rfl⟩
  rw [hparts] at hreserve
  have hinit : Filling (sorted table) total ⟨0, 0, (sorted table).map (partOf [])⟩ [] :=
    ⟨⟨[], sorted table, 0, rfl, rfl, rfl, h, Nat.le_refl _, fun _ _ => Nat.zero_le _⟩, rfl, rfl,
      Nat.zero_le _⟩
  obtain ⟨st, hst, hfilled⟩ := foldlM_handleChunk chunks hinit (take_nil).symm
  rw [nil_append] at hfilled
  rw [fetchRemotePackage, hreserve]
  dsimp only
  rw [hst, bind_eq_bind, bind_some, hfilled.loaded, hfilled.parts]
  split <;> rfl

theorem fetch_of_not_contiguous (h : ¬ Contiguous 0 (sorted table) total)
    (chunks : List (List UInt8)) :
    ∃ e, fetchRemotePackage table total chunks = some (.error e) := by
  rw [fetchRemotePackage]
  cases hreserve : reserve (sorted table) total with
  | error e => exact ⟨e, rfl⟩
  | ok parts => exact absurd (reserve_eq_ok.mp hreserve).1 h

/-- Whatever the table, how the body is cut into chunks makes no difference. -/
theorem fetch_any_cut (table : List PackFile) (total : ℕ) (chunks : List (List UInt8)) :
    fetchRemotePackage table total chunks = fetchRemotePackage table total [chunks.flatten] := by
  by_cases h : Contiguous 0 (sorted table) total
  · simp [fetch_of_contiguous h]
  · rw [fetchRemotePackage, fetchRemotePackage]
    cases hreserve : reserve (sorted table) total with
    | error e => rfl
    | ok parts => exact absurd (reserve_eq_ok.mp hreserve).1 h

/-- A table that covers the package is loaded as it should be exactly if it is in order and
the body is not too long; if it is not in order there is an error in any case. -/
theorem delivers_iff {table : List PackFile} {total : ℕ} (h : Tiles table total)
    (chunks : List (List UInt8)) : Delivers table total chunks ↔
      Ordered table ∧ chunks.flatten.length ≤ total ∨
        ¬ Ordered table ∧ chunks.flatten.length ≠ total := by
  by_cases hordered : Ordered table
  · have hcont := (contiguous_sorted_iff h).mpr hordered
    have hfetch := fetch_of_contiguous hcont chunks
    have hlen : (chunks.flatten.take total).length = min total chunks.flatten.length :=
      List.length_take
    rw [Delivers, hfetch]
    simp only [hordered, true_and, not_true, false_and, or_false]
    constructor
    · rintro ⟨-, herror⟩
      by_contra hlong
      obtain ⟨e, he⟩ := herror (by omega)
      rw [if_neg (by omega)] at he
      cases he
    · intro hle
      refine ⟨fun heq => ?_, fun hne => ⟨_, by rw [if_pos (by omega)]⟩⟩
      rw [if_neg (by omega), List.take_of_length_le (by omega)]
      refine ⟨_, rfl, ?_, fun x hx => ?_⟩
      · rw [List.map_fst_zip (by rw [List.length_map])]
        exact List.mergeSort_perm table _
      · rw [← List.map_prod_left_eq_zip, List.mem_map] at hx
        obtain ⟨f, hf, rfl⟩ := hx
        have := hcont.bounds f hf
        exact partOf_full (by omega)
  · have hcont := fun hsorted => hordered ((contiguous_sorted_iff h).mp hsorted)
    obtain ⟨e, he⟩ := fetch_of_not_contiguous hcont chunks
    rw [Delivers, he]
    simp only [hordered, false_and, not_false_iff, true_and, false_or]
    refine ⟨fun hdelivers heq => ?_, fun hne => ⟨fun heq => absurd heq hne, fun _ => ⟨e, rfl⟩⟩⟩
    obtain ⟨out, hout, -⟩ := hdelivers.1 heq
    cases hout

/-- A package of two files, one of them empty, in two chunks. -/
theorem delivers_iff_sample : Delivers [⟨"a", 0, 2⟩, ⟨"b", 2, 2⟩] 2 [[7], [8]] := by
  have htiles : Tiles [⟨"a", 0, 2⟩, ⟨"b", 2, 2⟩] 2 :=
    ⟨_, List.Perm.refl _, ⟨rfl, by decide, rfl, by decide, rfl⟩⟩
  refine (delivers_iff htiles _).mpr (.inl ⟨?_, by decide⟩)
  unfold Ordered
  decide

/-- A body with a byte too many is handed over all the same. -/
theorem long_body_handed_over :
    ∃ out, fetchRemotePackage [⟨"a", 0, 2⟩] 2 [[7], [8, 9]] = some (.ok out) :=
  ⟨[(⟨"a", 0, 2⟩, [7, 8])], by rw [fetchRemotePackage, sorted, mergeSort_singleton]; rfl⟩

end Bootbox.Android
