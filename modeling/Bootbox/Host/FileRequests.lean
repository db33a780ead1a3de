import Bootbox.Lib.FileTree
import Bootbox.Lib.ShortReads
import Mathlib.Algebra.Group.Nat.Defs

/-!
Requests that put a file under a name: renaming, importing and writing back in the Files
extension (`FileProviderExtension.swift`), and opening a file into the app
(`ImportManager.swift`). Each removes what has the name and then moves or copies the file
there, and any one of its file operations may fail.

What is removed first may be the file itself, when it already has that name, or a folder
that it is in. `itemChanged` ignores both failures, so the item is gone when the copy fails.
And `ImportManager` falls back to a stream, which takes an input that cannot be opened
for an empty one and an output that cannot be opened for a failure only at the first byte.
-/

namespace Bootbox.Host.Files

open Lib List Option

abbrev Path := List String

abbrev Disk := FileTree String

/-- A file operation of a request; each is made at most once. The `k`th buffer may fail to be
read, or to be written after some of its bytes. -/
inductive FileOp
  | remove
  | copy
  | move
  | inputStream
  | createFile
  | outputStream
  | openInput
  | openOutput
  | read (k : ℕ)
  | write (k count : ℕ)
deriving DecidableEq

/-- What a request depends on: where the names in the folder of imports lead, which operation
fails, if any, and how much reads and writes of a stream get done. -/
structure Env where
  place : String → Path
  fault : Option FileOp
  reads : Reads
  writes : Reads

namespace Env

variable (env : Env)

/-- The operation, unless it is the one that fails. -/
def attempt {α : Type} (op : FileOp) (result : Option α) : Option α :=
  if env.fault = some op then none else result

/-- `if fm.fileExists(atPath: dst.path) { try fm.removeItem(at: dst) }` -/
def clear (disk : Disk) (dst : Path) : Option Disk :=
  if (disk.node dst).isSome then env.attempt .remove (disk.remove dst) else some disk

end Env

/-- `url.lastPathComponent` -/
def lastPathComponent (url : Path) : String := url.getLast?.getD "/"

/-- Put something under a name after removing what has it: the disk that is left, and whether
success is reported. -/
def transfer (env : Env) (op : FileOp) (act : Disk → Option Disk) (disk : Disk) (dst : Path) :
    Disk × Bool :=
  match env.clear disk dst with
  | none => (disk, false)
  | some cleared =>
    match env.attempt op (act cleared) with
    | none => (cleared, false)
    | some done => (done, true)

def renameItem (env : Env) (disk : Disk) (identifier itemName : String) : Disk × Bool :=
  let src := env.place identifier
  let dst := env.place itemName
  transfer env .move (·.move src dst) disk dst

def importDocument (env : Env) (disk : Disk) (fileURL : Path) : Disk × Bool :=
  let dst := env.place (lastPathComponent fileURL)
  transfer env .copy (·.copy fileURL dst) disk dst

inductive Identifier
  | rootContainer
  | item (name : String)
deriving DecidableEq

/-- `persistentIdentifierForItem`: the folder that the file is in, in a storage of one folder
for each item. -/
def persistentIdentifierForItem (storage url : Path) : Option Identifier :=
  if url.dropLast = storage then some .rootContainer
  else if url = [] then none
  else (("/" :: url)[url.length - 1]?).map .item

/-- `itemChanged`, which reports nothing. -/
def itemChanged (env : Env) (storage : Path) (disk : Disk) (url : Path) : Disk :=
  match persistentIdentifierForItem storage url with
  | some (.item identifier) =>
    let dst := env.place identifier
    let removed := (env.attempt .remove (disk.remove dst)).getD disk
    (env.attempt .copy (removed.copy url dst)).getD removed
  | _ => disk

/-- The loop over the buffers of the input: whether it ends without a failure, and what it
has written. Nothing can be written to a stream that did not open. -/
def pump (env : Env) (isOpen : Bool) : ℕ → List (List UInt8) → Bool × List UInt8
  | k, [] => (env.fault ≠ some (.read k), [])
  | k, buf :: rest =>
    if env.fault = some (.read k) ∨ isOpen = false then (false, [])
    else
      match env.fault with
      | some (.write j count) =>
        if j = k then (false, buf.take count)
        else
          let (ok, out) := pump env isOpen (k + 1) rest
          (ok, (env.writes.pieces buf buf.length 0 buf.length).flatten ++ out)
      | _ =>
        let (ok, out) := pump env isOpen (k + 1) rest
        (ok, (env.writes.pieces buf buf.length 0 buf.length).flatten ++ out)

/-- The fallback of `handle`. `input.hasBytesAvailable` is false for a stream that did not open. -/
def stream (env : Env) (disk : Disk) (url dest : Path) : Disk × Bool :=
  if env.fault = some .inputStream then (disk, false)
  else
    let created := (env.attempt .createFile (disk.write dest [])).getD disk
    if env.fault = some .outputStream then (created, false)
    else
      let opened := env.attempt .openOutput (created.write dest [])
      let disk := opened.getD created
      match env.attempt .openInput (disk.content url) with
      | none => (disk, true)
      | some bytes =>
        let (ok, out) := pump env opened.isSome 0 (env.reads.pieces bytes (2 ^ 20) 0 bytes.length)
        ((disk.write dest out).getD disk, ok)

def handle (env : Env) (disk : Disk) (url : Path) : Disk × Bool :=
  let dest := env.place (lastPathComponent url)
  match env.clear disk dest with
  | none => stream env disk url dest
  | some cleared =>
    match env.attempt .copy (cleared.copy url dest) with
    | some copied => (copied, true)
    | none => stream env cleared url dest

inductive Request
  | renameItem (identifier itemName : String)
  | importDocument (fileURL : Path)
  | itemChanged (url : Path)
  | handle (url : Path)

/-- The file is still there under its old or its new name, and under the new one if the request
reports success. -/
def Survives (bytes : List UInt8) (old new : Path) (result : Disk × Bool) : Prop :=
  (result.1.content old = some bytes ∨ result.1.content new = some bytes) ∧
    (result.2 = true → result.1.content new = some bytes)

/-- No request destroys the file that it is about. A file that is written back is afterwards
as it was, or as it was edited. -/
def Safe (env : Env) (storage : Path) (disk : Disk) : Request → Prop
  | .renameItem identifier itemName =>
    ∀ bytes, disk.content (env.place identifier) = some bytes →
      Survives bytes (env.place identifier) (env.place itemName)
        (Files.renameItem env disk identifier itemName)
  | .importDocument url =>
    ∀ bytes, disk.content url = some bytes →
      Survives bytes url (env.place (lastPathComponent url)) (Files.importDocument env disk url)
  | .itemChanged url =>
    ∀ identifier bytes, persistentIdentifierForItem storage url = some (.item identifier) →
      disk.content (env.place identifier) = some bytes →
        (Files.itemChanged env storage disk url).content (env.place identifier) = some bytes ∨
          ∃ edited, disk.content url = some edited ∧
            (Files.itemChanged env storage disk url).content (env.place identifier) = some edited
  | .handle url =>
    ∀ bytes, disk.content url = some bytes →
      Survives bytes url (env.place (lastPathComponent url)) (Files.handle env disk url)

/-- When opening a file with these bytes keeps it. With a name that nothing can be written to,
the input must open and, if it is empty, something must fail. With the name of the file or of
a folder above it, all depends on whether there was anything to lose. -/
def HandleSpares (env : Env) (disk : Disk) (url : Path) (bytes : List UInt8) : Prop :=
  let dest := env.place (lastPathComponent url)
  if ¬ disk.HasParent dest then
    env.fault ≠ some .openInput ∧ (bytes = [] →
      env.fault = some .inputStream ∨ env.fault = some .outputStream ∨ env.fault = some (.read 0))
  else if dest <+: url then
    if env.fault = some .remove then if dest = url then bytes = [] else bytes ≠ []
    else bytes = [] ∧ env.fault ≠ some .inputStream
  else disk.node dest = some .dir → env.fault = some .remove → bytes ≠ []

/-- When a request is safe. For renaming and importing: the new name is not that of the file
or of a folder that it is in, or what has it cannot be removed. -/
def Spares (env : Env) (storage : Path) (disk : Disk) : Request → Prop
  | .renameItem identifier itemName =>
    (disk.content (env.place identifier)).isSome →
      env.place itemName <+: env.place identifier →
        env.place itemName = [] ∨ env.fault = some .remove
  | .importDocument url =>
    (disk.content url).isSome → env.place (lastPathComponent url) <+: url →
      env.place (lastPathComponent url) = [] ∨ env.fault = some .remove
  | .itemChanged url =>
    ∀ identifier, persistentIdentifierForItem storage url = some (.item identifier) →
      (disk.content (env.place identifier)).isSome →
        env.fault = some .remove ∨
          env.fault ≠ some .copy ∧ (disk.content url).isSome ∧ env.place identifier ≠ url
  | .handle url => ∀ bytes, disk.content url = some bytes → HandleSpares env disk url bytes

/-! ### The removal -/

section Clear

variable {env : Env} {disk cleared : Disk} {src dst : Path} {bytes : List UInt8}

theorem attempt_eq {α : Type} (op : FileOp) (result : Option α) (h : env.fault ≠ some op) :
    env.attempt op result = result := if_neg h

theorem attempt_fault {α : Type} {op : FileOp} (result : Option α) (h : env.fault = some op) :
    env.attempt op result = none := if_pos h

/-- What is elsewhere is still there. -/
theorem content_clear (h : env.clear disk dst = some cleared) (hpre : ¬ dst <+: src) :
    cleared.content src = disk.content src := by
  rw [Env.clear] at h
  split at h
  · rw [Env.attempt] at h
    split at h
    · cases h
    · exact FileTree.content_remove h hpre
  · cases h
    rfl

theorem node_clear (h : env.clear disk dst = some cleared) : cleared.node dst = none := by
  rw [Env.clear] at h
  split at h
  case isTrue =>
    rw [Env.attempt] at h
    split at h
    · cases h
    · rw [FileTree.node_remove h, if_pos prefix_rfl]
  case isFalse hnone =>
    cases h
    simpa using hnone

theorem hasParent_clear (h : env.clear disk dst = some cleared) (hparent : disk.HasParent dst) :
    cleared.HasParent dst := by
  rw [Env.clear] at h
  split at h
  · rw [Env.attempt] at h
    split at h
    · cases h
    · exact FileTree.hasParent_remove h
  · cases h
    exact hparent

theorem clear_of_prefix (env : Env) (hsrc : disk.content src = some bytes) (hpre : dst <+: src) :
    if dst = [] ∨ env.fault = some .remove then env.clear disk dst = none
    else ∃ cleared, env.clear disk dst = some cleared ∧ cleared.node src = none := by
  have hnode : (disk.node dst).isSome := by
    obtain ⟨r, rfl⟩ := hpre
    rcases eq_or_ne r [] with rfl | hr
    · rw [append_nil] at hsrc
      rw [FileTree.node_of_content hsrc]
      rfl
    · rw [FileTree.dir_of_isSome hr (by rw [FileTree.node_of_content hsrc]; rfl)]
      rfl
  rw [Env.clear, if_pos hnode]
  split
  case isTrue h =>
    rcases h with rfl | h
    · have hroot : disk.remove [] = none := by simp [FileTree.remove]
      rw [hroot, Env.attempt, ite_self]
    · exact attempt_fault _ h
  case isFalse h =>
    rw [not_or] at h
    obtain ⟨cleared, hremove⟩ :=
      isSome_iff_exists.mp (FileTree.remove_isSome_iff.mpr ⟨h.1, hnode⟩)
    rw [attempt_eq _ _ h.2]
    exact ⟨cleared, hremove, (FileTree.node_remove hremove src).trans (if_pos hpre)⟩

theorem content_none {disk : Disk} {p : Path} (h : disk.node p = none) : disk.content p = none := by
  rw [FileTree.content, h]

/-- Renaming and importing keep the file unless it is removed first. -/
theorem survives_transfer_iff (env : Env) (op : FileOp) {act : Disk → Option Disk}
    (hact : ∀ {d d'}, act d = some d' → d'.content dst = d.content src)
    (hgone : ∀ {d}, d.node src = none → act d = none) (hsrc : disk.content src = some bytes) :
    Survives bytes src dst (transfer env op act disk dst) ↔
      (dst <+: src → dst = [] ∨ env.fault = some .remove) := by
  rw [transfer]
  by_cases hpre : dst <+: src
  · have hclear := clear_of_prefix env hsrc hpre
    by_cases hkept : dst = [] ∨ env.fault = some .remove
    · rw [if_pos hkept] at hclear
      rw [hclear]
      exact iff_of_true ⟨.inl hsrc, fun h => nomatch h⟩ fun _ => hkept
    · rw [if_neg hkept] at hclear
      obtain ⟨cleared, hclear, hnode⟩ := hclear
      have hfail : env.attempt op (act cleared) = none := by
        rw [hgone hnode, Env.attempt, ite_self]
      rw [hclear]
      dsimp only
      rw [hfail]
      refine iff_of_false (fun h => ?_) fun h => hkept (h hpre)
      rcases h.1 with h | h
      · rw [content_none hnode] at h
        cases h
      · rw [content_none (node_clear hclear)] at h
        cases h
  · refine iff_of_true ?_ fun h => absurd h hpre
    cases hclear : env.clear disk dst with
    | none => exact ⟨.inl hsrc, fun h => nomatch h⟩
    | some cleared =>
      have hkept := (content_clear hclear hpre).trans hsrc
      dsimp only
      cases hdone : env.attempt op (act cleared) with
      | none => exact ⟨.inl hkept, fun h => nomatch h⟩
      | some done =>
        have hact' : act cleared = some done := by
          rw [Env.attempt] at hdone
          split at hdone
          · cases hdone
          · exact hdone
        have hnew := (hact hact').trans hkept
        exact ⟨.inr hnew, fun _ => hnew⟩

end Clear

section Requests

variable {env : Env} {storage : Path} {disk : Disk}

theorem copy_eq_none {d : Disk} {src : Path} (dst : Path) (h : d.node src = none) :
    d.copy src dst = none := by
  rw [FileTree.copy, dif_neg]
  rintro ⟨hsome, -⟩
  rw [h] at hsome
  cases hsome

theorem safe_renameItem_iff (identifier itemName : String) :
    Safe env storage disk (.renameItem identifier itemName) ↔
      Spares env storage disk (.renameItem identifier itemName) := by
  simp only [Safe, Spares]
  cases hsrc : disk.content (env.place identifier) with
  | none => simp
  | some bytes =>
    simp only [some.injEq, forall_eq', isSome_some, true_implies]
    refine survives_transfer_iff env .move (fun h => FileTree.content_move h) (fun h => ?_) hsrc
    rw [FileTree.move, copy_eq_none _ h]
    rfl

theorem safe_importDocument_iff (url : Path) :
    Safe env storage disk (.importDocument url) ↔
      Spares env storage disk (.importDocument url) := by
  simp only [Safe, Spares]
  cases hsrc : disk.content url with
  | none => simp
  | some bytes =>
    simp only [some.injEq, forall_eq', isSome_some, true_implies]
    exact survives_transfer_iff env .copy (fun h => FileTree.content_copy h)
      (fun h => copy_eq_none _ h) hsrc

theorem content_writeBack_iff {dst url : Path} {bytes : List UInt8}
    (hdst : disk.content dst = some bytes) {after : Disk}
    (hafter : after = (env.attempt .copy
      (((env.attempt .remove (disk.remove dst)).getD disk).copy url dst)).getD
        ((env.attempt .remove (disk.remove dst)).getD disk)) :
    (after.content dst = some bytes ∨
        ∃ edited, disk.content url = some edited ∧ after.content dst = some edited) ↔
      env.fault = some .remove ∨
        env.fault ≠ some .copy ∧ (disk.content url).isSome ∧ dst ≠ url := by
  have hnode := FileTree.node_of_content hdst
  have hroot : dst ≠ [] := by
    rintro rfl
    rw [disk.root] at hnode
    cases hnode
  by_cases hfault : env.fault = some .remove
  · -- the item is still in the way of the copy
    have hcopy : disk.copy url dst = none := by
      rw [FileTree.copy, dif_neg]
      rintro ⟨-, hfree, -⟩
      rw [hnode] at hfree
      cases hfree
    rw [attempt_fault _ hfault, getD_none, hcopy, Env.attempt, ite_self, getD_none] at hafter
    exact iff_of_true (.inl (hafter ▸ hdst)) (.inl hfault)
  · obtain ⟨removed, hremove⟩ := isSome_iff_exists.mp
      (FileTree.remove_isSome_iff.mpr ⟨hroot, by rw [hnode]; rfl⟩)
    rw [attempt_eq _ _ hfault, hremove, getD_some] at hafter
    have hgone : removed.content dst = none :=
      FileTree.content_remove_of_prefix hremove prefix_rfl
    have hparent := FileTree.hasParent_remove hremove
    have hedited : removed.content url = if dst = url then none else disk.content url := by
      split
      case isTrue heq => rw [← heq, hgone]
      case isFalse hne =>
        by_cases hpre : dst <+: url
        · have hnone : disk.node url = none := by
            by_contra hsome
            exact FileTree.not_prefix_of_content hdst (isSome_iff_ne_none.mpr hsome) hne hpre
          rw [FileTree.content_remove_of_prefix hremove hpre, content_none hnone]
        · exact FileTree.content_remove hremove hpre
    have hfree : removed.node dst = none := by
      rw [FileTree.node_remove hremove, if_pos prefix_rfl]
    by_cases hcopy : env.fault = some .copy
    · rw [attempt_fault _ hcopy, getD_none] at hafter
      simp [hafter, hgone, hcopy]
    rw [attempt_eq _ _ hcopy] at hafter
    simp only [hfault, hcopy, ne_eq, not_false_eq_true, true_and, false_or]
    cases hurl : removed.content url with
    | none =>
      -- what is copied, if anything, is no file
      have hnone : after.content dst = none := by
        cases hdone : removed.copy url dst with
        | none => rw [hafter, hdone, getD_none, hgone]
        | some copied => rw [hafter, hdone, getD_some, FileTree.content_copy hdone, hurl]
      rw [hurl] at hedited
      refine iff_of_false (by simp [hnone]) fun h => ?_
      rw [if_neg h.2] at hedited
      rw [← hedited] at h
      cases h.1
    | some edited =>
      obtain ⟨copied, hdone⟩ := isSome_iff_exists.mp
        ((FileTree.copy_isSome_iff hurl hparent).mpr hfree)
      rw [hdone, getD_some] at hafter
      have hne : dst ≠ url := by
        rintro rfl
        rw [hgone] at hurl
        cases hurl
      rw [hurl, if_neg hne] at hedited
      have hnew : after.content dst = some edited := by
        rw [hafter, FileTree.content_copy hdone, hurl]
      exact iff_of_true (.inr ⟨edited, hedited.symm, hnew⟩) ⟨by rw [← hedited]; rfl, hne⟩

theorem safe_itemChanged_iff (url : Path) :
    Safe env storage disk (.itemChanged url) ↔ Spares env storage disk (.itemChanged url) := by
  simp only [Safe, Spares]
  refine forall_congr' fun identifier => ?_
  have hiff : ∀ bytes, persistentIdentifierForItem storage url = some (.item identifier) →
      disk.content (env.place identifier) = some bytes →
        ((itemChanged env storage disk url).content (env.place identifier) = some bytes ∨
          (∃ edited, disk.content url = some edited ∧
            (itemChanged env storage disk url).content (env.place identifier) = some edited) ↔
          env.fault = some .remove ∨
            env.fault ≠ some .copy ∧ (disk.content url).isSome ∧ env.place identifier ≠ url) := by
    intro bytes hid hdst
    refine content_writeBack_iff hdst ?_
    rw [itemChanged, hid]
  constructor
  · intro h hid hsome
    obtain ⟨bytes, hdst⟩ := isSome_iff_exists.mp hsome
    exact (hiff bytes hid hdst).mp (h bytes hid hdst)
  · intro h bytes hid hdst
    exact (hiff bytes hid hdst).mpr (h hid (by rw [hdst]; rfl))

end Requests

/-! ### The stream -/

section Stream

variable {env : Env} {disk : Disk} {url dest : Path} {bytes : List UInt8}

theorem pieces_eq_nil_iff (bytes : List UInt8) :
    env.reads.pieces bytes (2 ^ 20) 0 bytes.length = [] ↔ bytes = [] := by
  have hflat := env.reads.flatten_pieces bytes (Nat.two_pow_pos 20) 0 bytes.length
  rw [drop_zero, take_length] at hflat
  constructor
  · intro h
    rw [← hflat, h]
    rfl
  · rintro rfl
    rw [Reads.pieces, dif_pos length_nil]

theorem pump_closed (env : Env) (bufs : List (List UInt8)) :
    pump env false 0 bufs = (decide (bufs = [] ∧ env.fault ≠ some (.read 0)), []) := by
  cases bufs with
  | nil => simp [pump]
  | cons buf rest => simp [pump]

/-- With no failure in it, the loop writes all that there is to read. -/
theorem pump_complete (hread : ∀ k, env.fault ≠ some (.read k))
    (hwrite : ∀ k count, env.fault ≠ some (.write k count)) (k : ℕ) (bufs : List (List UInt8)) :
    pump env true k bufs = (true, bufs.flatten) := by
  induction bufs generalizing k with
  | nil => simp [pump, hread]
  | cons buf rest ih =>
    have hflat : (env.writes.pieces buf buf.length 0 buf.length).flatten = buf := by
      rcases eq_or_ne buf [] with rfl | hbuf
      · rw [Reads.pieces, dif_pos length_nil]
        rfl
      · rw [env.writes.flatten_pieces buf (length_pos_iff.mpr hbuf), drop_zero, take_length]
    rw [pump, if_neg (by simp [hread]), flatten_cons]
    split
    case h_1 j count hfault => exact absurd hfault (hwrite j count)
    case h_2 =>
      rw [ih]
      simp [hflat]

/-- A stream to where nothing can be written changes nothing, and reports success if it
finds nothing to write. -/
theorem stream_blocked (hblocked : ¬ (disk.HasParent dest ∧ disk.node dest ≠ some .dir))
    (hurl : disk.content url = some bytes) :
    stream env disk url dest = (disk,
      if env.fault = some .inputStream ∨ env.fault = some .outputStream then false
      else if env.fault = some .openInput then true
      else decide (bytes = [] ∧ env.fault ≠ some (.read 0))) := by
  have hwrite : ∀ b, disk.write dest b = none := by
    intro b
    rw [FileTree.write, dif_neg hblocked]
  have hattempt : ∀ op, env.attempt op (none : Option Disk) = none := by
    intro op
    rw [Env.attempt, ite_self]
  simp only [stream, hwrite, hattempt, getD_none]
  by_cases hinput : env.fault = some .inputStream
  · rw [if_pos hinput, if_pos (.inl hinput)]
  by_cases houtput : env.fault = some .outputStream
  · rw [if_neg hinput, if_pos houtput, if_pos (.inr houtput)]
  rw [if_neg hinput, if_neg houtput, if_neg (not_or.mpr ⟨hinput, houtput⟩), hurl, Env.attempt]
  by_cases hopen : env.fault = some .openInput
  · rw [if_pos hopen, if_pos hopen]
  · rw [if_neg hopen, if_neg hopen]
    simp only [isSome_none, pump_closed, pieces_eq_nil_iff, ne_eq]

theorem hasParent_emptied {emptied : Disk} (hparent : disk.HasParent dest)
    (h : ∀ q, emptied.node q = if q = dest then some (.file []) else disk.node q) :
    emptied.HasParent dest := by
  refine ⟨hparent.1, ?_⟩
  rw [h, if_neg, hparent.2]
  intro heq
  have hlength := congrArg length heq
  have hpos := length_pos_iff.mpr hparent.1
  rw [length_dropLast] at hlength
  omega

theorem exists_write (hparent : disk.HasParent dest) (hdir : disk.node dest ≠ some .dir)
    (bytes : List UInt8) : ∃ written, disk.write dest bytes = some written :=
  isSome_iff_exists.mp (FileTree.write_isSome_iff.mpr ⟨hparent, hdir⟩)

theorem stream_writable (url : Path) (hparent : disk.HasParent dest)
    (hdir : disk.node dest ≠ some .dir)
    (hinput : env.fault ≠ some .inputStream) :
    ∃ emptied : Disk,
      (∀ q, emptied.node q = if q = dest then some (.file []) else disk.node q) ∧
      stream env disk url dest =
        if env.fault = some .outputStream then (emptied, false)
        else
          match env.attempt .openInput (emptied.content url) with
          | none => (emptied, true)
          | some bytes =>
            let (ok, out) := pump env (env.fault ≠ some .openOutput) 0
              (env.reads.pieces bytes (2 ^ 20) 0 bytes.length)
            ((emptied.write dest out).getD emptied, ok) := by
  obtain ⟨created, hcreated⟩ := exists_write hparent hdir []
  have hnode := FileTree.node_write hcreated
  rw [stream, if_neg hinput]
  by_cases houtput : env.fault = some .outputStream
  · refine ⟨created, hnode, ?_⟩
    simp [houtput, Env.attempt, hcreated]
  by_cases hopen : env.fault = some .openOutput
  · refine ⟨created, hnode, ?_⟩
    simp [hopen, Env.attempt, hcreated]
  by_cases hcreate : env.fault = some .createFile
  · refine ⟨created, hnode, ?_⟩
    simp [hcreate, Env.attempt, hcreated]
  · obtain ⟨opened, hopened⟩ := exists_write (hasParent_emptied hparent hnode)
      (by rw [hnode, if_pos rfl]; simp) []
    refine ⟨opened, fun q => ?_, ?_⟩
    · rw [FileTree.node_write hopened, hnode]
      split <;> rfl
    · simp [houtput, hopen, hcreate, Env.attempt, hcreated, hopened]

end Stream

section Handle

variable {env : Env} {disk : Disk} {url dest : Path} {bytes : List UInt8}

theorem content_emptied {emptied : Disk}
    (h : ∀ q, emptied.node q = if q = dest then some (.file []) else disk.node q) (q : Path) :
    emptied.content q = if q = dest then some [] else disk.content q := by
  split
  case isTrue heq => rw [FileTree.content, h, if_pos heq]
  case isFalse hne => exact FileTree.content_congr ((h q).trans (if_neg hne))

/-- Nothing can be written, so all depends on whether success is reported. -/
theorem survives_blocked_iff (hblocked : ¬ (disk.HasParent dest ∧ disk.node dest ≠ some .dir))
    (hurl : disk.content url = some bytes) :
    Survives bytes url dest (stream env disk url dest) ↔
      env.fault ≠ some .openInput ∧ (bytes = [] → env.fault = some .inputStream ∨
        env.fault = some .outputStream ∨ env.fault = some (.read 0)) := by
  have hnone : disk.content dest = none := by
    cases hdest : disk.content dest with
    | none => rfl
    | some b =>
      have hnode := FileTree.node_of_content hdest
      refine absurd ⟨FileTree.hasParent_of_isSome ?_ (by rw [hnode]; rfl), ?_⟩ hblocked
      · rintro rfl
        rw [disk.root] at hnode
        cases hnode
      · rw [hnode]
        simp
  rw [stream_blocked hblocked hurl, Survives]
  simp only [hurl, hnone, true_or, true_and, reduceCtorEq, imp_false]
  split_ifs with h₁ h₂
  · rcases h₁ with h | h <;> simp [h]
  · simp [h₂]
  · rw [not_or] at h₁
    simp [h₁, h₂]

theorem survives_stream (hparent : disk.HasParent dest) (hdir : disk.node dest ≠ some .dir)
    (hne : url ≠ dest) (hurl : disk.content url = some bytes)
    (hfault : env.fault = some .remove ∨ env.fault = some .copy) :
    Survives bytes url dest (stream env disk url dest) := by
  have hno : ∀ op, op ≠ .remove → op ≠ .copy → env.fault ≠ some op := by
    intro op hremove hcopy hop
    rcases hfault with h | h
    · exact hremove (some.inj (hop.symm.trans h))
    · exact hcopy (some.inj (hop.symm.trans h))
  obtain ⟨emptied, hnode, hstream⟩ := stream_writable url hparent hdir
    (hno .inputStream (by simp) (by simp))
  have hflat := env.reads.flatten_pieces bytes (Nat.two_pow_pos 20) 0 bytes.length
  rw [drop_zero, take_length] at hflat
  have hcontent : emptied.content url = some bytes := by
    rw [content_emptied hnode, if_neg hne, hurl]
  rw [if_neg (hno .outputStream (by simp) (by simp)), hcontent,
    attempt_eq _ _ (hno .openInput (by simp) (by simp))] at hstream
  have hopen : decide (env.fault ≠ some .openOutput) = true :=
    decide_eq_true (hno .openOutput (by simp) (by simp))
  simp only [hopen, pump_complete (fun k => hno (.read k) (by simp) (by simp))
    (fun k count => hno (.write k count) (by simp) (by simp)), hflat] at hstream
  obtain ⟨written, hwritten⟩ := exists_write (hasParent_emptied hparent hnode)
    (by rw [hnode, if_pos rfl]; simp) bytes
  rw [hstream, hwritten, getD_some]
  exact ⟨.inr (FileTree.content_write hwritten), fun _ => FileTree.content_write hwritten⟩

theorem survives_emptied_iff (hparent : disk.HasParent dest) (hdir : disk.node dest ≠ some .dir)
    (hinput : env.fault ≠ some .inputStream) (hurl : url ≠ dest → disk.content url = none) :
    Survives bytes url dest (stream env disk url dest) ↔ bytes = [] := by
  obtain ⟨emptied, hnode, hstream⟩ := stream_writable url hparent hdir hinput
  have hcontent := content_emptied hnode
  have hdest : emptied.content dest = some [] := by rw [hcontent, if_pos rfl]
  -- however the stream ends, the output is empty
  have hleft : ∃ ok, ∃ left : Disk, stream env disk url dest = (left, ok) ∧
      left.content dest = some [] ∧ (url ≠ dest → left.content url = none) := by
    have hurl' : url ≠ dest → emptied.content url = none := by
      intro hne
      rw [hcontent, if_neg hne, hurl hne]
    rw [hstream]
    split
    · exact ⟨_, emptied, rfl, hdest, hurl'⟩
    · cases hread : env.attempt .openInput (emptied.content url) with
      | none => exact ⟨_, emptied, rfl, hdest, hurl'⟩
      | some b =>
        have hb : emptied.content url = some b := by
          rw [Env.attempt] at hread
          split at hread
          · cases hread
          · exact hread
        have heq : url = dest := by
          by_contra hne
          rw [hurl' hne] at hb
          cases hb
        rw [heq, hdest] at hb
        cases hb
        have hpieces : env.reads.pieces ([] : List UInt8) (2 ^ 20) 0 0 = [] :=
          (pieces_eq_nil_iff []).mpr rfl
        obtain ⟨written, hwritten⟩ := exists_write (hasParent_emptied hparent hnode)
          (by rw [hnode, if_pos rfl]; simp) []
        refine ⟨decide (env.fault ≠ some (.read 0)), written, ?_, FileTree.content_write hwritten,
          fun hne => absurd heq hne⟩
        dsimp only [length_nil]
        rw [hpieces]
        simp [pump, hwritten]
  obtain ⟨ok, left, hstream', hnew, hold⟩ := hleft
  rw [hstream', Survives]
  simp only [hnew, some.injEq]
  constructor
  · rintro ⟨h | h, -⟩
    · by_cases hne : url = dest
      · rw [hne, hnew] at h
        exact (some.inj h).symm
      · rw [hold hne] at h
        cases h
    · exact h.symm
  · rintro rfl
    exact ⟨.inr rfl, fun _ => rfl⟩

theorem safe_handle_iff {storage : Path} (url : Path) :
    Safe env storage disk (.handle url) ↔ Spares env storage disk (.handle url) := by
  simp only [Safe, Spares]
  refine forall_congr' fun bytes => forall_congr' fun hurl => ?_
  rw [HandleSpares]
  generalize hdest : env.place (lastPathComponent url) = dest
  have hhandle : ∀ cleared, env.clear disk dest = some cleared →
      env.attempt .copy (cleared.copy url dest) = none →
        handle env disk url = stream env cleared url dest := by
    intro cleared hclear hcopy
    rw [handle, hdest, hclear]
    dsimp only
    rw [hcopy]
  have hkept : env.clear disk dest = none → handle env disk url = stream env disk url dest := by
    intro hclear
    rw [handle, hdest, hclear]
  split
  case isTrue hparent =>
    have hstream : handle env disk url = stream env disk url dest := by
      by_cases hroot : dest = []
      · have hclear := clear_of_prefix env hurl (hroot ▸ nil_prefix)
        rw [if_pos (.inl hroot)] at hclear
        exact hkept hclear
      · have hnone : (disk.node dest).isSome = false := by
          rw [Bool.eq_false_iff]
          exact fun hsome => hparent (FileTree.hasParent_of_isSome hroot hsome)
        refine hhandle disk (by rw [Env.clear, hnone]; rfl) ?_
        rw [FileTree.copy, dif_neg fun h => hparent h.2.2.1, Env.attempt, ite_self]
    rw [hstream]
    exact survives_blocked_iff (fun h => hparent h.1) hurl
  case isFalse hparent =>
    rw [not_not] at hparent
    split
    case isTrue hpre =>
      have hclear := clear_of_prefix env hurl hpre
      split
      case isTrue hfault =>
        rw [if_pos (.inr hfault)] at hclear
        rw [hkept hclear]
        split
        case isTrue heq =>
          -- the file itself is emptied
          refine survives_emptied_iff hparent ?_ (by simp [hfault]) fun hne => absurd heq.symm hne
          rw [heq, FileTree.node_of_content hurl]
          simp
        case isFalse hne =>
          have hdir : disk.node dest = some .dir := by
            obtain ⟨r, rfl⟩ := hpre
            refine FileTree.dir_of_isSome (fun hr => hne ?_)
              (by rw [FileTree.node_of_content hurl]; rfl)
            rw [hr, append_nil]
          rw [survives_blocked_iff (fun h => h.2 hdir) hurl]
          simp [hfault]
      case isFalse hfault =>
        rw [if_neg (not_or.mpr ⟨hparent.1, hfault⟩)] at hclear
        obtain ⟨cleared, hclear, hnode⟩ := hclear
        have hfree := node_clear hclear
        rw [hhandle cleared hclear (by rw [copy_eq_none dest hnode, Env.attempt, ite_self])]
        by_cases hinput : env.fault = some .inputStream
        · have hstream : stream env cleared url dest = (cleared, false) := by
            rw [stream, if_pos hinput]
          rw [hstream, Survives]
          simp [content_none hnode, content_none hfree, hinput]
        · rw [survives_emptied_iff (hasParent_clear hclear hparent) (by rw [hfree]; simp) hinput
            fun _ => content_none hnode]
          simp [hinput]
    case isFalse hpre =>
      have hne : url ≠ dest := fun heq => hpre (heq ▸ prefix_rfl)
      cases hclear : env.clear disk dest with
      | none =>
        have hfault : env.fault = some .remove := by
          by_contra hfault
          rw [Env.clear] at hclear
          split at hclear
          case isTrue hsome =>
            rw [attempt_eq _ _ hfault] at hclear
            have hremove := FileTree.remove_isSome_iff.mpr ⟨hparent.1, hsome⟩
            rw [hclear] at hremove
            cases hremove
          case isFalse => cases hclear
        rw [hkept hclear]
        by_cases hdir : disk.node dest = some .dir
        · rw [survives_blocked_iff (fun h => h.2 hdir) hurl]
          simp [hfault, hdir]
        · exact iff_of_true (survives_stream hparent hdir hne hurl (.inl hfault))
            fun h => absurd h hdir
      | some cleared =>
        have hold := (content_clear hclear hpre).trans hurl
        have hfree := node_clear hclear
        have hparent' := hasParent_clear hclear hparent
        have hsafe : Survives bytes url dest (handle env disk url) := by
          by_cases hcopy : env.fault = some .copy
          · rw [hhandle cleared hclear (attempt_fault _ hcopy)]
            exact survives_stream hparent' (by rw [hfree]; simp) hne hold (.inr hcopy)
          · obtain ⟨copied, hdone⟩ := isSome_iff_exists.mp
              ((FileTree.copy_isSome_iff hold hparent').mpr hfree)
            have hhandle' : handle env disk url = (copied, true) := by
              rw [handle, hdest, hclear]
              dsimp only
              rw [attempt_eq _ _ hcopy, hdone]
            have hnew := (FileTree.content_copy hdone).trans hold
            rw [hhandle']
            exact ⟨.inr hnew, fun _ => hnew⟩
        refine iff_of_true hsafe fun hdir hfault => ?_
        -- a folder in the way would not have been removed
        rw [Env.clear, hdir, attempt_fault _ hfault] at hclear
        cases hclear

end Handle

/-- A request keeps the file that it is about exactly in the cases of `Spares`. -/
theorem safe_iff_spares (env : Env) (storage : Path) (disk : Disk) (r : Request) :
    Safe env storage disk r ↔ Spares env storage disk r := by
  cases r with
  | renameItem identifier itemName => exact safe_renameItem_iff identifier itemName
  | importDocument url => exact safe_importDocument_iff url
  | itemChanged url => exact safe_itemChanged_iff url
  | handle url => exact safe_handle_iff url

def oneItem : Disk := FileTree.empty.put ["disk.img"] [1] (by decide) (by decide)

def healthy : Env := ⟨fun name => [name], none, .full, .full⟩

/-- A file renamed to its own name is removed, and the request reports an error. -/
theorem rename_to_own_name_destroys : oneItem.content ["disk.img"] = some [1] ∧
    (renameItem healthy oneItem "disk.img" "disk.img").2 = false ∧
    (renameItem healthy oneItem "disk.img" "disk.img").1.content ["disk.img"] = none ∧
    ¬ Safe healthy [] oneItem (.renameItem "disk.img" "disk.img") := by
  have hgone :
      (renameItem healthy oneItem "disk.img" "disk.img").1.content ["disk.img"] = none := by
    decide +kernel
  have hitem : oneItem.content ["disk.img"] = some [1] := by decide +kernel
  refine ⟨hitem, by decide +kernel, hgone, fun h => ?_⟩
  rcases (h [1] hitem).1 with h | h
  · exact absurd (hgone.symm.trans h) (by simp)
  · exact absurd (hgone.symm.trans h) (by simp)

end Bootbox.Host.Files
