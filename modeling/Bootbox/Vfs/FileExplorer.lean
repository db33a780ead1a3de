import Mathlib.Algebra.Order.BigOperators.Group.List
import Bootbox.Lib.Trace
import Bootbox.Vfs.Moving

/-!
Paste, drag and rename in the File Explorer (`apps/filemanager.js`).

A paste into the copied folder itself, or into a folder in it, does not end; files that a
listing does not show are not copied, and copies are always plain text. A move removes its
source also when the copy has failed or has gone to the source itself, and a rename replaces
what has the new name. In all other cases nothing is lost.
-/

namespace Bootbox.FileExplorer

open Lib Lib.Trace Vfs List Option OrderedMap

variable {p : List String} {fuel : ℕ} {src cwd dest : String} {tree' : Node} {cut : Bool}

/-- `dest.split("/").pop()` -/
def lastPart (path : String) : String := String.ofList ((path.toList.splitOn '/').getLast?.getD [])

/-- `while (VFS.exists(dest)) dest = here("Copy of " + dest.split("/").pop())` -/
def freeDest : ℕ → Node → String → String → Option String
  | 0, _, _, _ => none
  | fuel + 1, tree, cwd, dest =>
    if existsAt tree dest then freeDest fuel tree cwd (here cwd ("Copy of " ++ lastPart dest))
    else some dest

/-- `dest === src || dest.startsWith(src + "/")` -/
def isIntoItself (src dest : String) : Bool := dest = src ∨ (src ++ "/").toList <+: dest.toList

/-- Copy and remove. What `remove` returns, or that it throws, changes nothing. -/
def copyAndRemove (fuel : ℕ) (tree : Node) (src dest : String) : Option Node :=
  (copyRec fuel tree src dest).map fun tree => (remove tree src).tree

def moveNode (fuel : ℕ) (tree : Node) (src dest : String) : Option Node :=
  if isIntoItself src dest then some tree else copyAndRemove fuel tree src dest

/-- What is done to one of the selected entries of a folder. -/
inductive Action
  /-- The Paste button in the folder `cwd`, after Cut or Copy. -/
  | paste (cut : Bool) (cwd : String)
  /-- `moveDropped`. -/
  | drop (destDir : String)
  /-- The Rename entry of the menu. -/
  | rename (nn : String)

namespace Action

def run (fuel : ℕ) (tree : Node) (dir name : String) : Action → Option Node
  | .paste cut cwd => do
      let dest ← freeDest fuel tree cwd (here cwd name)
      if cut then copyAndRemove fuel tree (here dir name) dest
      else copyRec fuel tree (here dir name) dest
  | .drop destDir =>
    let src := here dir name
    let dest := here destDir name
    if isIntoItself src dest then some tree
    else if existsAt tree dest then some tree
    else copyAndRemove fuel tree src dest
  | .rename nn =>
    if nn ≠ "" ∧ nn ≠ name then moveNode fuel tree (here dir name) (here dir nn) else some tree

/-- The folder that a paste or a drop goes to is there. -/
def Target (tree : Node) : Action → Prop
  | .paste _ cwd => isDirAt tree cwd = true
  | .drop destDir => isDirAt tree destDir = true
  | .rename _ => True

end Action

/-- An entry of a folder that is shown, so that it can be selected. -/
def Selected (tree : Node) (dir name : String) : Prop := name ∈ (list tree dir).map Entry.name

/-- Every file is still there once: all are where they were, or those at `S` are at `D`. -/
def Preserved (t t' : Node) (S D : List String) : Prop := Carried id t t' ∨ Carried (moved S D) t t'

/-- The paste of a copy: the source has not changed, and under a name that was free there is
what the source had. -/
def Copied (t t' : Node) (S : List String) (dest : String) : Prop :=
  existsAt t dest = false ∧ (∀ r, kindAt t' (S ++ r) = kindAt t (S ++ r)) ∧
    ∀ r, kindAt t' (parts dest ++ r) = kindAt t (S ++ r)

namespace Action

def Good (tree : Node) (dir name : String) (a : Action) : Prop :=
  let S := parts (here dir name)
  ∃ fuel tree', a.run fuel tree dir name = some tree' ∧
    match a with
    | .paste cut cwd => ∃ dest, freeDest fuel tree cwd (here cwd name) = some dest ∧
        if cut then Preserved tree tree' S (parts dest) else Copied tree tree' S dest
    | .drop destDir => Preserved tree tree' S (parts (here destDir name))
    | .rename nn => Preserved tree tree' S (parts (here dir nn))

def Safe (tree : Node) (dir name : String) (a : Action) : Prop :=
  let src := here dir name
  let S := parts src
  let IsListed := ∀ r content mime,
    kindAt tree (S ++ r) = some (.file content mime) → "__proto__" ∉ r
  match a with
  | .paste cut cwd =>
    ¬ S <+: parts cwd ∧ IsListed ∧
      (cut = false → ∀ r content mime,
        kindAt tree (S ++ r) = some (.file content mime) → mime = "text/plain")
  | .drop destDir =>
    isIntoItself src (here destDir name) = true ∨ existsAt tree (here destDir name) = true ∨
      ¬ S <+: parts destDir ∧ IsListed
  | .rename nn =>
    nn = "" ∨ nn = name ∨ isIntoItself src (here dir nn) = true ∨
      Clear tree S (parts (here dir nn))

end Action

/-! ### Free names -/

theorem lastPart_here (cwd : String) {name : String} (h : '/' ∉ name.toList) :
    lastPart (here cwd name) = name := by
  have hsplit : (here cwd name).toList
      = (if cwd = "/" then "" else cwd).toList ++ '/' :: name.toList := by
    simp [here]
  rw [lastPart, hsplit, splitOn_append_cons_self, splitOn_eq_singleton h]
  simp

theorem proper_copyOf {name : String} (h : Proper name) : Proper ("Copy of " ++ name) := by
  refine ⟨?_, ?_⟩
  · intro hempty
    have := congrArg String.toList hempty
    simp at this
  · rw [String.toList_append, mem_append, not_or]
    exact ⟨by decide, h.2⟩

section FreeDest

variable {tree : Node} {cwd name dest : String} {fuel : ℕ}

theorem freeDest_eq_some (hname : Proper name)
    (h : freeDest fuel tree cwd (here cwd name) = some dest) :
    ∃ free, Proper free ∧ dest = here cwd free ∧ existsAt tree dest = false := by
  induction fuel generalizing name with
  | zero => cases h
  | succ fuel ih =>
    rw [freeDest] at h
    split at h
    case isTrue =>
      rw [lastPart_here cwd hname.2] at h
      exact ih (proper_copyOf hname) h
    case isFalse hfree =>
      cases h
      exact ⟨name, hname, rfl, by simpa using hfree⟩

theorem freeDest_succ {path : String} (h : freeDest fuel tree cwd path = some dest) :
    freeDest (fuel + 1) tree cwd path = some dest := by
  induction fuel generalizing path with
  | zero => cases h
  | succ fuel ih =>
    rw [freeDest] at h ⊢
    split at h
    case isTrue hexists =>
      rw [if_pos hexists]
      exact ih h
    case isFalse hfree =>
      rw [if_neg hfree]
      exact h

theorem freeDest_mono {path : String} {fuel' : ℕ} (hle : fuel ≤ fuel')
    (h : freeDest fuel tree cwd path = some dest) : freeDest fuel' tree cwd path = some dest := by
  induction fuel', hle using Nat.le_induction with
  | base => exact h
  | succ n _ ih => exact freeDest_succ ih

/-- A directory has no names that are longer than all that it has. -/
theorem exists_free_length (h : kindAt tree p = some .dir) :
    ∃ n, ∀ name : String, n < name.length → resolve (p ++ [name]) tree = none := by
  obtain ⟨children, proto, hdir⟩ := kindAt_eq_dir.mp h
  let known := children.map Prod.fst ++ objectPrototype ++ ["type", "content", "mime"]
  have hnone : ∀ name, name ∉ known → resolve (p ++ [name]) tree = none := by
    intro name hname
    simp only [known, mem_append, not_or] at hname
    have hown : get children name = none := by
      have := hname.1.1
      rw [← isSome_get] at this
      simpa using this
    have hinh : inherited proto name = none := by
      have hproto : name ≠ "__proto__" := by
        rintro rfl
        exact hname.1.2 (by decide)
      cases proto with
      | none => exact inherited_none.mpr hname.1.2
      | some e =>
        simp only [mem_cons, not_mem_nil, or_false, not_or] at hname
        simp [inherited, hproto, hname]
    rw [resolve_append, hdir, bind_some, resolve_cons_inherited hown, hinh]
    rfl
  obtain ⟨n, hn⟩ : ∃ n, ∀ name ∈ known, name.length ≤ n :=
    ⟨(known.map String.length).sum, fun name hname =>
      le_sum_of_mem (mem_map_of_mem hname)⟩
  refine ⟨n, fun name hlong => hnone name fun hmem => ?_⟩
  have := hn name hmem
  omega

theorem exists_freeDest (hdir : isDirAt tree cwd = true) (hname : Proper name) :
    ∃ fuel dest, freeDest fuel tree cwd (here cwd name) = some dest := by
  obtain ⟨n, hn⟩ := exists_free_length (isDirAt_iff.mp hdir)
  have hsome : ∀ k name, Proper name → n < name.length + k →
      ∃ dest, freeDest (k + 1) tree cwd (here cwd name) = some dest := by
    intro k
    induction k with
    | zero =>
      intro name hname hlong
      refine ⟨here cwd name, ?_⟩
      have hfree : existsAt tree (here cwd name) = false := by
        rw [existsAt, parts_here, parts_of_proper hname, hn name (by omega)]
        rfl
      rw [freeDest, hfree]
      rfl
    | succ k ih =>
      intro name hname hlong
      rw [freeDest]
      split
      case isTrue =>
        rw [lastPart_here cwd hname.2]
        refine ih _ (proper_copyOf hname) ?_
        rw [String.length_append]
        have : ("Copy of " : String).length = 8 := by decide
        omega
      case isFalse => exact ⟨_, rfl⟩
  obtain ⟨dest, hdest⟩ := hsome (n + 1) name hname (by omega)
  exact ⟨_, dest, hdest⟩

end FreeDest

/-! ### The entry -/

section Entry

variable {tree : Node} {dir name : String}

theorem Selected.parts_src (htree : Tidy tree) (hsel : Selected tree dir name) :
    parts (here dir name) = parts dir ++ [name] := by
  rw [parts_here, (listed htree hsel).2.1]

theorem Selected.exists_src (htree : Tidy tree) (hsel : Selected tree dir name) :
    kindAt tree (parts (here dir name)) ≠ none := by
  rw [hsel.parts_src htree]
  exact (listed htree hsel).2.2

theorem Selected.lastName_src (htree : Tidy tree) (hsel : Selected tree dir name) :
    lastName (parts (here dir name)) ≠ "__proto__" := by
  rw [hsel.parts_src htree, lastName, getLast?_append]
  exact (listed htree hsel).1

/-- A move loses nothing exactly when its target is clear. -/
theorem move_iff (htree : Tidy tree) (hsel : Selected tree dir name) (dest : String)
    (hlen : parts dest <+: parts (here dir name) →
      (parts (here dir name)).length ≤ (parts dest).length + 1) :
    (∃ fuel tree', copyAndRemove fuel tree (here dir name) dest = some tree' ∧
        Preserved tree tree' (parts (here dir name)) (parts dest)) ↔
      Clear tree (parts (here dir name)) (parts dest) := by
  have hsrc : parts (here dir name) ≠ [] := by simp [hsel.parts_src htree]
  have hname := hsel.lastName_src htree
  constructor
  · rintro ⟨fuel, tree', hrun, hpreserved⟩
    obtain ⟨t, hcopy, rfl⟩ := map_eq_some_iff.mp hrun
    refine clear_of_carried htree hsrc hname hcopy ?_
    rcases hpreserved with hid | hmoved
    · -- then there was no file to be moved
      have hnot : ∀ p content mime, kindAt tree p = some (.file content mime) →
          ¬ parts (here dir name) <+: p := by
        intro p content mime hp hpre
        obtain ⟨mime', hp'⟩ := hid.kept p content mime hp
        rw [id, kindAt_removed (tidy_copyRec htree hcopy) hsrc hname, if_pos hpre] at hp'
        cases hp'
      refine ⟨fun p content mime hp => ?_, fun q content mime hq => ?_,
        fun p q c m c' m' hp hq heq => ?_⟩
      · rw [moved_of_not (hnot p content mime hp)]
        exact hid.kept p content mime hp
      · obtain ⟨p, mime', rfl, hp⟩ := hid.only q content mime hq
        exact ⟨p, mime', moved_of_not (hnot p content mime' hp), hp⟩
      · rwa [moved_of_not (hnot p c m hp), moved_of_not (hnot q c' m' hq)] at heq
    · exact hmoved
  · intro hclear
    have hcarried : ∃ fuel t', copyRec fuel tree (here dir name) dest = some t' ∧
        Carried (moved (parts (here dir name)) (parts dest)) tree
          (remove t' (here dir name)).tree := by
      cases hkind : kindAt tree (parts (here dir name)) with
      | none => exact absurd hkind (hsel.exists_src htree)
      | some kind =>
        cases kind with
        | file content mime => exact carried_of_clear_file htree hsrc hname hkind hclear
        | dir =>
          exact carried_of_unhindered htree hsrc hname (unhindered_of_clear hlen hkind hclear)
    obtain ⟨fuel, t', hcopy, hcarried⟩ := hcarried
    exact ⟨fuel, _, map_eq_some_iff.mpr ⟨t', hcopy, rfl⟩, .inr hcarried⟩

end Entry

/-! ### A free target -/

theorem not_mem_of_dir {tree : Node} (htree : Tidy tree) {r : List String}
    (h : kindAt tree (p ++ r) = some .dir) : ∀ n ∈ r, n ∉ objectPrototype := by
  intro n hn
  obtain ⟨a, b, rfl⟩ := append_of_mem hn
  refine htree.dirs (p ++ a) n (kindAt_eq_dir_above ?_ h)
  exact ⟨b, by simp⟩

theorem not_mem_of_dropLast {tree : Node} (htree : Tidy tree) {r : List String} (hr : r ≠ [])
    (h : kindAt tree (p ++ r) ≠ none) : ∀ n ∈ r.dropLast, n ∉ objectPrototype := by
  refine not_mem_of_dir htree (p := p) (kindAt_eq_dir_of_append (q := [r.getLast hr]) (by simp) ?_)
  rwa [append_assoc, dropLast_append_getLast]

structure FreeTarget (tree : Node) (cwd dest : String) : Prop where
  folder : kindAt tree (parts cwd) = some .dir
  concat : ∃ free, parts dest = parts cwd ++ [free]
  free : existsAt tree dest = false

namespace FreeTarget

variable {tree : Node} {cwd dest : String} (h : FreeTarget tree cwd dest)

include h

variable {q S : List String}

theorem resolve_eq_none : resolve (parts dest) tree = none := by
  simpa [existsAt] using h.free

theorem ne_nil : parts dest ≠ [] := by
  obtain ⟨free, hdest⟩ := h.concat
  simp [hdest]

theorem kindAt_eq_none (hq : parts dest <+: q) : kindAt tree q = none := by
  obtain ⟨r, rfl⟩ := hq
  rw [kindAt, resolve_append, h.resolve_eq_none]
  rfl

/-- What is there is not below the target, and not above it if it is not above the folder. -/
theorem apart (hS : kindAt tree S ≠ none) (hcwd : ¬ S <+: parts cwd) : Apart S (parts dest) := by
  obtain ⟨free, hdest⟩ := h.concat
  have hbelow : ¬ parts dest <+: S := fun hpre => hS (h.kindAt_eq_none hpre)
  refine ⟨fun hpre => ?_, hbelow⟩
  rw [hdest] at hpre
  rcases prefix_concat_iff.mp hpre with heq | hpre
  · exact hbelow (by rw [hdest, heq])
  · exact hcwd hpre

theorem creatable (hq : ∀ n ∈ q, n ∉ objectPrototype) : Creatable (parts dest ++ q) tree := by
  obtain ⟨free, hdest⟩ := h.concat
  have hfree := h.resolve_eq_none
  rw [hdest] at hfree ⊢
  rw [append_assoc]
  exact creatable_of_free h.folder hfree hq

theorem kindAt_of_copyRec (htree : Tidy tree) (hcopy : copyRec fuel tree src dest = some tree')
    (hq : ¬ parts dest <+: q) : kindAt tree' q = kindAt tree q := by
  obtain ⟨free, hdest⟩ := h.concat
  refine FileExplorer.kindAt_of_copyRec htree hcopy hq ?_
  by_cases hpre : q <+: parts dest
  · left
    rw [hdest] at hpre
    rcases prefix_concat_iff.mp hpre with heq | hpre
    · exact absurd (by rw [hdest, heq]) hq
    · simp [kindAt_eq_dir_above hpre h.folder]
  · exact .inr hpre

theorem clear_iff (htree : Tidy tree) (hS : kindAt tree S ≠ none) :
    Clear tree S (parts dest) ↔ ¬ S <+: parts cwd ∧
      ∀ r content mime, kindAt tree (S ++ r) = some (.file content mime) → "__proto__" ∉ r := by
  obtain ⟨free, hdest⟩ := h.concat
  have hfolder : parts cwd <+: parts dest := hdest ▸ prefix_append _ _
  constructor
  · intro hclear
    refine ⟨fun hpre => ?_, fun r content mime hr => (hclear.files r content mime hr).1⟩
    cases hkind : kindAt tree S with
    | none => exact hS hkind
    | some kind =>
      cases kind with
      | file content mime =>
        have houtside := (hclear.files [] content mime (by rw [append_nil, hkind])).2.1
        rw [append_nil, written_eq h.ne_nil] at houtside
        exact houtside (hpre.trans hfolder)
      | dir =>
        refine hclear.ends hkind (hpre.trans hfolder) ?_ ?_
        · intro heq
          exact hS (h.kindAt_eq_none (heq ▸ prefix_rfl))
        · have hcreate := h.creatable (q := []) (by simp)
          rwa [append_nil] at hcreate
  · rintro ⟨hcwd, hlisted⟩
    have hapart := h.apart hS hcwd
    refine ⟨fun r content mime hr => ?_, fun _ hpre _ => absurd hpre hapart.1⟩
    have hwritten : written (parts dest ++ r) = parts dest ++ r :=
      written_eq (by simp [h.ne_nil])
    rw [hwritten]
    refine ⟨hlisted r content mime hr, fun hpre => ?_, ?_, fun q content' mime' hpre hq => ?_⟩
    · exact apart_of_comparable hapart hpre (prefix_append _ r)
    · by_cases hr' : r = []
      · rw [hr', append_nil, hdest, dropLast_concat]
        exact creatable_of_dir h.folder
      · rw [dropLast_append_of_ne_nil hr']
        exact h.creatable (not_mem_of_dropLast htree hr' (p := S) (by simp [hr]))
    · rw [h.kindAt_eq_none ((prefix_append _ r).trans hpre)] at hq
      cases hq

theorem kindAt_copied (htree : Tidy tree)
    (hlisted : ∀ r content mime, kindAt tree (S ++ r) = some (.file content mime) → "__proto__" ∉ r)
    (hmime : ∀ r content mime, kindAt tree (S ++ r) = some (.file content mime) →
      mime = "text/plain") {n : ℕ} (hcopying : Copying tree S (parts dest) n tree')
    (hcover : ∀ r, "__proto__" ∉ r → Cover tree S (parts dest) tree' r)
    (hsource : ∀ r, kindAt tree' (S ++ r) = kindAt tree (S ++ r)) (r : List String) :
    kindAt tree' (parts dest ++ r) = kindAt tree (S ++ r) := by
  have hfree := h.kindAt_eq_none (prefix_append (parts dest) r)
  cases hkind : kindAt tree (S ++ r) with
  | some kind =>
    cases kind with
    | file content mime =>
      rw [(hcover r (hlisted r content mime hkind)).1 content mime hkind,
        hmime r content mime hkind]
    | dir =>
      have hnames := not_mem_of_dir htree hkind
      refine (hcover r fun hproto => hnames _ hproto (by decide)).2 hkind ?_
      exact h.creatable hnames
  | none =>
    cases hnew : kindAt tree' (parts dest ++ r) with
    | none => rfl
    | some kind =>
      cases kind with
      | file content mime =>
        rcases hcopying.files _ _ _ hnew with hold | ⟨-, r', mime', heq, hr'⟩
        · rw [hfree] at hold
          cases hold
        · rw [← append_cancel_left heq, hkind] at hr'
          cases hr'
      | dir =>
        rcases hcopying.dirs _ hnew with hold | ⟨u, hpre, hu⟩
        · rw [hfree] at hold
          cases hold
        · have hpre' : S ++ r <+: S ++ u :=
            (prefix_append_right_inj S).mpr ((prefix_append_right_inj _).mp hpre)
          rw [hsource u] at hu
          rw [kindAt_eq_dir_above hpre' hu] at hkind
          cases hkind

theorem copied_iff (htree : Tidy tree) (hS : kindAt tree (parts src) ≠ none) :
    (∃ fuel tree', copyRec fuel tree src dest = some tree' ∧
        Copied tree tree' (parts src) dest) ↔
      ¬ parts src <+: parts cwd ∧
      (∀ r content mime, kindAt tree (parts src ++ r) = some (.file content mime) →
        "__proto__" ∉ r) ∧
      ∀ r content mime, kindAt tree (parts src ++ r) = some (.file content mime) →
        mime = "text/plain" := by
  constructor
  · rintro ⟨fuel, tree', hcopy, -, hsource, hpasted⟩
    have hfiles : ∀ r content mime, kindAt tree (parts src ++ r) = some (.file content mime) →
        mime = "text/plain" ∧ "__proto__" ∉ r := by
      intro r content mime hr
      have hcopied := hpasted r
      rw [hr] at hcopied
      rcases file_of_copyRec htree hcopy hcopied with hold | ⟨hmime, r', heq, hproto⟩
      · rw [h.kindAt_eq_none (prefix_append _ r)] at hold
        cases hold
      · rw [written_eq (by simp [h.ne_nil])] at heq
        rw [append_cancel_left heq]
        exact ⟨hmime, hproto⟩
    refine ⟨fun hpre => ?_, fun r content mime hr => (hfiles r content mime hr).2,
      fun r content mime hr => (hfiles r content mime hr).1⟩
    -- the copy would be a change of the source
    obtain ⟨free, hdest⟩ := h.concat
    obtain ⟨e, he⟩ := hpre.trans (hdest ▸ prefix_append (parts cwd) [free])
    have hnew := hpasted []
    have hold := hsource e
    rw [append_nil, append_nil] at hnew
    rw [he, hnew, h.kindAt_eq_none prefix_rfl] at hold
    exact hS hold
  · rintro ⟨hcwd, hlisted, hmime⟩
    have hapart := h.apart hS hcwd
    have hsource : ∀ {fuel : ℕ} {tree' : Node}, copyRec fuel tree src dest = some tree' →
        ∀ r, kindAt tree' (parts src ++ r) = kindAt tree (parts src ++ r) := fun hcopy r =>
      h.kindAt_of_copyRec htree hcopy (apart_of_comparable hapart (prefix_append _ r))
    cases hkind : kindAt tree (parts src) with
    | none => exact absurd hkind hS
    | some kind =>
      cases kind with
      | file content mime =>
        have hcopy : copyRec 1 tree src dest = _ := copyRec_file hkind
        refine ⟨1, _, hcopy, h.free, hsource hcopy, fun r => ?_⟩
        obtain ⟨free, hdest⟩ := h.concat
        have hparent : Creatable (parts dest).dropLast tree := by
          rw [hdest, dropLast_concat]
          exact creatable_of_dir h.folder
        rw [kindAt_write, written_eq h.ne_nil, if_pos ⟨hparent, prefix_append _ r⟩]
        by_cases hr : r = []
        · rw [hr, append_nil, append_nil, if_pos rfl, hkind]
          rw [hmime [] content mime (by rw [append_nil, hkind])]
        · rw [if_neg (by simpa using hr), kindAt_append_file hkind hr]
      | dir =>
        have hclear := (h.clear_iff htree hS).mpr ⟨hcwd, hlisted⟩
        obtain ⟨fuel, n, tree', hcopy, hcopying, -, hcover⟩ := copyRec_of_unhindered htree
          (unhindered_of_clear (fun hpre => absurd hpre hapart.2) hkind hclear)
        refine ⟨fuel, tree', hcopy, h.free, hsource hcopy, fun r => ?_⟩
        exact h.kindAt_copied htree hlisted hmime hcopying hcover (hsource hcopy) r

end FreeTarget

/-! ### One entry -/

variable {a : Action}

section Step

variable {tree : Node} {dir name : String}

theorem freeTarget_of_freeDest (htree : Tidy tree) (hsel : Selected tree dir name)
    (hcwd : isDirAt tree cwd = true) (h : freeDest fuel tree cwd (here cwd name) = some dest) :
    FreeTarget tree cwd dest := by
  have hname : Proper name := htree.proper _ _ (listed htree hsel).2.2
  obtain ⟨free, hfree, rfl, hnone⟩ := freeDest_eq_some hname h
  exact ⟨isDirAt_iff.mp hcwd, ⟨free, by rw [parts_here, parts_of_proper hfree]⟩, hnone⟩

theorem run_paste (h : freeDest fuel tree cwd (here cwd name) = some dest) :
    (Action.paste cut cwd).run fuel tree dir name =
      if cut then copyAndRemove fuel tree (here dir name) dest
      else copyRec fuel tree (here dir name) dest := by
  rw [Action.run, h]
  rfl

theorem copyAndRemove_mono {fuel' : ℕ} (hle : fuel ≤ fuel')
    (h : copyAndRemove fuel tree src dest = some tree') :
    copyAndRemove fuel' tree src dest = some tree' := by
  obtain ⟨t, hcopy, rfl⟩ := map_eq_some_iff.mp h
  rw [copyAndRemove, copyRec_mono hle hcopy]
  rfl

variable (htree : Tidy tree) (hsel : Selected tree dir name)

include htree hsel

theorem good_paste_iff (hcwd : isDirAt tree cwd = true) :
    (Action.paste cut cwd).Good tree dir name ↔ (Action.paste cut cwd).Safe tree dir name := by
  have hS := hsel.exists_src htree
  have hname : Proper name := htree.proper _ _ (listed htree hsel).2.2
  obtain ⟨k, dest, hdest⟩ := exists_freeDest hcwd hname
  have hfree := freeTarget_of_freeDest htree hsel hcwd hdest
  -- the limit only has to be large enough
  have hunique : ∀ {fuel : ℕ} {dest' : String},
      freeDest fuel tree cwd (here cwd name) = some dest' → dest' = dest := by
    intro fuel dest' h
    have h₁ := freeDest_mono (le_max_left k fuel) hdest
    rw [freeDest_mono (le_max_right k fuel) h] at h₁
    exact some.inj h₁
  cases cut with
  | true =>
    have hmove := (move_iff htree hsel dest
      (fun hpre => absurd (hfree.kindAt_eq_none hpre) hS)).trans (hfree.clear_iff htree hS)
    simp only [Action.Good, Action.Safe]
    constructor
    · rintro ⟨fuel, tree', hrun, dest', hdest', hpreserved⟩
      obtain rfl := hunique hdest'
      rw [run_paste hdest'] at hrun
      obtain ⟨hout, hlisted⟩ := hmove.mp ⟨fuel, tree', hrun, hpreserved⟩
      exact ⟨hout, hlisted, fun h => nomatch h⟩
    · rintro ⟨hout, hlisted, -⟩
      obtain ⟨fuel, tree', hrun, hpreserved⟩ := hmove.mpr ⟨hout, hlisted⟩
      have hdest' := freeDest_mono (le_max_left k fuel) hdest
      refine ⟨max k fuel, tree', ?_, dest, hdest', hpreserved⟩
      rw [run_paste hdest']
      exact copyAndRemove_mono (le_max_right k fuel) hrun
  | false =>
    have hcopy := hfree.copied_iff htree hS
    simp only [Action.Good, Action.Safe]
    constructor
    · rintro ⟨fuel, tree', hrun, dest', hdest', hcopied⟩
      obtain rfl := hunique hdest'
      rw [run_paste hdest'] at hrun
      obtain ⟨hout, hlisted, hmime⟩ := hcopy.mp ⟨fuel, tree', hrun, hcopied⟩
      exact ⟨hout, hlisted, fun _ => hmime⟩
    · rintro ⟨hout, hlisted, hmime⟩
      obtain ⟨fuel, tree', hrun, hcopied⟩ := hcopy.mpr ⟨hout, hlisted, hmime trivial⟩
      have hdest' := freeDest_mono (le_max_left k fuel) hdest
      refine ⟨max k fuel, tree', ?_, dest, hdest', hcopied⟩
      rw [run_paste hdest']
      exact copyRec_mono (le_max_right k fuel) hrun

theorem good_drop_iff {destDir : String} (hdir : isDirAt tree destDir = true) :
    (Action.drop destDir).Good tree dir name ↔ (Action.drop destDir).Safe tree dir name := by
  simp only [Action.Good, Action.Safe, Action.run]
  by_cases hinto : isIntoItself (here dir name) (here destDir name) = true
  · simp only [hinto, if_true, true_or, iff_true]
    exact ⟨0, tree, rfl, .inl (.refl tree)⟩
  by_cases hexists : existsAt tree (here destDir name) = true
  · simp only [hinto, hexists, if_true, true_or, or_true, iff_true]
    exact ⟨0, tree, rfl, .inl (.refl tree)⟩
  have hname := (listed htree hsel).2.1
  have hfree : FreeTarget tree destDir (here destDir name) :=
    ⟨isDirAt_iff.mp hdir, ⟨name, by rw [parts_here, hname]⟩, by simpa using hexists⟩
  have hS := hsel.exists_src htree
  simp only [hinto, hexists, Bool.false_eq_true, if_false, false_or]
  exact (move_iff htree hsel _ (fun hpre => absurd (hfree.kindAt_eq_none hpre) hS)).trans
    (hfree.clear_iff htree hS)

theorem good_rename_iff (nn : String) :
    (Action.rename nn).Good tree dir name ↔ (Action.rename nn).Safe tree dir name := by
  simp only [Action.Good, Action.Safe, Action.run, moveNode]
  by_cases hempty : nn = ""
  · simp only [hempty, ne_eq, not_true_eq_false, false_and, if_false, true_or, iff_true]
    exact ⟨0, tree, rfl, .inl (.refl tree)⟩
  by_cases hsame : nn = name
  · simp only [hsame, ne_eq, not_true_eq_false, and_false, if_false, true_or, or_true, iff_true]
    exact ⟨0, tree, rfl, .inl (.refl tree)⟩
  by_cases hinto : isIntoItself (here dir name) (here dir nn) = true
  · simp only [hempty, hsame, hinto, ne_eq, not_false_eq_true, and_self, if_true, true_or, or_true,
      iff_true]
    exact ⟨0, tree, rfl, .inl (.refl tree)⟩
  simp only [hempty, hsame, hinto, ne_eq, not_false_eq_true, and_self, if_true, Bool.false_eq_true,
    if_false, false_or]
  refine move_iff htree hsel _ fun _ => ?_
  rw [hsel.parts_src htree, parts_here]
  simp

theorem good_iff_safe (htarget : a.Target tree) : a.Good tree dir name ↔ a.Safe tree dir name := by
  cases a with
  | paste cut cwd => exact good_paste_iff htree hsel htarget
  | drop destDir => exact good_drop_iff htree hsel htarget
  | rename nn => exact good_rename_iff htree hsel nn

end Step

/-! ### Whole selections -/

section Runs

variable {tree tree' : Node} {dir name : String} {fuel fuel' : ℕ}

theorem Action.run_mono (hle : fuel ≤ fuel') (h : a.run fuel tree dir name = some tree') :
    a.run fuel' tree dir name = some tree' := by
  cases a with
  | paste cut cwd =>
    obtain ⟨dest, hdest, hrest⟩ := bind_eq_some_iff.mp h
    rw [run_paste (freeDest_mono hle hdest)]
    cases cut with
    | true => exact copyAndRemove_mono hle hrest
    | false => exact copyRec_mono hle hrest
  | drop destDir =>
    simp only [Action.run] at h ⊢
    split at h
    case isTrue hinto => rwa [if_pos hinto]
    case isFalse hinto =>
      rw [if_neg hinto]
      split at h
      case isTrue hexists => rwa [if_pos hexists]
      case isFalse hexists =>
        rw [if_neg hexists]
        exact copyAndRemove_mono hle h
  | rename nn =>
    simp only [Action.run, moveNode] at h ⊢
    split at h
    case isTrue hname =>
      rw [if_pos hname]
      split at h
      case isTrue hinto => rwa [if_pos hinto]
      case isFalse hinto =>
        rw [if_neg hinto]
        exact copyAndRemove_mono hle h
    case isFalse hname => rwa [if_neg hname]

theorem tidy_copyAndRemove (htree : Tidy tree) (h : copyAndRemove fuel tree src dest = some tree') :
    Tidy tree' := by
  obtain ⟨t, hcopy, rfl⟩ := map_eq_some_iff.mp h
  exact (tidy_copyRec htree hcopy).remove src

theorem Action.tidy_run (htree : Tidy tree) (h : a.run fuel tree dir name = some tree') :
    Tidy tree' := by
  cases a with
  | paste cut cwd =>
    obtain ⟨dest, hdest, hrest⟩ := bind_eq_some_iff.mp h
    cases cut with
    | true => exact tidy_copyAndRemove htree hrest
    | false => exact tidy_copyRec htree hrest
  | drop destDir =>
    simp only [Action.run] at h
    split at h
    case isTrue => exact some.inj h ▸ htree
    case isFalse =>
      split at h
      case isTrue => exact some.inj h ▸ htree
      case isFalse => exact tidy_copyAndRemove htree h
  | rename nn =>
    simp only [Action.run, moveNode] at h
    split at h
    case isTrue =>
      split at h
      case isTrue => exact some.inj h ▸ htree
      case isFalse => exact tidy_copyAndRemove htree h
    case isFalse => exact some.inj h ▸ htree

def paste (fuel : ℕ) (tree : Node) (cut : Bool) (cwd dir : String) (names : List String) :
    Option Node :=
  names.foldlM (fun tree name => (Action.paste cut cwd).run fuel tree dir name) tree

theorem paste_cons (cut : Bool) (cwd : String) (names : List String) :
    paste fuel tree cut cwd dir (name :: names) =
      ((Action.paste cut cwd).run fuel tree dir name).bind
        fun tree => paste fuel tree cut cwd dir names := by
  rw [paste, foldlM_cons]
  rfl

theorem paste_mono {names : List String} (hle : fuel ≤ fuel')
    (h : paste fuel tree cut cwd dir names = some tree') :
    paste fuel' tree cut cwd dir names = some tree' := by
  induction names generalizing tree with
  | nil => exact h
  | cons name names ih =>
    rw [paste_cons] at h ⊢
    obtain ⟨t, hfirst, hrest⟩ := bind_eq_some_iff.mp h
    rw [Action.run_mono hle hfirst, bind_some]
    exact ih hrest

theorem FreeTarget.of_copyRec {dest' : String} (htree : Tidy tree) (h : FreeTarget tree cwd dest)
    (hcopy : copyRec fuel tree src dest = some tree') (h' : FreeTarget tree' cwd dest') :
    FreeTarget tree cwd dest' := by
  refine ⟨h.folder, h'.concat, ?_⟩
  have hlast : lastName (parts dest) ≠ "__proto__" := by
    obtain ⟨free, hdest⟩ := h.concat
    rw [hdest, lastName, getLast?_append]
    rintro rfl
    -- `__proto__` is in every directory
    obtain ⟨children, proto, hdir⟩ := kindAt_eq_dir.mp h.folder
    have hnone := h.resolve_eq_none
    rw [hdest, resolve_append, hdir, bind_some] at hnone
    have hsome := inherited_proto proto
    cases hinh : inherited proto "__proto__" with
    | none => simp [hinh] at hsome
    | some next =>
      cases hget : get children "__proto__" with
      | none => simp [resolve, hget, hinh] at hnone
      | some node => simp [resolve, hget] at hnone
  have hcreate : Creatable (parts dest') tree := by
    refine creatable_of_copyRec hlast htree hcopy ?_
    have := h'.creatable (q := []) (by simp)
    rwa [append_nil] at this
  have hkind : kindAt tree (parts dest') = none := by
    by_contra hne
    have hsame := h.kindAt_of_copyRec htree hcopy (fun hpre => hne (h.kindAt_eq_none hpre))
    rw [h'.kindAt_eq_none prefix_rfl] at hsame
    exact hne hsame.symm
  rw [existsAt, resolve_eq_none_of_creatable htree.rooted.sound hcreate hkind]
  rfl

/-- The paste of copies: every entry has its own copy, and nothing else has changed. -/
theorem exists_paste {names : List String} (htree : Tidy tree) (hcwd : isDirAt tree cwd = true)
    (hnames : ∀ name ∈ names,
      Selected tree dir name ∧ (Action.paste false cwd).Safe tree dir name) :
    ∃ fuel tree' dests, paste fuel tree false cwd dir names = some tree' ∧
      names.length = dests.length ∧ (dests.map parts).Nodup ∧
      (∀ d ∈ dests, FreeTarget tree cwd d) ∧
      (∀ e ∈ names.zip dests, Copied tree tree' (parts (here dir e.1)) e.2) ∧
      ∀ q, (∀ d ∈ dests, ¬ parts d <+: q) → kindAt tree' q = kindAt tree q := by
  induction names generalizing tree with
  | nil => exact ⟨0, tree, [], rfl, rfl, by simp, by simp, by simp, fun _ _ => rfl⟩
  | cons name names ih =>
    rw [forall_mem_cons] at hnames
    obtain ⟨⟨hsel, hsafe⟩, hrest⟩ := hnames
    obtain ⟨fuel, t, hrun, dest, hdest, hcopied⟩ := (good_paste_iff htree hsel hcwd).mpr hsafe
    rw [run_paste hdest] at hrun
    simp only [Bool.false_eq_true, if_false] at hrun hcopied
    have hfree := freeTarget_of_freeDest htree hsel hcwd hdest
    have ht := tidy_copyRec htree hrun
    have hframe := fun {q} hq => hfree.kindAt_of_copyRec (q := q) htree hrun hq
    -- the other entries are as they were
    have hsource : ∀ n ∈ names, ∀ r,
        kindAt t (parts (here dir n) ++ r) = kindAt tree (parts (here dir n) ++ r) := by
      intro n hn r
      obtain ⟨hsel', hsafe'⟩ := hrest n hn
      have hapart := hfree.apart (hsel'.exists_src htree) hsafe'.1
      exact hframe (apart_of_comparable hapart (prefix_append _ r))
    have hlen : ¬ parts dest <+: parts cwd := by
      intro hpre
      obtain ⟨free, hconcat⟩ := hfree.concat
      have := hpre.length_le
      rw [hconcat, length_append, length_singleton] at this
      omega
    have hcwd' : isDirAt t cwd = true := by
      rw [isDirAt_iff, hframe hlen]
      exact isDirAt_iff.mp hcwd
    have hrest' : ∀ n ∈ names, Selected t dir n ∧ (Action.paste false cwd).Safe t dir n := by
      intro n hn
      obtain ⟨hsel', hsafe'⟩ := hrest n hn
      obtain ⟨hproto, hparts, hkind⟩ := listed htree hsel'
      have hsame := hsource n hn []
      rw [append_nil, parts_here, hparts] at hsame
      refine ⟨(mem_list ht.rooted.sound).mpr ⟨hproto, by rwa [hsame]⟩, hsafe'.1, ?_, ?_⟩
      · intro r content mime hr
        exact hsafe'.2.1 r content mime (hsource n hn r ▸ hr)
      · intro hcut r content mime hr
        exact hsafe'.2.2 hcut r content mime (hsource n hn r ▸ hr)
    obtain ⟨fuel', t', dests, hpaste, hlength, hnodup, hdests, hzip, hframe'⟩ := ih ht hcwd' hrest'
    -- what is there after the first copy is not below the targets of the others
    have hkeep : ∀ p, kindAt t p ≠ none → ¬ p <+: parts cwd → ∀ r,
        kindAt t' (p ++ r) = kindAt t (p ++ r) := by
      intro p hp hpcwd r
      refine hframe' _ fun d hd => ?_
      exact apart_of_comparable ((hdests d hd).apart hp hpcwd) (prefix_append _ r)
    have hfirst : kindAt t (parts (here dir name)) ≠ none := by
      have hsame := hcopied.2.1 []
      rw [append_nil] at hsame
      rw [hsame]
      exact hsel.exists_src htree
    have hcopy : kindAt t (parts dest) ≠ none := by
      have hsame := hcopied.2.2 []
      rw [append_nil, append_nil] at hsame
      rw [hsame]
      exact hsel.exists_src htree
    refine ⟨max fuel fuel', t', dest :: dests, ?_, by simp [hlength], ?_, ?_, ?_, ?_⟩
    · have hdest' := freeDest_mono (le_max_left fuel fuel') hdest
      rw [paste_cons, run_paste hdest']
      simp only [Bool.false_eq_true, if_false]
      rw [copyRec_mono (le_max_left fuel fuel') hrun, bind_some]
      exact paste_mono (le_max_right fuel fuel') hpaste
    · rw [map_cons, nodup_cons]
      refine ⟨fun hmem => ?_, hnodup⟩
      obtain ⟨d, hd, heq⟩ := mem_map.mp hmem
      exact hcopy ((hdests d hd).kindAt_eq_none (heq ▸ prefix_rfl))
    · rw [forall_mem_cons]
      exact ⟨hfree, fun d hd => hfree.of_copyRec htree hrun (hdests d hd)⟩
    · rw [zip_cons_cons, forall_mem_cons]
      refine ⟨⟨hcopied.1, fun r => ?_, fun r => ?_⟩, fun e he => ?_⟩
      · rw [hkeep _ hfirst hsafe.1, hcopied.2.1]
      · rw [hkeep _ hcopy hlen, hcopied.2.2]
      · obtain ⟨hname, hd⟩ := of_mem_zip he
        obtain ⟨-, hs, hp⟩ := hzip e he
        refine ⟨(hfree.of_copyRec htree hrun (hdests _ hd)).free, fun r => ?_, fun r => ?_⟩
        · rw [hs, hsource _ hname]
        · rw [hp, hsource _ hname]
    · intro q hq
      rw [forall_mem_cons] at hq
      rw [hframe' q hq.2, hframe hq.1]

inductive SafeMove : Node → Action × String × String → Node → Prop
  | mk {tree tree' : Node} {a : Action} {dir name : String}
      (move : ∀ cwd, a ≠ .paste false cwd) (selected : Selected tree dir name)
      (target : a.Target tree) (safe : a.Safe tree dir name) {fuel : ℕ}
      (run : a.run fuel tree dir name = some tree') : SafeMove tree (a, dir, name) tree'

theorem Action.Good.preserved (ha : ∀ cwd, a ≠ .paste false cwd) (h : a.Good tree dir name) :
    ∃ fuel tree' D, a.run fuel tree dir name = some tree' ∧
      Preserved tree tree' (parts (here dir name)) D := by
  obtain ⟨fuel, tree', hrun, hgood⟩ := h
  cases a with
  | paste cut cwd =>
    cases cut with
    | true =>
      obtain ⟨dest, -, hpreserved⟩ := hgood
      exact ⟨fuel, tree', parts dest, hrun, hpreserved⟩
    | false => exact absurd rfl (ha cwd)
  | drop destDir => exact ⟨fuel, tree', _, hrun, hgood⟩
  | rename nn => exact ⟨fuel, tree', _, hrun, hgood⟩

/-- Moves that are safe when they are taken keep all contents. -/
theorem perm_of_run {es : List (Action × String × String)} (htree : Tidy tree)
    (hrun : Run SafeMove tree es tree') : (contents tree').Perm (contents tree) := by
  induction hrun with
  | nil s => exact List.Perm.refl _
  | @cons s s' s'' e es hstep hrest ih =>
    obtain ⟨hmove, hsel, htarget, hsafe, hrun⟩ := hstep
    obtain ⟨fuel, t, D, hrun', hpreserved⟩ :=
      ((good_iff_safe htree hsel htarget).mpr hsafe).preserved hmove
    have hmono := Action.run_mono (le_max_right fuel _) hrun
    rw [Action.run_mono (le_max_left ..) hrun'] at hmono
    obtain rfl := some.inj hmono
    have ht := Action.tidy_run htree hrun
    have hperm : (contents t).Perm (contents s) := by
      rcases hpreserved with hcarried | hcarried
      · exact hcarried.perm htree.rooted.sound ht.rooted.sound
      · exact hcarried.perm htree.rooted.sound ht.rooted.sound
    exact (ih ht).trans hperm

end Runs

/-- What one action does to an entry is right exactly when it is safe. A selection of which all
entries can be pasted safely is copied as a whole, and any sequence of safe moves keeps every
content as often as it was there. -/
theorem good_iff_safe_and_runs {tree : Node} (htree : Reachable tree) :
    (∀ (a : Action) (dir name : String), Selected tree dir name → a.Target tree →
      (a.Good tree dir name ↔ a.Safe tree dir name)) ∧
    (∀ (cwd dir : String) (names : List String), isDirAt tree cwd = true →
      (∀ name ∈ names, Selected tree dir name ∧ (Action.paste false cwd).Safe tree dir name) →
      ∃ fuel tree' dests, paste fuel tree false cwd dir names = some tree' ∧
        names.length = dests.length ∧ (dests.map parts).Nodup ∧
        ∀ e ∈ names.zip dests, Copied tree tree' (parts (here dir e.1)) e.2) ∧
    ∀ (es : List (Action × String × String)) (tree' : Node), Run SafeMove tree es tree' →
      (contents tree').Perm (contents tree) := by
  refine ⟨fun a dir name hsel htarget => good_iff_safe htree.tidy hsel htarget,
    fun cwd dir names hcwd hnames => ?_, fun es tree' hrun => perm_of_run htree.tidy hrun⟩
  obtain ⟨fuel, tree', dests, hpaste, hlength, hnodup, -, hzip, -⟩ :=
    exists_paste htree.tidy hcwd hnames
  exact ⟨fuel, tree', dests, hpaste, hlength, hnodup, hzip⟩

/-- The folder Desktop, with the file in it, is copied into Documents. -/
theorem good_iff_safe_and_runs_desktop :
    Reachable defaultTree ∧ Selected defaultTree "/" "Desktop" ∧
      (Action.paste false "/Documents").Good defaultTree "/" "Desktop" := by
  have hsel : Selected defaultTree "/" "Desktop" :=
    (mem_list rooted_defaultTree.sound).mpr ⟨by decide, by decide +kernel⟩
  have hfile : ∀ r content mime, kindAt defaultTree (["Desktop"] ++ r)
      = some (.file content mime) → "__proto__" ∉ r ∧ mime = "text/plain" := by
    rintro (_ | ⟨n, r⟩) content mime hr
    · cases hr
    · by_cases hn : n = "Welcome.txt"
      · subst hn
        cases r with
        | nil =>
          cases hr
          exact ⟨by decide, rfl⟩
        | cons => cases hr
      · -- every other name leads where it leads in an empty folder
        have hown : resolve (["Desktop"] ++ n :: r) defaultTree = resolve (n :: r) .empty := by
          refine (resolve_cons_inherited ?_ r).trans (resolve_cons_inherited rfl r).symm
          simp [get_cons, Ne.symm hn]
        rw [kindAt, hown, ← kindAt, kindAt_empty (by simp)] at hr
        cases hr
  refine ⟨.start, hsel, ((good_iff_safe_and_runs .start).1 _ _ _ hsel ?_).mpr ?_⟩
  · rw [Action.Target]
    decide +kernel
  · have hparts : parts (here "/" "Desktop") = ["Desktop"] := by decide +kernel
    simp only [Action.Safe, hparts]
    exact ⟨by decide +kernel, fun r content mime hr => (hfile r content mime hr).1,
      fun _ r content mime hr => (hfile r content mime hr).2⟩

/-- Copying or cutting the folder Documents and pasting it into itself does not end. -/
theorem paste_into_itself_does_not_end :
    Reachable defaultTree ∧ Selected defaultTree "/" "Documents" ∧
      isDirAt defaultTree "/Documents" = true ∧
      ∀ cut fuel, (Action.paste cut "/Documents").run fuel defaultTree "/" "Documents" = none := by
  refine ⟨.start, ?_, by decide +kernel, fun cut fuel => ?_⟩
  · exact (mem_list rooted_defaultTree.sound).mpr ⟨by decide, by decide +kernel⟩
  have hfree : NoFiles defaultTree ["Documents"] := by
    intro r content mime hr
    cases r with
    | nil => cases hr
    | cons n r =>
      have hempty : kindAt defaultTree (["Documents"] ++ n :: r) = kindAt .empty (n :: r) := rfl
      rw [hempty, kindAt_empty (by simp)] at hr
      cases hr
  have hnone : copyRec fuel defaultTree (here "/" "Documents") "/Documents/Documents" = none :=
    copyRec_eq_none (S := ["Documents"]) (e := ["Documents"]) (u := []) (by simp) fuel
      Reachable.start.tidy hfree (by decide +kernel) (by decide +kernel) nil_prefix rfl
      (by decide +kernel)
  cases fuel with
  | zero => rfl
  | succ fuel =>
    have hdest : freeDest (fuel + 1) defaultTree "/Documents" (here "/Documents" "Documents")
        = some "/Documents/Documents" := by
      have hpath : here "/Documents" "Documents" = "/Documents/Documents" := by decide +kernel
      have hexists : existsAt defaultTree "/Documents/Documents" = false := by decide +kernel
      rw [hpath, freeDest, hexists]
      rfl
    rw [run_paste hdest]
    cases cut with
    | true =>
      simp only [if_true, copyAndRemove, hnone]
      rfl
    | false =>
      simp only [Bool.false_eq_true, if_false]
      exact hnone

end Bootbox.FileExplorer
