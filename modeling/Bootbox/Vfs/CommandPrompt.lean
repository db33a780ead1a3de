import Mathlib.Data.List.DropRight
import Bootbox.Vfs.Views

/-!
`COPY`, `MOVE` and `REN` of the Command Prompt (`apps/terminal.js`).

`MOVE` writes the content under the new name, does not look at what the write returns, and
removes the old name. So the file is lost when the write fails or goes to the root, and when
both arguments name the same file; and what is at the new name is replaced, be it a file
or a whole directory, as the current one is when the second argument is missing.
-/

namespace Bootbox.CommandPrompt

open Lib Vfs List Option

variable {tree tree' : Node} {s mime : String} {q : List String}

/-- `p.replace(/^[Cc]:/, "")` -/
def dropDrive : List Char → List Char
  | 'C' :: ':' :: p => p
  | 'c' :: ':' :: p => p
  | p => p

/-- `p.replace(/\/+$/, "")` -/
def trimSlashes (p : List Char) : List Char := p.rdropWhile (· = '/')

/-- `resolve`, the path that an argument stands for. -/
def resolve (cwd : String) (arg : Option String) : String :=
  if arg.getD "" = "" then cwd
  else
    let p := (dropDrive (arg.getD "").toList).map fun c => if c = '\\' then '/' else c
    if p = ['/'] then "/"
    else if p.head? = some '/' then
      if trimSlashes p = [] then "/" else String.ofList (trimSlashes p)
    else if p = ['.', '.'] then "/" ++ "/".intercalate (parts cwd).dropLast
    else if p = ['.'] then cwd
    else String.ofList (trimSlashes ((if cwd = "/" then [] else cwd.toList) ++ '/' :: p))

inductive Command
  | copy
  | move
  | ren
deriving DecidableEq

/-- What a command leaves: the tree, and what it prints, or nothing if it throws. -/
structure Done where
  tree : Node
  printed : Option String

def copy (cwd : String) (a : List String) (tree : Node) : Done :=
  match read tree (resolve cwd a[0]?) with
  | none => ⟨tree, some "The system cannot find the file specified."⟩
  | some s =>
    ⟨(write tree (resolve cwd a[1]?) s "text/plain").tree, some "        1 file(s) copied."⟩

def moved : String := "        1 file(s) moved."

def move (cwd : String) (a : List String) (tree : Node) : Done :=
  match read tree (resolve cwd a[0]?) with
  | none => ⟨tree, some "cannot find file"⟩
  | some s =>
    let written := (write tree (resolve cwd a[1]?) s "text/plain").tree
    let removed := remove written (resolve cwd a[0]?)
    ⟨removed.tree, removed.value.map fun _ => moved⟩

def Command.run (cwd : String) (a : List String) (tree : Node) : Command → Done
  | .copy => CommandPrompt.copy cwd a tree
  | .move => CommandPrompt.move cwd a tree
  -- `ren: (a) => cmds.move(a)`
  | .ren => CommandPrompt.move cwd a tree

/-- A command loses nothing: it keeps all files and directories but the file that is moved;
a file reported as moved is at its new path; and the file is still at its old path when
nothing was written, or when that is the new path too. -/
def Lossless (cwd : String) (a : List String) (tree : Node) (command : Command) : Prop :=
  let source := resolve cwd a[0]?
  let dest := resolve cwd a[1]?
  let done := command.run cwd a tree
  match command with
  | .copy => ∀ q, Keeps tree done.tree q
  | _ =>
    (∀ q, q ≠ parts source → Keeps tree done.tree q) ∧
      (done.printed = some moved → read done.tree dest = read tree source) ∧
      (∀ s, read tree source = some s → (write tree dest s "text/plain").value ≠ some true →
        Keeps tree done.tree (parts source)) ∧
      (parts dest = parts source → Keeps tree done.tree (parts source))

/-- There is nothing at a path but possibly a file with this content. -/
def Free (s : String) (node : Option Node) : Prop :=
  seen node = none ∨ ∃ mime, node = some (.file s mime)

/-- When a command loses nothing. For `MOVE` of an existing file: the write is to a path
other than the root, succeeds and replaces nothing, and the new path is not the old one,
unless that is `__proto__`, which is never removed. -/
def Careful (cwd : String) (a : List String) (tree : Node) (command : Command) : Prop :=
  let source := resolve cwd a[0]?
  let dest := resolve cwd a[1]?
  ∀ s, read tree source = some s →
    match command with
    | .copy =>
      (write tree dest s "text/plain").value = some true →
        Free s (Vfs.resolve ((parts dest).dropLast ++ [lastName (parts dest)]) tree)
    | _ =>
      parts dest ≠ [] ∧ (write tree dest s "text/plain").value = some true ∧
        Free s (Vfs.resolve (parts dest) tree) ∧
        (parts dest = parts source → lastName (parts source) = "__proto__")

/-! ### The write -/

theorem file_of_read {path : String} (h : read tree path = some s) :
    ∃ mime, Vfs.resolve (parts path) tree = some (.file s mime) := by
  rw [Vfs.read] at h
  split at h
  case h_1 content mime hfile =>
    cases h
    exact ⟨mime, hfile⟩
  case h_2 => cases h

theorem keeps_file (h : Vfs.resolve q tree = some (.file s mime)) :
    Keeps tree tree' q ↔ ∃ mime', Vfs.resolve q tree' = some (.file s mime') := by
  rw [Keeps, h]

theorem Free.below {names : List String} (h : Free s (Vfs.resolve names tree)) (name : String)
    (q : List String) : Vfs.resolve (names ++ name :: q) tree = none := by
  rw [resolve_append]
  cases hnode : Vfs.resolve names tree with
  | none => rfl
  | some node =>
    rw [hnode] at h
    cases node with
    | dir children proto => rcases h with h | ⟨mime, h⟩ <;> cases h
    | _ => rfl

/-- Where a file was put and nothing was lost, there was nothing else before. -/
theorem free_of_keeps (hkeeps : Keeps tree tree' q)
    (h : Vfs.resolve q tree' = some (.file s mime)) : Free s (Vfs.resolve q tree) := by
  rw [Keeps, h] at hkeeps
  cases hold : Vfs.resolve q tree with
  | none => exact .inl rfl
  | some node =>
    rw [hold] at hkeeps
    cases node with
    | dir children proto =>
      obtain ⟨_, _, hdir⟩ := hkeeps
      cases hdir
    | file content m =>
      obtain ⟨m', hfile⟩ := hkeeps
      cases hfile
      exact .inr ⟨m, rfl⟩
    | foreign json => exact .inl rfl

section Write

variable {tree : Node} {path s mime : String}

theorem resolve_written (h : (write tree path s mime).value = some true) :
    Vfs.resolve ((parts path).dropLast ++ [lastName (parts path)]) (write tree path s mime).tree
      = some (.file s mime) := by
  rcases write_cases tree path s mime with ⟨_, _, -, tree', hrun, -, hq⟩ | ⟨hrun, -⟩
  · rw [hrun, hq, resolve_assign_self]
  · simp [hrun] at h

theorem keeps_write (hq : (write tree path s mime).value = some true →
      ¬ (parts path).dropLast ++ [lastName (parts path)] <+: q) :
    Keeps tree (write tree path s mime).tree q := by
  have hdirs := keeps_createDirs (parts path).dropLast q tree
  rcases write_cases tree path s mime with ⟨_, _, -, tree', hrun, hupdate, -⟩ | ⟨hrun, -⟩
  · rw [hrun] at hq ⊢
    exact hdirs.trans (keeps_of_kindAt (by rw [kindAt_assign hupdate, if_neg (hq rfl)]))
  · rw [hrun]
    exact hdirs

theorem keeps_write_of_free
    (hfree : (write tree path s mime).value = some true →
      Free s (Vfs.resolve ((parts path).dropLast ++ [lastName (parts path)]) tree))
    (q : List String) : Keeps tree (write tree path s mime).tree q := by
  by_cases hq : (write tree path s mime).value = some true ∧
      (parts path).dropLast ++ [lastName (parts path)] <+: q
  case neg => exact keeps_write fun hvalue hpre => hq ⟨hvalue, hpre⟩
  obtain ⟨hvalue, r, rfl⟩ := hq
  cases r with
  | cons name r =>
    rw [Keeps, (hfree hvalue).below]
    trivial
  | nil =>
    rw [append_nil]
    cases hnode : Vfs.resolve ((parts path).dropLast ++ [lastName (parts path)]) tree with
    | none => simp [Keeps, hnode]
    | some node =>
      have hfree' := hfree hvalue
      rw [hnode] at hfree'
      cases node with
      | dir children proto => rcases hfree' with h | ⟨m, h⟩ <;> cases h
      | foreign json => simp [Keeps, hnode]
      | file content m =>
        rcases hfree' with h | ⟨m', h⟩
        · cases h
        · cases h
          exact (keeps_file hnode).mpr ⟨mime, resolve_written hvalue⟩

theorem read_not_written (htree : Rooted tree) (h : (write tree path s mime).value ≠ some true) :
    Vfs.resolve (parts path) (write tree path s mime).tree = none := by
  rcases write_cases tree path s mime with ⟨_, _, -, tree', hrun, -, -⟩ | ⟨hrun, hnodir⟩
  · exact absurd (congrArg Result.value hrun) h
  · rw [hrun]
    have hparts : parts path ≠ [] := by
      intro hparts
      obtain ⟨children, proto, rfl⟩ := exists_dir_of_isDir htree.isDir
      rw [hparts] at hnodir
      exact hnodir rfl children proto rfl
    have hstop : ∀ children proto, Vfs.resolve (parts path).dropLast
        (createDirs (parts path).dropLast tree).1 ≠ some (.dir children proto) := by
      rcases createDirs_cases htree.sound (parts path).dropLast with
        ⟨-, -, hmade⟩ | ⟨-, hnone, hmade⟩ | ⟨-, -, hok, -⟩ | ⟨-, -, hstop⟩
      · exact hnodir (by rw [hmade])
      · rw [hmade, hnone]
        exact fun _ _ h => nomatch h
      · exact hnodir hok
      · intro children proto hdir
        cases hstop _ hdir
    generalize (createDirs (parts path).dropLast tree).1 = made at hstop ⊢
    cases hnode : Vfs.resolve (parts path) made with
    | none => rfl
    | some node =>
      rw [← dropLast_append_lastName hparts] at hnode
      obtain ⟨children, proto, hdir⟩ := exists_dir_of_resolve_append hnode
      exact absurd hdir (hstop children proto)

end Write

/-! ### The removal -/

section Remove

variable {tree : Node} {path : String}

theorem keeps_remove (hq : ¬ (parts path).dropLast ++ [lastName (parts path)] <+: q) :
    Keeps tree (remove tree path).tree q := by
  rcases remove_cases tree path with ⟨_, _, -, -, tree', hrun, hupdate, -⟩ | ⟨hsame, -⟩
  · rw [hrun]
    exact keeps_of_kindAt ((kindAt_delete hupdate q).1 hq)
  · rw [hsame]
    exact keeps_of_kindAt rfl

/-- After the removal of something that is there, its path leads to what is inherited. -/
theorem resolve_remove {node : Node} (hparts : parts path ≠ [])
    (h : Vfs.resolve (parts path) tree = some node) :
    ∃ children proto,
      Vfs.resolve (parts path).dropLast tree = some (.dir children proto) ∧
      ∀ q, Vfs.resolve (parts path ++ q) (remove tree path).tree
        = (inherited proto (lastName (parts path))).bind (Vfs.resolve q) := by
  rw [← dropLast_append_lastName hparts] at h
  obtain ⟨children, proto, hdir⟩ := exists_dir_of_resolve_append h
  refine ⟨children, proto, hdir, fun q => ?_⟩
  rcases remove_cases tree path with
    ⟨children', proto', hdir', -, tree', hrun, -, hq⟩ | ⟨-, -, hnone⟩
  · cases hdir.symm.trans hdir'
    have hleft := resolve_removed hq
    rw [dropLast_append_lastName hparts] at hleft
    rw [hrun, resolve_append, hleft]
  · rw [resolve_append, hdir, bind_some] at h
    simp [Vfs.resolve, hnone children proto hdir] at h

theorem file_of_remove {node : Node} (hparts : parts path ≠ [])
    (hnode : Vfs.resolve (parts path) tree = some node) (hq : q ≠ parts path)
    (h : Vfs.resolve q (remove tree path).tree = some (.file s mime)) :
    ∃ node', Vfs.resolve q tree = some node' := by
  have hpath := dropLast_append_lastName hparts
  rcases prefix_or_apart (parts path).dropLast (lastName (parts path)) q with hpre | hpre | hpre
  · obtain ⟨r, hr⟩ := hpre
    obtain ⟨children, proto, hdir, -⟩ := resolve_remove hparts hnode
    cases r with
    | nil => exact ⟨_, by rw [← hr, append_nil] at hdir; exact hdir⟩
    | cons name r =>
      rw [← hr] at hdir
      obtain ⟨cs, pr, hq⟩ := exists_dir_of_resolve_append hdir
      exact ⟨_, hq⟩
  · rw [hpath] at hpre
    obtain ⟨r, rfl⟩ := hpre
    obtain ⟨children, proto, -, hleft⟩ := resolve_remove hparts hnode
    rw [hleft] at h
    obtain ⟨next, hinh, hnext⟩ := bind_eq_some_iff.mp h
    cases r with
    | nil => exact absurd (append_nil _) hq
    | cons name r =>
      rw [resolve_cons_not_dir (inherited_not_dir hinh)] at hnext
      cases hnext
  · rcases remove_cases tree path with ⟨_, _, -, -, tree', hrun, hupdate, -⟩ | ⟨hsame, -⟩
    · have hseen := seen_updateDir (seen_deleteName _) hpre hupdate
      rw [hrun] at h
      rw [h] at hseen
      cases hold : Vfs.resolve q tree with
      | none => simp [hold, seen] at hseen
      | some node' => exact ⟨node', rfl⟩
    · rw [hsame] at h
      exact ⟨_, h⟩

end Remove

/-! ### The commands -/

section Commands

variable {cwd : String} {a : List String} {tree : Node}

theorem lossless_copy_iff : Lossless cwd a tree .copy ↔ Careful cwd a tree .copy := by
  simp only [Lossless, Careful, Command.run, CommandPrompt.copy]
  cases hread : Vfs.read tree (resolve cwd a[0]?) with
  | none => exact iff_of_true (fun q => keeps_of_kindAt rfl) (fun _ h => nomatch h)
  | some s =>
    dsimp only
    constructor
    · rintro hkeeps _ ⟨⟩ hvalue
      exact free_of_keeps (hkeeps _) (resolve_written hvalue)
    · intro hcareful q
      exact keeps_write_of_free (hcareful s rfl) q

/-- The source of a move is a file, so it has a name and there is nothing below it. -/
theorem parts_ne_nil_of_file (htree : Rooted tree) {names : List String}
    (h : Vfs.resolve names tree = some (.file s mime)) : names ≠ [] := by
  rintro rfl
  cases h
  cases htree.isDir

/-- The two calls of a move, on a file that is there. -/
theorem careful_of_lossless (htree : Rooted tree) {source dest : String}
    (hsource : Vfs.resolve (parts source) tree = some (.file s mime)) {done : Result}
    (hdone : done = remove (write tree dest s "text/plain").tree source)
    (hkeeps : ∀ q, q ≠ parts source → Keeps tree done.tree q)
    (hmoved : done.value ≠ none → read done.tree dest = some s)
    (hself : parts dest = parts source → Keeps tree done.tree (parts source)) :
    parts dest ≠ [] ∧ (write tree dest s "text/plain").value = some true ∧
      Free s (Vfs.resolve (parts dest) tree) ∧
      (parts dest = parts source → lastName (parts source) = "__proto__") := by
  have hparts := parts_ne_nil_of_file htree hsource
  have hwritten : Rooted (write tree dest s "text/plain").tree :=
    htree.run (.write dest s "text/plain")
  have hrooted : Rooted done.tree := hdone ▸ hwritten.run (.remove source)
  -- the directory of the source is still there, so the removal has not thrown
  have hreport : done.value ≠ none := by
    have hname : (parts source).dropLast ≠ parts source := by
      intro h
      have hlength := congrArg length h
      rw [length_dropLast] at hlength
      have := length_pos_iff.mpr hparts
      omega
    rw [← dropLast_append_lastName hparts] at hsource
    obtain ⟨children, proto, hdir⟩ := exists_dir_of_resolve_append hsource
    have hkept := hkeeps _ hname
    rw [Keeps, hdir] at hkept
    obtain ⟨children', proto', hdir'⟩ := hkept
    rw [hdone] at hdir' ⊢
    rcases remove_cases (write tree dest s "text/plain").tree source with
      ⟨_, _, -, -, tree', hrun, -, -⟩ | ⟨hsame, -⟩
    · simp [hrun]
    · rw [hsame] at hdir'
      rw [remove, hdir']
      dsimp only
      split <;> simp
  obtain ⟨mime', hnew⟩ := file_of_read (hmoved hreport)
  have hvalue : (write tree dest s "text/plain").value = some true := by
    by_contra hfail
    obtain ⟨m, hthere⟩ := (keeps_file hsource).mp (keeps_write fun h => absurd h hfail)
    have hnone := read_not_written htree hfail
    by_cases hsame : parts dest = parts source
    · rw [hsame, hthere] at hnone
      cases hnone
    · rw [hdone] at hnew
      obtain ⟨node, hnode⟩ := file_of_remove hparts hthere hsame hnew
      rw [hnone] at hnode
      cases hnode
  refine ⟨parts_ne_nil_of_file hrooted hnew, hvalue, ?_, fun hsame => ?_⟩
  · by_cases hsame : parts dest = parts source
    · rw [hsame]
      exact .inr ⟨mime, hsource⟩
    · exact free_of_keeps (hkeeps _ hsame) hnew
  · have hthere := resolve_written hvalue
    rw [hsame, dropLast_append_lastName hparts] at hthere
    obtain ⟨_, proto, -, hleft⟩ := resolve_remove hparts hthere
    obtain ⟨m, hkept⟩ := (keeps_file hsource).mp (hself hsame)
    have hinh := hleft []
    rw [append_nil, ← hdone, hkept] at hinh
    obtain ⟨next, hinh, hnext⟩ := bind_eq_some_iff.mp hinh.symm
    cases hnext
    rcases inherited_cases hinh with h | ⟨hproto, -⟩
    · cases h
    · exact hproto

theorem resolve_remove_proto (htree : Rooted tree) {path : String}
    (h : Vfs.resolve (parts path) tree = some (.file s mime))
    (hproto : lastName (parts path) = "__proto__") :
    Vfs.resolve (parts path) (remove tree path).tree = some (.file s mime) := by
  have hparts := parts_ne_nil_of_file htree h
  obtain ⟨children, proto, hdir, hleft⟩ := resolve_remove hparts h
  have hown := (htree.sound.dir_of_resolve hdir).get_proto
  have hafter := hleft []
  rw [append_nil] at hafter
  rw [← dropLast_append_lastName hparts, resolve_append, hdir, bind_some, hproto,
    resolve_cons_inherited hown] at h
  rw [hafter, hproto]
  exact h

theorem lossless_of_careful (htree : Rooted tree) {source dest : String}
    (hsource : Vfs.resolve (parts source) tree = some (.file s mime)) (hdest : parts dest ≠ [])
    (hvalue : (write tree dest s "text/plain").value = some true)
    (hfree : Free s (Vfs.resolve (parts dest) tree))
    (hself : parts dest = parts source → lastName (parts source) = "__proto__") {final : Node}
    (hfinal : final = (remove (write tree dest s "text/plain").tree source).tree) :
    (∀ q, q ≠ parts source → Keeps tree final q) ∧ read final dest = some s ∧
      (parts dest = parts source → Keeps tree final (parts source)) := by
  have hparts := parts_ne_nil_of_file htree hsource
  have hwritten : Rooted (write tree dest s "text/plain").tree :=
    htree.run (.write dest s "text/plain")
  have hkeeps : ∀ q, Keeps tree (write tree dest s "text/plain").tree q := by
    refine keeps_write_of_free fun _ => ?_
    rwa [dropLast_append_lastName hdest]
  have hnew := resolve_written hvalue
  rw [dropLast_append_lastName hdest] at hnew
  obtain ⟨mime', hthere⟩ := (keeps_file hsource).mp (hkeeps (parts source))
  have hremoved : ∀ q, ¬ parts source <+: q →
      Keeps (write tree dest s "text/plain").tree final q := by
    intro q hq
    rw [hfinal]
    exact keeps_remove (by rwa [dropLast_append_lastName hparts])
  have hkept : parts dest = parts source →
      Vfs.resolve (parts source) final = some (.file s mime') := by
    intro hsame
    rw [hfinal]
    exact resolve_remove_proto hwritten hthere (hself hsame)
  refine ⟨fun q hq => ?_, ?_, fun hsame => (keeps_file hsource).mpr ⟨mime', hkept hsame⟩⟩
  · by_cases hbelow : parts source <+: q
    · obtain ⟨r, rfl⟩ := hbelow
      cases r with
      | nil => exact absurd (append_nil _) hq
      | cons name r =>
        rw [Keeps, resolve_below_file hsource]
        trivial
    · exact (hkeeps q).trans (hremoved q hbelow)
  · by_cases hsame : parts dest = parts source
    · rw [Vfs.read, hsame, hkept hsame]
    · have hapart : ¬ parts source <+: parts dest := by
        rintro ⟨r, hr⟩
        cases r with
        | nil => exact hsame (by rw [← hr, append_nil])
        | cons name r =>
          rw [← hr, resolve_below_file hthere] at hnew
          cases hnew
      obtain ⟨m, hfile⟩ := (keeps_file hnew).mp (hremoved _ hapart)
      rw [Vfs.read, hfile]

theorem lossless_move_iff (htree : Rooted tree) :
    Lossless cwd a tree .move ↔ Careful cwd a tree .move := by
  simp only [Lossless, Careful, Command.run, CommandPrompt.move]
  generalize resolve cwd a[0]? = source
  generalize resolve cwd a[1]? = dest
  cases hread : Vfs.read tree source with
  | none =>
    dsimp only
    refine iff_of_true ⟨fun q _ => keeps_of_kindAt rfl, fun h => ?_, fun _ h => ?_, fun _ => ?_⟩
      (fun _ h => ?_)
    · simp [moved] at h
    · cases h
    · exact keeps_of_kindAt rfl
    · cases h
  | some s =>
    obtain ⟨mime, hsource⟩ := file_of_read hread
    dsimp only
    constructor
    · rintro ⟨hkeeps, hmoved, -, hself⟩ _ ⟨⟩
      refine careful_of_lossless htree hsource rfl hkeeps (fun h => hmoved ?_) hself
      obtain ⟨b, hb⟩ := ne_none_iff_exists'.mp h
      rw [hb]
      rfl
    · intro hcareful
      obtain ⟨hdest, hvalue, hfree, hself⟩ := hcareful s rfl
      obtain ⟨hkeeps, hmoved, hsame⟩ :=
        lossless_of_careful htree hsource hdest hvalue hfree hself rfl
      refine ⟨hkeeps, fun _ => hmoved, fun _ h hfail => ?_, hsame⟩
      cases h
      exact absurd hvalue hfail

/-- `COPY`, `MOVE` and `REN` lose nothing exactly in the cases of `Careful`. -/
theorem lossless_iff (htree : Rooted tree) (cwd : String) (a : List String) (command : Command) :
    Lossless cwd a tree command ↔ Careful cwd a tree command := by
  cases command with
  | copy => exact lossless_copy_iff
  | move => exact lossless_move_iff htree
  | ren => exact lossless_move_iff htree

def oneFile : Node := .dir [("notes.txt", .file "1" "text/plain")] none

theorem rooted_oneFile : Rooted oneFile :=
  ⟨rfl, .of_mem (by simp) (by simp) (by simpa using .file)⟩

/-- Renaming a file. -/
theorem lossless_iff_rename :
    Lossless "/" ["notes.txt", "C:\\Old\\notes.txt"] oneFile .ren := by
  refine (lossless_iff rooted_oneFile _ _ _).mpr fun s hs => ?_
  have hcontent : read oneFile (resolve "/" (some "notes.txt")) = some "1" := by decide +kernel
  cases hcontent.symm.trans hs
  have hdest : parts (resolve "/" (some "C:\\Old\\notes.txt")) = ["Old", "notes.txt"] := by
    decide +kernel
  have hsource : parts (resolve "/" (some "notes.txt")) = ["notes.txt"] := by decide +kernel
  refine ⟨?_, by decide +kernel, .inl ?_, fun hsame => ?_⟩
  · exact hdest ▸ cons_ne_nil _ _
  · exact hdest ▸ rfl
  · exact absurd (hdest.symm.trans (hsame.trans hsource)) (by decide)

/-- Moving a file onto itself reports it as moved, and the file is gone. -/
theorem move_onto_itself_loses : Rooted oneFile ∧
    (CommandPrompt.move "/" ["notes.txt", "c:notes.txt"] oneFile).printed = some moved ∧
    ¬ Lossless "/" ["notes.txt", "c:notes.txt"] oneFile .move := by
  refine ⟨rooted_oneFile, by decide +kernel, fun h => ?_⟩
  have hsame : parts (resolve "/" (some "c:notes.txt")) = ["notes.txt"] := by decide +kernel
  have hsource : parts (resolve "/" (some "notes.txt")) = ["notes.txt"] := by decide +kernel
  have hgone : (Vfs.resolve ["notes.txt"]
      (CommandPrompt.move "/" ["notes.txt", "c:notes.txt"] oneFile).tree).isNone := by
    decide +kernel
  have hkept := h.2.2.2 (hsame.trans hsource.symm)
  have hold : Vfs.resolve (parts (resolve "/" (some "notes.txt"))) oneFile
      = some (.file "1" "text/plain") := by
    rw [hsource]
    rfl
  obtain ⟨mime, hfile⟩ := (keeps_file hold).mp hkept
  rw [hsource] at hfile
  exact absurd ((isNone_iff_eq_none.mp hgone).symm.trans hfile) (by simp)

end Commands

end Bootbox.CommandPrompt
