import Bootbox.Vfs.Views

/-!
`copyRec` of the File Explorer (`apps/filemanager.js`): the recursive copy of a file or of a
directory with all below it.

A directory is listed after its copy has been created, so the copy is seen in the listing if
it lies in the directory. Then the recursion does not end (`copyRec_eq_none`). In all other
cases it ends; what it makes of the tree is said by `Copying`, which holds from one call to the
next as long as no copy of a file gets in the way of the source or of other files.
-/

namespace Bootbox.FileExplorer

open Lib Vfs List

/-- `here`: the path of a name in a folder. -/
def here (cwd name : String) : String := (if cwd = "/" then "" else cwd) ++ "/" ++ name

/-- `copyRec`, or nothing if more than `fuel` calls are made inside each other. -/
def copyRec : ℕ → Node → String → String → Option Node
  | 0, _, _, _ => none
  | fuel + 1, tree, src, dest =>
    if isDirAt tree src then
      let tree := (mkdir tree dest).tree
      (list tree src).foldlM
        (fun tree it => copyRec fuel tree (here src it.name) (dest ++ "/" ++ it.name)) tree
    -- `VFS.write(dest, VFS.read(src) || "")`
    else some (write tree dest ((read tree src).getD "") "text/plain").tree

theorem parts_here (cwd name : String) : parts (here cwd name) = parts cwd ++ parts name := by
  have hroot : parts (if cwd = "/" then "" else cwd) = parts cwd := by
    split
    case isTrue h =>
      rw [h]
      rfl
    case isFalse => rfl
  rw [here, parts_append, hroot]

def copyAll (fuel : ℕ) (src dest : String) (names : List String) (tree : Node) : Option Node :=
  names.foldlM (fun tree name => copyRec fuel tree (here src name) (dest ++ "/" ++ name)) tree

section Equations

variable {fuel : ℕ} {tree : Node} {src dest : String}

theorem copyRec_dir (h : kindAt tree (parts src) = some .dir) :
    copyRec (fuel + 1) tree src dest =
      copyAll fuel src dest ((list (mkdir tree dest).tree src).map Entry.name)
        (mkdir tree dest).tree := by
  rw [copyRec, if_pos (isDirAt_iff.mpr h), copyAll, foldlM_map]

theorem copyRec_not_dir (h : kindAt tree (parts src) ≠ some .dir) :
    copyRec (fuel + 1) tree src dest =
      some (write tree dest ((read tree src).getD "") "text/plain").tree := by
  rw [copyRec, if_neg (fun hdir => h (isDirAt_iff.mp hdir))]

theorem copyRec_file {content mime : String}
    (h : kindAt tree (parts src) = some (.file content mime)) :
    copyRec (fuel + 1) tree src dest = some (write tree dest content "text/plain").tree := by
  rw [copyRec_not_dir (by simp [h]), Vfs.read, kindAt_eq_file.mp h]
  rfl

theorem copyAll_cons (name : String) (names : List String) :
    copyAll fuel src dest (name :: names) tree =
      (copyRec fuel tree (here src name) (dest ++ "/" ++ name)).bind
        (copyAll fuel src dest names) := by
  rw [copyAll, foldlM_cons]
  rfl

theorem listed (h : Tidy tree) {name : String} (hname : name ∈ (list tree src).map Entry.name) :
    name ≠ "__proto__" ∧ parts name = [name] ∧ kindAt tree (parts src ++ [name]) ≠ none := by
  obtain ⟨hproto, hkind⟩ := (mem_list h.rooted.sound).mp hname
  exact ⟨hproto, parts_of_proper (h.proper _ _ hkind), hkind⟩

end Equations

/-! ### What every copy does -/

section Induct

variable {fuel : ℕ} {tree tree' : Node} {src dest : String}

theorem copyAll_induct {Q : Node → Prop} {names : List String}
    (hstep : ∀ name ∈ names, ∀ t t', Q t →
      copyRec fuel t (here src name) (dest ++ "/" ++ name) = some t' → Q t')
    (htree : Q tree) (h : copyAll fuel src dest names tree = some tree') : Q tree' := by
  induction names generalizing tree with
  | nil =>
    cases h
    exact htree
  | cons name names ih =>
    rw [copyAll_cons] at h
    obtain ⟨t, hfirst, hrest⟩ := Option.bind_eq_some_iff.mp h
    have ht := hstep name (mem_cons_self ..) tree t htree hfirst
    exact ih (fun n hn => hstep n (mem_cons_of_mem name hn)) ht hrest

/-- If one of the copies does not end, then they do not all end. -/
theorem copyAll_eq_none {Q : Node → Prop} {names : List String} {name : String}
    (hname : name ∈ names)
    (hstep : ∀ name ∈ names, ∀ t t', Q t →
      copyRec fuel t (here src name) (dest ++ "/" ++ name) = some t' → Q t')
    (hnone : ∀ t, Q t → copyRec fuel t (here src name) (dest ++ "/" ++ name) = none)
    (htree : Q tree) : copyAll fuel src dest names tree = none := by
  induction names generalizing tree with
  | nil => cases hname
  | cons n names ih =>
    rw [copyAll_cons]
    cases hrun : copyRec fuel tree (here src n) (dest ++ "/" ++ n) with
    | none => rfl
    | some t =>
      rcases mem_cons.mp hname with rfl | hname
      · simp [hnone tree htree] at hrun
      · exact ih hname (fun k hk => hstep k (mem_cons_of_mem n hk))
          (hstep n (mem_cons_self ..) tree t htree hrun)

/-- What holds of every call of `mkdir` and `write`, and at a path if it holds at a path below
it, holds of the whole copy. -/
theorem copyRec_induct {R : List String → Node → Node → Prop}
    (htrans : ∀ d t₁ t₂ t₃, R d t₁ t₂ → R d t₂ t₃ → R d t₁ t₃)
    (hmkdir : ∀ t path, Tidy t → R (parts path) t (mkdir t path).tree)
    (hwrite : ∀ t path content, Tidy t →
      R (parts path) t (write t path content "text/plain").tree)
    (hchild : ∀ d name t t', name ≠ "__proto__" → R (d ++ [name]) t t' → R d t t')
    (htree : Tidy tree) (h : copyRec fuel tree src dest = some tree') :
    Tidy tree' ∧ R (parts dest) tree tree' := by
  induction fuel generalizing tree tree' src dest with
  | zero => cases h
  | succ fuel ih =>
    by_cases hdir : kindAt tree (parts src) = some .dir
    · rw [copyRec_dir hdir] at h
      have hmade := htree.mkdir dest
      refine copyAll_induct (Q := fun t => Tidy t ∧ R (parts dest) tree t)
        (fun name hname t t' ht hrun => ?_) ⟨hmade, hmkdir tree dest htree⟩ h
      obtain ⟨hproto, hparts, -⟩ := listed hmade hname
      obtain ⟨ht', hr⟩ := ih ht.1 hrun
      rw [parts_append, hparts] at hr
      exact ⟨ht', htrans _ _ _ _ ht.2 (hchild _ name t t' hproto hr)⟩
    · rw [copyRec_not_dir hdir] at h
      cases h
      exact ⟨htree.write _ _ _, hwrite _ _ _ htree⟩

theorem tidy_copyRec (htree : Tidy tree) (h : copyRec fuel tree src dest = some tree') :
    Tidy tree' :=
  (copyRec_induct (R := fun _ _ _ => True) (fun _ _ _ _ _ _ => trivial) (fun _ _ _ => trivial)
    (fun _ _ _ _ => trivial) (fun _ _ _ _ _ _ => trivial) htree h).1

theorem file_of_copyRec (htree : Tidy tree) (h : copyRec fuel tree src dest = some tree')
    {q : List String} {content mime : String} (hq : kindAt tree' q = some (.file content mime)) :
    kindAt tree q = some (.file content mime) ∨
      mime = "text/plain" ∧ ∃ r, q = written (parts dest ++ r) ∧ "__proto__" ∉ r := by
  have hfiles := (copyRec_induct (R := fun d t t' => ∀ q content mime,
    kindAt t' q = some (.file content mime) → kindAt t q = some (.file content mime) ∨
      mime = "text/plain" ∧ ∃ r, q = written (d ++ r) ∧ "__proto__" ∉ r)
    ?_ ?_ ?_ ?_ htree h).2
  · exact hfiles q content mime hq
  · intro d t₁ t₂ t₃ h₁ h₂ q content mime hq
    rcases h₂ q content mime hq with hold | hnew
    · exact h₁ q content mime hold
    · exact .inr hnew
  · intro t path ht q content mime hq
    rw [kindAt_mkdir] at hq
    split at hq
    case isTrue => cases hq
    case isFalse => exact .inl hq
  · intro t path content' ht q content mime hq
    rcases write_inv hq with ⟨heq, hk⟩ | ⟨-, -, hk⟩ | hold
    · cases hk
      exact .inr ⟨rfl, [], by rw [append_nil, heq], by simp⟩
    · cases hk
    · exact .inl hold
  · intro d name t t' hname ht q content mime hq
    rcases ht q content mime hq with hold | ⟨hmime, r, hr, hproto⟩
    · exact .inl hold
    · refine .inr ⟨hmime, name :: r, by rw [hr, append_assoc]; rfl, ?_⟩
      rw [mem_cons, not_or]
      exact ⟨Ne.symm hname, hproto⟩

theorem creatable_of_copyRec (hdest : lastName (parts dest) ≠ "__proto__") (htree : Tidy tree)
    (h : copyRec fuel tree src dest = some tree') {q : List String} (hq : Creatable q tree') :
    Creatable q tree := by
  refine (copyRec_induct (R := fun d t t' => lastName d ≠ "__proto__" →
    ∀ q, Creatable q t' → Creatable q t) ?_ ?_ ?_ ?_ htree h).2 hdest q hq
  · intro d t₁ t₂ t₃ h₁ h₂ hd q hq
    exact h₁ hd q (h₂ hd q hq)
  · intro t path ht hd q hq
    exact (creatable_mkdir t path q).mp hq
  · intro t path content ht hd q hq
    exact ((creatable_write t content "text/plain" hd q).mp hq).1
  · intro d name t t' hname ht hd q hq
    refine ht ?_ q hq
    rw [lastName, getLast?_append]
    exact hname

theorem creatable_of_copyRec_dir (hdir : kindAt tree (parts src) = some .dir) (htree : Tidy tree)
    (h : copyRec fuel tree src dest = some tree') {q : List String} (hq : Creatable q tree') :
    Creatable q tree := by
  cases fuel with
  | zero => cases h
  | succ fuel =>
    rw [copyRec_dir hdir] at h
    have hmade := htree.mkdir dest
    have hall := copyAll_induct (Q := fun t => Tidy t ∧ ∀ q, Creatable q t → Creatable q tree)
      (fun name hname t t' ht hrun => ?_)
      ⟨hmade, fun q hq => (creatable_mkdir tree dest q).mp hq⟩ h
    · exact hall.2 q hq
    · obtain ⟨hproto, hparts, -⟩ := listed hmade hname
      have hlast : lastName (parts (dest ++ "/" ++ name)) ≠ "__proto__" := by
        rw [parts_append, hparts, lastName, getLast?_append]
        exact hproto
      refine ⟨tidy_copyRec ht.1 hrun, fun q hq => ht.2 q ?_⟩
      exact creatable_of_copyRec hlast ht.1 hrun hq

/-- A copy is not seen outside of its target, but for the directories made on the way there. -/
theorem kindAt_of_copyRec (htree : Tidy tree) (h : copyRec fuel tree src dest = some tree')
    {q : List String} (hq : ¬ parts dest <+: q) (hold : kindAt tree q ≠ none ∨ ¬ q <+: parts dest) :
    kindAt tree' q = kindAt tree q := by
  have hmade : ∀ (d : List String) (t : Node), kindAt t q ≠ none ∨ ¬ q <+: d →
      q <+: d → Creatable q t → kindAt t q = some .dir := by
    intro d t hold hpre hcreate
    exact dir_of_creatable hcreate (hold.resolve_right fun h => h hpre)
  refine (copyRec_induct (R := fun d t t' => ¬ d <+: q → (kindAt t q ≠ none ∨ ¬ q <+: d) →
    kindAt t' q = kindAt t q) ?_ ?_ ?_ ?_ htree h).2 hq hold
  · intro d t₁ t₂ t₃ h₁ h₂ hd hold
    have heq := h₁ hd hold
    rw [h₂ hd (heq ▸ hold), heq]
  · intro t path _ hd hold
    rw [kindAt_mkdir]
    split
    case isTrue hpre => rw [hmade _ t hold hpre.1 hpre.2]
    case isFalse => rfl
  · intro t path content _ hd hold
    have hpath : parts path ≠ [] := by
      intro hnil
      exact hd (hnil ▸ nil_prefix)
    rw [kindAt_write, written_eq hpath, if_neg (fun hpre => hd hpre.2)]
    split
    case isTrue hpre =>
      rw [hmade _ t hold (hpre.1.trans <| dropLast_prefix _) hpre.2]
    case isFalse => rfl
  · intro d name t t' _ hchild hd hold
    have hpre : q <+: d ++ [name] → q <+: d := by
      intro hpre
      rcases prefix_concat_iff.mp hpre with rfl | hpre
      · exact absurd (prefix_append d [name]) hd
      · exact hpre
    exact hchild (fun h => hd ((prefix_append d [name]).trans h))
      (hold.imp_right fun hnot h => hnot (hpre h))

theorem copyRec_succ (h : copyRec fuel tree src dest = some tree') :
    copyRec (fuel + 1) tree src dest = some tree' := by
  induction fuel generalizing tree tree' src dest with
  | zero => cases h
  | succ fuel ih =>
    by_cases hdir : kindAt tree (parts src) = some .dir
    · rw [copyRec_dir hdir] at h ⊢
      generalize (list (mkdir tree dest).tree src).map Entry.name = names at h ⊢
      generalize (mkdir tree dest).tree = made at h ⊢
      induction names generalizing made with
      | nil => exact h
      | cons name names ihn =>
        rw [copyAll_cons] at h ⊢
        obtain ⟨t, hfirst, hrest⟩ := Option.bind_eq_some_iff.mp h
        rw [ih hfirst, Option.bind_some]
        exact ihn t hrest
    · rw [copyRec_not_dir hdir] at h ⊢
      exact h

theorem copyRec_mono {fuel' : ℕ} (hle : fuel ≤ fuel')
    (h : copyRec fuel tree src dest = some tree') : copyRec fuel' tree src dest = some tree' := by
  induction fuel', hle using Nat.le_induction with
  | base => exact h
  | succ n _ ih => exact copyRec_succ ih

end Induct

/-! ### A copy that does not end -/

structure Grown (t t' : Node) : Prop where
  tidy : Tidy t'
  dirs : ∀ q, kindAt t q = some .dir → kindAt t' q = some .dir
  files : ∀ q content mime,
    kindAt t' q = some (.file content mime) → kindAt t q = some (.file content mime)
  creatable : ∀ q, Creatable q t → Creatable q t'

namespace Grown

variable {t t₁ t₂ t₃ : Node}

theorem refl (h : Tidy t) : Grown t t where
  tidy := h
  dirs _ hq := hq
  files _ _ _ hq := hq
  creatable _ hq := hq

theorem trans (h : Grown t₁ t₂) (h' : Grown t₂ t₃) : Grown t₁ t₃ where
  tidy := h'.tidy
  dirs q hq := h'.dirs q (h.dirs q hq)
  files q content mime hq := h.files q content mime (h'.files q content mime hq)
  creatable q hq := h'.creatable q (h.creatable q hq)

theorem mkdir (h : Tidy t) (path : String) : Grown t (mkdir t path).tree where
  tidy := h.mkdir path
  dirs q hq := by
    rw [kindAt_mkdir, hq, ite_self]
  files q content mime hq := by
    rw [kindAt_mkdir] at hq
    split at hq
    case isTrue => cases hq
    case isFalse => exact hq
  creatable q hq := (creatable_mkdir t path q).mpr hq

end Grown

section NoFiles

variable {S e : List String}

def NoFiles (t : Node) (S : List String) : Prop :=
  ∀ r content mime, kindAt t (S ++ r) ≠ some (.file content mime)

theorem NoFiles.grown {t t' : Node} (h : NoFiles t S) (hgrown : Grown t t') : NoFiles t' S :=
  fun r content mime hfile => h r content mime (hgrown.files _ _ _ hfile)

theorem NoFiles.dir {t : Node} (h : NoFiles t S) {r : List String} (hr : kindAt t (S ++ r) ≠ none) :
    kindAt t (S ++ r) = some .dir := by
  cases hkind : kindAt t (S ++ r) with
  | none => exact absurd hkind hr
  | some kind =>
    cases kind with
    | dir => rfl
    | file content mime => exact absurd hkind (h r content mime)

theorem grown_copyRec {fuel : ℕ} {t t' : Node} {u : List String} {src dest : String} (ht : Tidy t)
    (hfree : NoFiles t S) (hsrc : parts src = S ++ u) (hdir : kindAt t (S ++ u) = some .dir)
    (h : copyRec fuel t src dest = some t') : Grown t t' := by
  induction fuel generalizing t t' u src dest with
  | zero => cases h
  | succ fuel ih =>
    rw [copyRec_dir (hsrc ▸ hdir)] at h
    have hmade := Grown.mkdir ht dest
    refine hmade.trans (copyAll_induct (Q := Grown (mkdir t dest).tree)
      (fun name hname t₁ t₂ h₁ hrun => ?_) (.refl hmade.tidy) h)
    obtain ⟨-, hparts, hkind⟩ := listed hmade.tidy hname
    rw [hsrc, append_assoc] at hkind
    have hchild := h₁.dirs _ ((hfree.grown hmade).dir hkind)
    refine h₁.trans (ih h₁.tidy ((hfree.grown hmade).grown h₁) ?_ hchild hrun)
    rw [parts_here, hparts, hsrc, append_assoc]

/-- The copy of a directory into itself, or into a directory in it, does not end: each call
finds the directory that the one before it has made. -/
theorem copyRec_eq_none (he : e ≠ []) (fuel : ℕ) {t : Node} (ht : Tidy t) (hfree : NoFiles t S)
    {u : List String} {src dest : String} (hsrc : parts src = S ++ u)
    (hdest : parts dest = S ++ e ++ u) (hu : u <+: e ++ u) (hdir : kindAt t (S ++ u) = some .dir)
    (hcreate : Creatable (S ++ e ++ u) t) : copyRec fuel t src dest = none := by
  induction fuel generalizing t u src dest with
  | zero => rfl
  | succ fuel ih =>
    rw [copyRec_dir (hsrc ▸ hdir)]
    have hmade := Grown.mkdir ht dest
    have hfree' := hfree.grown hmade
    have hcopy : kindAt (mkdir t dest).tree (S ++ e ++ u) = some .dir := by
      rw [kindAt_mkdir, if_pos ⟨hdest ▸ prefix_rfl, hcreate⟩]
    -- the name that leads from the source towards its copy
    obtain ⟨name, hnext⟩ : ∃ name, u ++ [name] <+: e ++ u := by
      obtain ⟨r, hr⟩ := hu
      cases r with
      | nil =>
        have hlen := congrArg length hr
        simp [he] at hlen
      | cons name r => exact ⟨name, r, by rw [← hr, append_assoc]; rfl⟩
    have hchild : kindAt (mkdir t dest).tree (S ++ (u ++ [name])) = some .dir := by
      refine kindAt_eq_dir_above ?_ hcopy
      rw [append_assoc S e u]
      exact (prefix_append_right_inj S).mpr hnext
    have hname : name ∉ objectPrototype := by
      rw [← append_assoc] at hchild
      exact hmade.tidy.dirs _ name hchild
    have hlist : name ∈ (list (mkdir t dest).tree src).map Entry.name := by
      refine (mem_list hmade.tidy.rooted.sound).mpr ⟨?_, ?_⟩
      · rintro rfl
        exact hname (by decide)
      · rw [hsrc, append_assoc, hchild]
        simp
    have hparts := (listed hmade.tidy hlist).2.1
    refine copyAll_eq_none (Q := Grown (mkdir t dest).tree) hlist
      (fun n hn t₁ t₂ h₁ hrun => ?_) (fun t₁ h₁ => ?_) (.refl hmade.tidy)
    · obtain ⟨-, hn', hkind⟩ := listed hmade.tidy hn
      rw [hsrc, append_assoc] at hkind
      refine h₁.trans
        (grown_copyRec h₁.tidy (hfree'.grown h₁) ?_ (h₁.dirs _ (hfree'.dir hkind)) hrun)
      rw [parts_here, hn', hsrc, append_assoc]
    · have hfree₁ := hfree'.grown h₁
      have hproto : kindAt t₁ (S ++ e ++ u ++ ["__proto__"]) = none := by
        by_contra hne
        have hne' : kindAt t₁ (S ++ (e ++ u ++ ["__proto__"])) ≠ none := by
          simpa [append_assoc] using hne
        have hd := hfree₁.dir hne'
        rw [← append_assoc, ← append_assoc] at hd
        exact h₁.tidy.dirs _ _ hd (by decide)
      refine ih h₁.tidy hfree₁ ?_ ?_ ?_ (h₁.dirs _ hchild) ?_
      · rw [parts_here, hparts, hsrc, append_assoc]
      · rw [parts_append, hparts, hdest, append_assoc]
      · refine hnext.trans ?_
        rw [← append_assoc]
        exact prefix_append _ _
      · rw [← append_assoc]
        refine creatable_concat h₁.tidy.rooted.sound (h₁.dirs _ hcopy) hproto hname ?_
        intro content mime hfile
        refine hfree₁ (e ++ u ++ [name]) content mime ?_
        simpa [append_assoc] using hfile

end NoFiles

end Bootbox.FileExplorer
