import Bootbox.Lib.Splitting
import Bootbox.Vfs.Calls

/-!
What is seen of the tree at a path: a directory, a file with its content and type, or
nothing. Each call of the virtual file system changes this view in a way that one equation
says, in terms of the view before it and of the directories that can be had
(`Creatable`).
-/

namespace Bootbox.Vfs

open Lib List Option OrderedMap

inductive Kind
  | dir
  | file (content mime : String)
deriving DecidableEq

def Node.kind : Node → Option Kind
  | .dir _ _ => some .dir
  | .file content mime => some (.file content mime)
  | .foreign _ => none

def kindAt (tree : Node) (q : List String) : Option Kind := (resolve q tree).bind Node.kind

theorem kindAt_seen (tree : Node) (q : List String) :
    kindAt tree q = (seen (resolve q tree)).bind Node.kind := by
  rw [kindAt]
  rcases resolve q tree with _ | _ | _ | _ <;> rfl

theorem kindAt_eq_of_seen {tree tree' : Node} {q : List String}
    (h : seen (resolve q tree') = seen (resolve q tree)) : kindAt tree' q = kindAt tree q := by
  rw [kindAt_seen, h, ← kindAt_seen]

/-- The directory at this path is there, or creating the directories of the path makes it. -/
def Creatable : List String → Node → Prop
  | [], .dir _ _ => True
  | name :: names, .dir children proto =>
    match get children name with
    | some next => Creatable names next
    | none => inherited proto name = none ∧ ∀ n ∈ names, n ∉ objectPrototype
  | _, _ => False

section Cons

variable {children : List (String × Node)} {proto : Option (String × String)} {name : String}

theorem kindAt_own {next : Node} (h : get children name = some next)
    (q : List String) : kindAt (.dir children proto) (name :: q) = kindAt next q := by
  rw [kindAt, resolve_own h, kindAt]

/-- Nothing is seen of a prototype but the file assigned to `__proto__`. -/
theorem kindAt_inherited (h : get children name = none) (q : List String) :
    kindAt (.dir children proto) (name :: q) =
      if name = "__proto__" ∧ q = [] then proto.map fun p => .file p.1 p.2 else none := by
  by_cases hname : name = "__proto__"
  · subst hname
    rw [kindAt, resolve_cons_inherited h]
    cases proto <;> cases q <;> simp [inherited, objectPrototype, resolve, Node.kind]
  · rw [kindAt_seen, seen_resolve_inherited h hname, if_neg (fun h => hname h.1)]
    rfl

theorem creatable_own {next : Node} (h : get children name = some next)
    (q : List String) : Creatable (name :: q) (.dir children proto) ↔ Creatable q next := by
  simp [Creatable, h]

theorem creatable_new (h : get children name = none) (q : List String) :
    Creatable (name :: q) (.dir children proto) ↔
      inherited proto name = none ∧ ∀ n ∈ q, n ∉ objectPrototype := by
  simp [Creatable, h]

instance decidableCreatable : (q : List String) → (tree : Node) → Decidable (Creatable q tree)
  | [], .dir _ _ => isTrue trivial
  | name :: names, .dir children proto =>
    match hget : get children name with
    | some next =>
      have := decidableCreatable names next
      decidable_of_iff _ (creatable_own hget names).symm
    | none =>
      decidable_of_iff ((inherited proto name).isNone = true ∧ ∀ n ∈ names, n ∉ objectPrototype)
        (by rw [creatable_new hget, isNone_iff_eq_none])
  | [], .file _ _ => isFalse id
  | [], .foreign _ => isFalse id
  | _ :: _, .file _ _ => isFalse id
  | _ :: _, .foreign _ => isFalse id

theorem kindAt_set (next : Node) (q : List String) :
    kindAt (.dir (set children name next) proto) (name :: q) = kindAt next q :=
  kindAt_own (by rw [get_set, if_pos rfl]) q

/-- What is seen under a name depends on the child of that name and, for `__proto__`, on the
prototype. -/
theorem kindAt_congr {children' : List (String × Node)} {proto' : Option (String × String)}
    (hget : get children' name = get children name)
    (hproto : name = "__proto__" → proto' = proto) (q : List String) :
    kindAt (.dir children' proto') (name :: q) = kindAt (.dir children proto) (name :: q) :=
  kindAt_eq_of_seen (seen_resolve_congr hget hproto q)

theorem kindAt_set_ne {k : String} (hk : k ≠ name) (next : Node) (q : List String) :
    kindAt (.dir (set children name next) proto) (k :: q)
      = kindAt (.dir children proto) (k :: q) :=
  kindAt_congr (by rw [get_set, if_neg hk]) (fun _ => rfl) q

theorem creatable_set (next : Node) (q : List String) :
    Creatable (name :: q) (.dir (set children name next) proto) ↔ Creatable q next :=
  creatable_own (by rw [get_set, if_pos rfl]) q

theorem creatable_set_ne {k : String} (hk : k ≠ name) (next : Node) (q : List String) :
    Creatable (k :: q) (.dir (set children name next) proto)
      ↔ Creatable (k :: q) (.dir children proto) := by
  simp only [Creatable, get_set, if_neg hk]

end Cons

variable {tree tree' : Node}

theorem kindAt_cons_of_not_dir (h : tree.isDir = false) (name : String) (q : List String) :
    kindAt tree (name :: q) = none := by
  rw [kindAt, resolve_cons_not_dir h]
  rfl

theorem not_creatable_of_not_dir (h : tree.isDir = false) (q : List String) :
    ¬ Creatable q tree := by
  cases tree with
  | dir children proto => cases h
  | _ => cases q <;> exact id

variable {q p names : List String}

theorem kindAt_eq_dir :
    kindAt tree q = some .dir ↔ ∃ children proto, resolve q tree = some (.dir children proto) := by
  rw [kindAt]
  rcases resolve q tree with _ | _ | _ | _ <;> simp [Node.kind]

variable {content mime name path : String}

theorem kindAt_eq_file :
    kindAt tree q = some (.file content mime) ↔
      resolve q tree = some (.file content mime) := by
  rw [kindAt]
  rcases resolve q tree with _ | _ | _ | _ <;> simp [Node.kind]

theorem kindAt_append_file (h : kindAt tree p = some (.file content mime)) (hq : q ≠ []) :
    kindAt tree (p ++ q) = none := by
  cases q with
  | nil => exact absurd rfl hq
  | cons name q =>
    rw [kindAt, resolve_below_file (kindAt_eq_file.mp h)]
    rfl

theorem kindAt_eq_dir_of_append (hq : q ≠ []) (h : kindAt tree (p ++ q) ≠ none) :
    kindAt tree p = some .dir := by
  cases q with
  | nil => exact absurd rfl hq
  | cons name q =>
    rw [kindAt] at h
    cases hnode : resolve (p ++ name :: q) tree with
    | none => simp [hnode] at h
    | some node => exact kindAt_eq_dir.mpr (exists_dir_of_resolve_append hnode)

theorem kindAt_eq_dir_above (hp : p <+: q) (h : kindAt tree q = some .dir) :
    kindAt tree p = some .dir := by
  obtain ⟨r, rfl⟩ := hp
  by_cases hr : r = []
  · rwa [hr, append_nil] at h
  · exact kindAt_eq_dir_of_append hr (by simp [h])

theorem Creatable.of_prefix (hp : p <+: q) (h : Creatable q tree) : Creatable p tree := by
  obtain ⟨r, rfl⟩ := hp
  induction p, tree using walkInduct with
  | here tree =>
    cases tree with
    | dir children proto => trivial
    | _ => exact absurd h (not_creatable_of_not_dir rfl _)
  | own name p children proto next hown ih =>
    rw [cons_append, creatable_own hown] at h
    rw [creatable_own hown]
    exact ih h
  | new name p children proto hown =>
    rw [cons_append, creatable_new hown] at h
    rw [creatable_new hown]
    exact ⟨h.1, fun n hn => h.2 n (mem_append_left r hn)⟩
  | other name p tree htree => exact absurd h (not_creatable_of_not_dir htree _)

theorem creatable_of_dir (h : kindAt tree q = some .dir) : Creatable q tree := by
  induction q, tree using walkInduct with
  | here tree =>
    obtain ⟨children, proto, hdir⟩ := kindAt_eq_dir.mp h
    cases hdir
    trivial
  | own name q children proto next hown ih =>
    rw [kindAt_own hown] at h
    rw [creatable_own hown]
    exact ih h
  | new name q children proto hown =>
    obtain ⟨cs, pr, hdir⟩ := kindAt_eq_dir.mp h
    exact absurd hdir (resolve_inherited_ne_dir hown q cs pr)
  | other name q tree htree =>
    rw [kindAt_cons_of_not_dir htree] at h
    cases h

theorem not_creatable_of_file (h : kindAt tree q = some (.file content mime)) :
    ¬ Creatable q tree := by
  induction q, tree using walkInduct with
  | here tree =>
    cases kindAt_eq_file.mp h
    exact not_creatable_of_not_dir rfl []
  | own name q children proto next hown ih =>
    rw [kindAt_own hown] at h
    rw [creatable_own hown]
    exact ih h
  | new name q children proto hown =>
    rw [kindAt_inherited hown] at h
    split at h
    case isTrue hname =>
      obtain ⟨rfl, rfl⟩ := hname
      rw [creatable_new hown]
      intro hnew
      have hsome := inherited_proto proto
      simp [hnew.1] at hsome
    case isFalse => cases h
  | other name q tree htree => exact not_creatable_of_not_dir htree _

theorem dir_of_creatable (h : Creatable q tree) (hne : kindAt tree q ≠ none) :
    kindAt tree q = some .dir := by
  cases hkind : kindAt tree q with
  | none => exact absurd hkind hne
  | some kind =>
    cases kind with
    | dir => rfl
    | file content mime => exact absurd h (not_creatable_of_file hkind)

/-! ### Creating directories -/

theorem inherited_none : inherited none name = none ↔ name ∉ objectPrototype := by
  simp [inherited]

theorem not_mem_of_inherited {proto : Option (String × String)} (h : inherited proto name = none) :
    name ∉ objectPrototype := by
  cases proto with
  | none => exact inherited_none.mp h
  | some p =>
    simp only [inherited] at h
    split_ifs at h with _ _ hcontent _ hmime _ hname
    · rw [hcontent]
      decide
    · rw [hmime]
      decide
    · exact hname

theorem creatable_empty : Creatable q .empty ↔ ∀ n ∈ q, n ∉ objectPrototype := by
  cases q with
  | nil => simp [Creatable, Node.empty]
  | cons name q =>
    rw [Node.empty, creatable_new rfl, inherited_none]
    simp

theorem kindAt_empty (hq : q ≠ []) : kindAt .empty q = none := by
  rw [kindAt_seen, seen_resolve_empty hq]
  rfl

theorem kindAt_createDirs (names q : List String) (tree : Node) :
    kindAt (createDirs names tree).1 q =
      if q <+: names ∧ Creatable q tree then some .dir else kindAt tree q := by
  by_cases hpre : q <+: names
  · simp only [hpre, true_and]
    fun_induction createDirs names tree generalizing q with
    | case1 tree =>
      cases prefix_nil.mp hpre
      cases tree <;> simp [Creatable, kindAt, resolve, Node.kind]
    | case2 name names children proto next hown next' ok hmade ih =>
      rw [hmade] at ih
      cases q with
      | nil => simp [Creatable, kindAt, resolve, Node.kind]
      | cons k ks =>
        obtain ⟨rfl, hks⟩ := cons_prefix_cons.mp hpre
        simp only [kindAt_set, ih ks hks, kindAt_own hown, creatable_own hown]
    | case3 name names children proto hown next hinh =>
      cases q with
      | nil => simp [Creatable, kindAt, resolve, Node.kind]
      | cons k ks =>
        obtain ⟨rfl, -⟩ := cons_prefix_cons.mp hpre
        simp [creatable_new hown, hinh]
    | case4 name names children proto hown hinh next' ok hmade ih =>
      rw [hmade] at ih
      cases q with
      | nil => simp [Creatable, kindAt, resolve, Node.kind]
      | cons k ks =>
        obtain ⟨rfl, hks⟩ := cons_prefix_cons.mp hpre
        simp only [kindAt_set, ih ks hks, creatable_empty, creatable_new hown]
        by_cases hks : ks = []
        · simp [hks, hinh]
        · simp [kindAt_empty hks, kindAt_inherited hown, hks, hinh]
    | case5 name names tree htree =>
      cases tree with
      | dir children proto => exact absurd rfl (htree children proto)
      | _ => rw [if_neg (not_creatable_of_not_dir rfl q)]
  · rw [if_neg (fun h => hpre h.1)]
    exact kindAt_eq_of_seen (seen_createDirs hpre tree)

theorem creatable_createDirs (names q : List String) (tree : Node) :
    Creatable q (createDirs names tree).1 ↔ Creatable q tree := by
  fun_induction createDirs names tree generalizing q with
  | case2 name names children proto next hown next' ok hmade ih =>
    rw [hmade] at ih
    cases q with
    | nil => simp [Creatable]
    | cons k ks =>
      by_cases hk : k = name
      · subst hk
        rw [creatable_set, ih, creatable_own hown]
      · exact creatable_set_ne hk next' ks
  | case4 name names children proto hown hinh next' ok hmade ih =>
    rw [hmade] at ih
    cases q with
    | nil => simp [Creatable]
    | cons k ks =>
      by_cases hk : k = name
      · subst hk
        simp [creatable_set, ih, creatable_empty, creatable_new hown, hinh]
      · exact creatable_set_ne hk next' ks
  | _ => rfl

theorem ok_of_creatable (h : Creatable names tree) : (createDirs names tree).2 = true := by
  fun_induction createDirs names tree with
  | case1 tree => rfl
  | case2 name names children proto next hown next' ok hmade ih =>
    rw [hmade] at ih
    exact ih ((creatable_own hown names).mp h)
  | case3 name names children proto hown next hinh => simp [creatable_new hown, hinh] at h
  | case4 name names children proto hown hinh next' ok hmade ih =>
    rw [hmade] at ih
    exact ih (creatable_empty.mpr ((creatable_new hown names).mp h).2)
  | case5 name names tree htree =>
    cases tree with
    | dir children proto => exact absurd rfl (htree children proto)
    | _ => exact absurd h (not_creatable_of_not_dir rfl _)

theorem kindAt_mkdir (tree : Node) (path : String) (q : List String) :
    kindAt (mkdir tree path).tree q =
      if q <+: parts path ∧ Creatable q tree then some .dir else kindAt tree q :=
  kindAt_createDirs ..

theorem creatable_mkdir (tree : Node) (path : String) (q : List String) :
    Creatable q (mkdir tree path).tree ↔ Creatable q tree :=
  creatable_createDirs ..

/-! ### Changing a directory -/

theorem kindAt_append {children : List (String × Node)} {proto : Option (String × String)}
    (h : resolve p tree = some (.dir children proto)) (q : List String) :
    kindAt tree (p ++ q) = kindAt (.dir children proto) q := by
  rw [kindAt, resolve_append, h]
  rfl

theorem creatable_append {children : List (String × Node)} {proto : Option (String × String)}
    (h : resolve p tree = some (.dir children proto)) (q : List String) :
    Creatable (p ++ q) tree ↔ Creatable q (.dir children proto) := by
  induction p, tree using walkInduct with
  | here tree =>
    cases h
    rfl
  | own name p cs pr next hown ih =>
    rw [resolve_own hown] at h
    rw [cons_append, creatable_own hown]
    exact ih h
  | new name p cs pr hown => exact absurd h (resolve_inherited_ne_dir hown p children proto)
  | other name p tree htree =>
    rw [resolve_cons_not_dir htree] at h
    cases h

theorem seen_changed {f : List (String × Node) → Option (String × String) → Node}
    (h : updateDir f names tree = some tree') :
    ∃ children proto, resolve names tree = some (.dir children proto) ∧
      (∀ q, kindAt tree' (names ++ q) = kindAt (f children proto) q) ∧
      (∀ q, Creatable (names ++ q) tree' ↔ Creatable q (f children proto)) ∧
      ∀ q, ¬ names <+: q →
        kindAt tree' q = kindAt tree q ∧ (Creatable q tree' ↔ Creatable q tree) := by
  refine updateDirInduct ?_ ?_ h
  · intro children proto
    exact ⟨children, proto, rfl, fun _ => rfl, fun _ => .rfl, fun q hq => absurd nil_prefix hq⟩
  · rintro n names cs pr next next' hown - ⟨children, proto, hdir, hkind, hcreate, hother⟩
    refine ⟨children, proto, (resolve_own hown names).trans hdir, fun q => ?_, fun q => ?_, ?_⟩
    · rw [cons_append, kindAt_set, hkind]
    · rw [cons_append, creatable_set, hcreate]
    · intro q hq
      cases q with
      | nil => simp [kindAt, resolve, Node.kind, Creatable]
      | cons k ks =>
        by_cases hk : k = n
        · subst hk
          rw [kindAt_set, kindAt_own hown, creatable_set, creatable_own hown]
          exact hother ks (fun hks => hq (cons_prefix_cons.mpr ⟨rfl, hks⟩))
        · exact ⟨kindAt_set_ne hk next' ks, creatable_set_ne hk next' ks⟩

/-! ### Writing -/

section Assign

variable {name content mime : String} {names : List String} {tree tree' : Node}

theorem kindAt_assign_self (children : List (String × Node)) (proto : Option (String × String))
    (q : List String) : kindAt (assign name content mime children proto) (name :: q)
      = if name :: q = [name] then some (.file content mime) else none := by
  rw [← singleton_append, kindAt, resolve_append, resolve_assign_self]
  cases q <;> simp [resolve, Node.kind]

theorem kindAt_assign (h : updateDir (assign name content mime) names tree = some tree')
    (q : List String) : kindAt tree' q =
      if names ++ [name] <+: q then
        if q = names ++ [name] then some (.file content mime) else none
      else kindAt tree q := by
  obtain ⟨children, proto, hdir, hkind, -, hother⟩ := seen_changed h
  by_cases hq : names <+: q
  · obtain ⟨r, rfl⟩ := hq
    simp only [hkind, kindAt_append hdir, prefix_append_right_inj, append_right_inj]
    cases r with
    | nil =>
      obtain ⟨cs, pr, hdir⟩ := exists_dir_of_isDir (isDir_assign name content mime children proto)
      rw [hdir]
      rfl
    | cons k ks =>
      simp only [cons_prefix_cons, nil_prefix, and_true]
      by_cases hk : name = k
      · subst hk
        rw [if_pos rfl, kindAt_assign_self]
      · rw [if_neg hk, kindAt_eq_of_seen (seen_assign _ _ _ _ _ _ _ (Ne.symm hk))]
  · rw [(hother q hq).1, if_neg (fun h => hq ((prefix_append _ _).trans h))]

theorem creatable_assign (hname : name ≠ "__proto__")
    (h : updateDir (assign name content mime) names tree = some tree') (q : List String) :
    Creatable q tree' ↔ Creatable q tree ∧ ¬ names ++ [name] <+: q := by
  obtain ⟨children, proto, hdir, -, hcreate, hother⟩ := seen_changed h
  by_cases hq : names <+: q
  · obtain ⟨r, rfl⟩ := hq
    rw [hcreate, creatable_append hdir, prefix_append_right_inj, assign,
      if_neg (fun hproto => hname hproto.1)]
    cases r with
    | nil => simp [Creatable]
    | cons k ks =>
      simp only [cons_prefix_cons, nil_prefix, and_true]
      by_cases hk : name = k
      · subst hk
        simpa [creatable_set] using not_creatable_of_not_dir rfl ks
      · simp [creatable_set_ne (Ne.symm hk), hk]
  · have hnot : ¬ names ++ [name] <+: q := fun h => hq ((prefix_append _ _).trans h)
    rw [(hother q hq).2, and_iff_left hnot]

end Assign

def written (names : List String) : List String := names.dropLast ++ [lastName names]

theorem written_eq (h : names ≠ []) : written names = names :=
  dropLast_append_lastName h

/-- A write makes the directories on its path and, if that worked, its file. -/
theorem write_tree_cases (tree : Node) (path content mime : String) :
    Creatable (parts path).dropLast tree ∧
        updateDir (assign (lastName (parts path)) content mime) (parts path).dropLast
          (createDirs (parts path).dropLast tree).1 = some (write tree path content mime).tree ∨
      ¬ Creatable (parts path).dropLast tree ∧
        (write tree path content mime).tree = (createDirs (parts path).dropLast tree).1 := by
  have hdir : kindAt (createDirs (parts path).dropLast tree).1 (parts path).dropLast = some .dir ↔
      Creatable (parts path).dropLast tree := by
    rw [kindAt_createDirs]
    constructor
    · intro h
      split at h
      case isTrue hmade => exact hmade.2
      case isFalse => exact creatable_of_dir h
    · intro h
      rw [if_pos ⟨prefix_rfl, h⟩]
  rcases write_cases tree path content mime with
    ⟨children, proto, hfound, tree', hrun, hupdate, -⟩ | ⟨hrun, hfail⟩
  · rw [hrun]
    exact .inl ⟨hdir.mp (kindAt_eq_dir.mpr ⟨_, _, hfound⟩), hupdate⟩
  · rw [hrun]
    refine .inr ⟨fun hcreate => ?_, rfl⟩
    obtain ⟨children, proto, hfound⟩ := kindAt_eq_dir.mp (hdir.mpr hcreate)
    exact hfail (ok_of_creatable hcreate) children proto hfound

theorem kindAt_write (tree : Node) (path content mime : String) (q : List String) :
    kindAt (write tree path content mime).tree q =
      if Creatable (parts path).dropLast tree ∧ written (parts path) <+: q then
        if q = written (parts path) then some (.file content mime) else none
      else if q <+: (parts path).dropLast ∧ Creatable q tree then some .dir
      else kindAt tree q := by
  rcases write_tree_cases tree path content mime with ⟨hcreate, hupdate⟩ | ⟨hcreate, hrun⟩
  · rw [kindAt_assign hupdate, kindAt_createDirs]
    simp only [hcreate, true_and, written]
    rfl
  · rw [hrun, kindAt_createDirs]
    simp only [hcreate, false_and, if_false]

theorem write_inv {tree : Node} {path content mime : String} {q : List String} {kind : Kind}
    (h : kindAt (write tree path content mime).tree q = some kind) :
    (q = written (parts path) ∧ kind = .file content mime) ∨
      (q <+: (parts path).dropLast ∧ Creatable q tree ∧ kind = .dir) ∨
      kindAt tree q = some kind := by
  rw [kindAt_write] at h
  split_ifs at h with hpre heq hmade
  · exact .inl ⟨heq, (some.inj h).symm⟩
  · exact .inr (.inl ⟨hmade.1, hmade.2, (some.inj h).symm⟩)
  · exact .inr (.inr h)

theorem creatable_write (tree : Node) (content mime : String)
    (hname : lastName (parts path) ≠ "__proto__") (q : List String) :
    Creatable q (write tree path content mime).tree ↔
      Creatable q tree ∧ ¬ (Creatable (parts path).dropLast tree ∧ written (parts path) <+: q) := by
  rcases write_tree_cases tree path content mime with ⟨hcreate, hupdate⟩ | ⟨hcreate, hrun⟩
  · rw [creatable_assign hname hupdate, creatable_createDirs]
    simp only [hcreate, true_and, written]
  · rw [hrun, creatable_createDirs]
    simp [hcreate]

/-! ### Removing -/

theorem kindAt_delete (h : updateDir (deleteName name) names tree = some tree') (q : List String) :
    (¬ names ++ [name] <+: q → kindAt tree' q = kindAt tree q) ∧
      (tree.Sound → names ++ [name] <+: q →
        kindAt tree' q = if name = "__proto__" then kindAt tree q else none) := by
  obtain ⟨children, proto, hdir, hkind, -, hother⟩ := seen_changed h
  by_cases hq : names <+: q
  · obtain ⟨r, rfl⟩ := hq
    rw [hkind, kindAt_append hdir, prefix_append_right_inj]
    cases r with
    | nil => simp [deleteName, kindAt, resolve, Node.kind]
    | cons k ks =>
      simp only [cons_prefix_cons, nil_prefix, and_true]
      refine ⟨fun hk => kindAt_eq_of_seen (seen_deleteName _ _ _ _ _ (Ne.symm hk)), ?_⟩
      rintro hsound rfl
      have hget : get (delete children name) name = none := by
        rw [get_delete, if_pos rfl]
      split
      case isTrue hname =>
        -- an own child `__proto__` there is none
        refine kindAt_congr (hget.trans ?_) (fun _ => rfl) ks
        rw [hname, (hsound.dir_of_resolve hdir).get_proto]
      case isFalse hname =>
        rw [deleteName, kindAt_inherited hget, if_neg (fun h => hname h.1)]
  · exact ⟨fun _ => (hother q hq).1, fun _ h => absurd ((prefix_append _ _).trans h) hq⟩

theorem kindAt_remove (hsound : tree.Sound) (path : String) (q : List String) :
    kindAt (remove tree path).tree q =
      if written (parts path) <+: q ∧ lastName (parts path) ≠ "__proto__" then none
      else kindAt tree q := by
  rcases remove_cases tree path with
    ⟨children, proto, -, -, tree', hrun, hupdate, -⟩ | ⟨hrun, -, hnone⟩
  · have hdelete := kindAt_delete hupdate q
    rw [hrun]
    by_cases hq : written (parts path) <+: q
    · rw [hdelete.2 hsound hq]
      split <;> simp [*]
    · rw [hdelete.1 hq, if_neg (fun h => hq h.1)]
  · rw [hrun]
    split
    case isTrue hq =>
      obtain ⟨⟨r, rfl⟩, -⟩ := hq
      rw [written, append_assoc]
      -- the parent is no directory, or has no child of this name
      by_contra hkind
      have hdir := kindAt_eq_dir_of_append (by simp) hkind
      obtain ⟨children, proto, hdir⟩ := kindAt_eq_dir.mp hdir
      rw [kindAt, resolve_append, hdir] at hkind
      have hget := hnone children proto hdir
      simp [resolve, hget] at hkind
    case isFalse => rfl

/-! ### Reading -/

theorem isDirAt_iff : isDirAt tree path = true ↔ kindAt tree (parts path) = some .dir := by
  rw [isDirAt, kindAt]
  rcases resolve (parts path) tree with _ | _ | _ | _ <;> simp [Node.isDir, Node.kind]

variable {children : List (String × Node)}

theorem mem_entries {e : String × Node} : e ∈ entries children ↔ e ∈ children := by
  rw [entries, mem_append, (perm_insertionSort _ _).mem_iff, mem_filter, mem_filter]
  cases (arrayIndex e.1) <;> simp

theorem entry_name (name : String) (node : Node) : (entry name node).name = name := by
  cases node <;> rfl

/-- A directory lists what is seen in it, but for a file assigned to `__proto__`. -/
theorem mem_list (h : tree.Sound) :
    name ∈ (list tree path).map Entry.name ↔
      name ≠ "__proto__" ∧ kindAt tree (parts path ++ [name]) ≠ none := by
  rw [list, kindAt, resolve_append]
  cases hnode : resolve (parts path) tree with
  | none => simp
  | some node =>
    cases node with
    | dir children proto =>
      have hsound := h.dir_of_resolve hnode
      have hnames : name ∈ ((entries children).map fun e => entry e.1 e.2).map Entry.name ↔
          (get children name).isSome := by
        rw [isSome_get]
        simp [entry_name, mem_entries]
      have hkind : (resolve [name] (.dir children proto)).bind Node.kind
          = kindAt (.dir children proto) [name] := rfl
      simp only [hnames, bind_some, hkind]
      cases hown : get children name with
      | some next =>
        have hname : name ≠ "__proto__" := by
          rintro rfl
          simp [hsound.get_proto] at hown
        rw [kindAt_own hown]
        cases hsound.child hown <;> simp [hname, kindAt, resolve, Node.kind]
      | none =>
        have hkind : name ≠ "__proto__" → kindAt (.dir children proto) [name] = none := by
          intro hname
          rw [kindAt_inherited hown, if_neg (fun h => hname h.1)]
        simpa using hkind
    | _ => simp [resolve]

/-- Below a name that is free in a directory, all can be had but what a prototype has. -/
theorem creatable_of_free (hdir : kindAt tree p = some .dir)
    (hfree : resolve (p ++ [name]) tree = none) (hq : ∀ n ∈ q, n ∉ objectPrototype) :
    Creatable (p ++ name :: q) tree := by
  obtain ⟨children, proto, hdir⟩ := kindAt_eq_dir.mp hdir
  rw [resolve_append, hdir, bind_some] at hfree
  rw [creatable_append hdir]
  cases hown : get children name with
  | some next => simp [resolve, hown] at hfree
  | none =>
    rw [creatable_new hown]
    refine ⟨?_, hq⟩
    cases hinh : inherited proto name with
    | none => rfl
    | some next => simp [resolve, hown, hinh] at hfree

/-- Where a directory can be had but nothing is seen, there is nothing. -/
theorem resolve_eq_none_of_creatable (h : tree.Sound) (hcreate : Creatable q tree)
    (hnone : kindAt tree q = none) : resolve q tree = none := by
  induction q, tree using walkInduct with
  | here tree => cases h <;> cases hnone
  | own name q children proto next hown ih =>
    rw [creatable_own hown] at hcreate
    rw [kindAt_own hown] at hnone
    rw [resolve_own hown]
    exact ih (h.child hown) hcreate hnone
  | new name q children proto hown =>
    rw [creatable_new hown] at hcreate
    rw [resolve_cons_inherited hown, hcreate.1]
    rfl
  | other name q tree htree => exact resolve_cons_not_dir htree name q

/-- In a directory without a file `__proto__`, a directory can be had under every name that
is no file's and no prototype's. -/
theorem creatable_concat (h : tree.Sound) (hdir : kindAt tree p = some .dir)
    (hproto : kindAt tree (p ++ ["__proto__"]) = none) (hname : name ∉ objectPrototype)
    (hfile : ∀ content mime, kindAt tree (p ++ [name]) ≠ some (.file content mime)) :
    Creatable (p ++ [name]) tree := by
  obtain ⟨children, proto, hdir⟩ := kindAt_eq_dir.mp hdir
  have hsound := h.dir_of_resolve hdir
  rw [kindAt_append hdir] at hproto
  simp only [kindAt_append hdir] at hfile
  rw [creatable_append hdir]
  cases hown : get children name with
  | some next =>
    rw [creatable_own hown]
    simp only [kindAt_own hown] at hfile
    cases hsound.child hown with
    | dir nodup proto_free sound => trivial
    | @file content mime => exact absurd rfl (hfile content mime)
  | none =>
    rw [kindAt_inherited hsound.get_proto] at hproto
    have hnone : proto = none := by simpa using hproto
    rw [creatable_new hown, hnone, inherited_none]
    exact ⟨hname, by simp⟩

/-! ### What stays where it was -/

/-- The file or directory at a path is still there, a file with the same content. -/
def Keeps (tree tree' : Node) (q : List String) : Prop :=
  match resolve q tree with
  | some (.file content _) => ∃ mime, resolve q tree' = some (.file content mime)
  | some (.dir _ _) => ∃ children proto, resolve q tree' = some (.dir children proto)
  | _ => True

theorem keeps_iff : Keeps tree tree' q ↔
    (kindAt tree q = some .dir → kindAt tree' q = some .dir) ∧
      ∀ content mime, kindAt tree q = some (.file content mime) →
        ∃ mime', kindAt tree' q = some (.file content mime') := by
  simp only [Keeps, kindAt_eq_file, kindAt_eq_dir]
  rcases resolve q tree with _ | _ | _ | _ <;> simp

theorem keeps_of_kindAt (h : kindAt tree' q = kindAt tree q) : Keeps tree tree' q :=
  keeps_iff.mpr ⟨fun hdir => h.trans hdir, fun _ mime hfile => ⟨mime, h.trans hfile⟩⟩

theorem Keeps.trans {t₁ t₂ t₃ : Node} (h₁ : Keeps t₁ t₂ q) (h₂ : Keeps t₂ t₃ q) :
    Keeps t₁ t₃ q := by
  rw [keeps_iff] at h₁ h₂ ⊢
  refine ⟨fun hdir => h₂.1 (h₁.1 hdir), fun content mime hfile => ?_⟩
  obtain ⟨mime', hfile'⟩ := h₁.2 content mime hfile
  exact h₂.2 content mime' hfile'

theorem kindAt_createDirs_of_some (h : kindAt tree q ≠ none) :
    kindAt (createDirs names tree).1 q = kindAt tree q := by
  rw [kindAt_createDirs]
  split
  case isTrue hmade => exact (dir_of_creatable hmade.2 h).symm
  case isFalse => rfl

theorem keeps_createDirs (names q : List String) (tree : Node) :
    Keeps tree (createDirs names tree).1 q := by
  rw [keeps_iff]
  refine ⟨fun hdir => ?_, fun content mime hfile => ⟨mime, ?_⟩⟩
  · rw [kindAt_createDirs_of_some (by simp [hdir]), hdir]
  · rw [kindAt_createDirs_of_some (by simp [hfile]), hfile]

/-- An operation loses no file but the one at its path, or those below it. -/
theorem kindAt_run_of_file (o : Op) (ho : ∀ p, o.target = some p → ¬ p <+: q)
    (h : kindAt tree q = some (.file content mime)) :
    kindAt (o.run tree).tree q = some (.file content mime) := by
  have hmade : ∀ names, kindAt (createDirs names tree).1 q = some (.file content mime) := by
    intro names
    rw [kindAt_createDirs_of_some (by simp [h]), h]
  cases o with
  | write path c m =>
    rcases write_tree_cases tree path c m with ⟨-, hupdate⟩ | ⟨-, hrun⟩
    · rw [Op.run, kindAt_assign hupdate, if_neg (ho _ rfl), hmade]
    · rw [Op.run, hrun, hmade]
  | mkdir path => exact hmade (parts path)
  | remove path =>
    rcases remove_cases tree path with ⟨_, _, -, -, tree', hrun, hupdate, -⟩ | ⟨hrun, -⟩
    · rw [Op.run, hrun, (kindAt_delete hupdate q).1 (ho _ rfl), h]
    · rw [Op.run, hrun, h]

/-! ### The names in a tree -/

def Proper (name : String) : Prop := name ≠ "" ∧ '/' ∉ name.toList

theorem proper_of_mem_parts (h : name ∈ parts path) : Proper name := by
  rw [parts] at h
  obtain ⟨text, htext, rfl⟩ := mem_map.mp h
  obtain ⟨hmem, hne⟩ := mem_filter.mp htext
  refine ⟨by simpa using hne, fun hslash => ?_⟩
  rw [String.toList_ofList] at hslash
  exact (mem_of_mem_splitOn hmem hslash).2 rfl

theorem parts_of_proper (h : Proper name) : parts name = [name] := by
  have hne : name.toList ≠ [] := by simpa using h.1
  rw [parts, splitOn_eq_singleton h.2, filter_singleton]
  simp [hne]

theorem parts_append (path rest : String) :
    parts (path ++ "/" ++ rest) = parts path ++ parts rest := by
  have hsplit : (path ++ "/" ++ rest).toList = path.toList ++ '/' :: rest.toList := by simp
  rw [parts, hsplit, splitOn_append_cons_self, filter_append, map_append, parts, parts]

/-- A tree as the calls build it from paths: its names are parts of paths, and no directory
has a name that every prototype has. -/
structure Tidy (tree : Node) : Prop where
  rooted : Rooted tree
  proper : ∀ p name, kindAt tree (p ++ [name]) ≠ none → Proper name
  dirs : ∀ p name, kindAt tree (p ++ [name]) = some .dir → name ∉ objectPrototype

theorem not_mem_of_creatable (h : Creatable (p ++ [name]) tree)
    (hnone : kindAt tree (p ++ [name]) = none) : name ∉ objectPrototype := by
  induction p, tree using walkInduct with
  | here tree =>
    cases tree with
    | dir children proto =>
      cases hown : get children name with
      | some next =>
        rw [nil_append, creatable_own hown] at h
        rw [nil_append, kindAt_own hown] at hnone
        cases next with
        | dir cs pr => cases hnone
        | _ => exact absurd h (not_creatable_of_not_dir rfl [])
      | none => exact not_mem_of_inherited ((creatable_new hown []).mp h).1
    | _ => exact absurd h (not_creatable_of_not_dir rfl _)
  | own k p children proto next hown ih =>
    rw [cons_append, creatable_own hown] at h
    rw [cons_append, kindAt_own hown] at hnone
    exact ih h hnone
  | new k p children proto hown => exact ((creatable_new hown _).mp h).2 name (by simp)
  | other k p tree htree => exact absurd h (not_creatable_of_not_dir htree _)

namespace Tidy

variable {tree : Node}

/-- Creating directories of proper names keeps a tree tidy. -/
theorem of_made (h : Tidy tree) (hrooted : Rooted tree') (names : List String)
    (hnames : ∀ n ∈ names, Proper n) (hkind : ∀ q, kindAt tree' q ≠ none →
      kindAt tree' q = kindAt tree q ∨
        q <+: names ∧ (kindAt tree' q = some .dir → Creatable q tree)) : Tidy tree' := by
  refine ⟨hrooted, fun p name hne => ?_, fun p name hdir => ?_⟩
  · rcases hkind _ hne with hsame | ⟨hpre, -⟩
    · exact h.proper p name (hsame ▸ hne)
    · exact hnames name (hpre.subset (by simp))
  · rcases hkind (p ++ [name]) (by simp [hdir]) with hsame | ⟨-, hcreate⟩
    · exact h.dirs p name (hsame ▸ hdir)
    · by_cases hold : kindAt tree (p ++ [name]) = none
      · exact not_mem_of_creatable (hcreate hdir) hold
      · exact h.dirs p name (dir_of_creatable (hcreate hdir) hold)

theorem mkdir (h : Tidy tree) (path : String) : Tidy (mkdir tree path).tree := by
  refine h.of_made (h.rooted.run (.mkdir path)) (parts path) (fun n => proper_of_mem_parts)
    fun q _ => ?_
  rw [kindAt_mkdir]
  split
  case isTrue hq => exact .inr ⟨hq.1, fun _ => hq.2⟩
  case isFalse => exact .inl rfl

theorem proper_written (h : name ∈ written (parts path)) : Proper name := by
  by_cases hpath : parts path = []
  · rw [hpath] at h
    cases mem_singleton.mp h
    refine ⟨by decide, by decide⟩
  · rw [written_eq hpath] at h
    exact proper_of_mem_parts h

theorem write (h : Tidy tree) (path content mime : String) :
    Tidy (write tree path content mime).tree := by
  refine h.of_made (h.rooted.run (.write path content mime)) (written (parts path))
    (fun n => proper_written) fun q hne => ?_
  obtain ⟨kind, hkind⟩ := ne_none_iff_exists'.mp hne
  rw [hkind]
  rcases write_inv hkind with ⟨heq, rfl⟩ | ⟨hpre, hcreate, -⟩ | hold
  · exact .inr ⟨heq ▸ prefix_rfl, fun hdir => nomatch hdir⟩
  · exact .inr ⟨hpre.trans (prefix_append _ _), fun _ => hcreate⟩
  · exact .inl hold.symm

theorem remove (h : Tidy tree) (path : String) : Tidy (remove tree path).tree := by
  refine h.of_made (h.rooted.run (.remove path)) [] (by simp) fun q hne => ?_
  rw [kindAt_remove h.rooted.sound] at hne ⊢
  split at hne
  case isTrue => exact absurd rfl hne
  case isFalse hq => exact .inl (if_neg hq)

end Tidy

theorem kindAt_stripped :
    ("__proto__" ∉ q → kindAt (stripped tree) q = kindAt tree q) ∧
      (kindAt (stripped tree) q ≠ none → kindAt (stripped tree) q = kindAt tree q) := by
  induction q, tree using walkInduct with
  | here tree => cases tree <;> simp [stripped, kindAt, resolve, Node.kind]
  | own name q children proto next hown ih =>
    have hget := get_strippedAll children name
    rw [hown] at hget
    rw [stripped, kindAt_own hget, kindAt_own hown, mem_cons, not_or]
    exact ⟨fun h => ih.1 h.2, ih.2⟩
  | new name q children proto hown =>
    have hget := get_strippedAll children name
    rw [hown] at hget
    rw [stripped, kindAt_inherited hget, kindAt_inherited hown, mem_cons, not_or]
    refine ⟨fun h => ?_, fun h => ?_⟩
    · simp [Ne.symm h.1]
    · split at h <;> exact absurd rfl h
  | other name q tree htree =>
    cases tree with
    | dir children proto => cases htree
    | _ => exact ⟨fun _ => rfl, fun _ => rfl⟩

theorem Tidy.stripped (h : Tidy tree) (hrooted : Rooted (stripped tree)) : Tidy (stripped tree) :=
  h.of_made hrooted [] (by simp) fun _ hne => .inl (kindAt_stripped.2 hne)

theorem exists_child_of_kindAt (h : kindAt (.dir children none) (name :: q) ≠ none) :
    ∃ node, (name, node) ∈ children ∧ kindAt node q ≠ none := by
  cases hown : get children name with
  | some node =>
    rw [kindAt_own hown] at h
    exact ⟨node, mem_of_get hown, h⟩
  | none =>
    rw [kindAt_inherited hown] at h
    simp at h

theorem tidy_defaultTree : Tidy defaultTree := by
  have hempty : ∀ q, kindAt .empty q ≠ none → q = [] := by
    intro q hq
    by_contra hne
    exact hq (kindAt_empty hne)
  have hdesktop : ∀ text q, kindAt (.dir [("Welcome.txt", .file text "text/plain")] none) q ≠ none →
      ∀ n ∈ q, n = "Welcome.txt" := by
    intro text q hq
    cases q with
    | nil => simp
    | cons name q =>
      obtain ⟨node, hmem, hnode⟩ := exists_child_of_kindAt hq
      cases mem_singleton.mp hmem
      cases q with
      | nil => simp
      | cons k ks => exact absurd (kindAt_cons_of_not_dir rfl k ks) hnode
  have hnames : ∀ q, kindAt defaultTree q ≠ none →
      ∀ n ∈ q, n ∈ ["Desktop", "Welcome.txt", "Documents", "Downloads", "Apps", "Trash"] := by
    intro q hq
    cases q with
    | nil => simp
    | cons name q =>
      obtain ⟨node, hmem, hnode⟩ := exists_child_of_kindAt hq
      simp only [mem_cons, Prod.mk.injEq, not_mem_nil, or_false] at hmem
      rcases hmem with ⟨rfl, rfl⟩ | ⟨rfl, rfl⟩ | ⟨rfl, rfl⟩ | ⟨rfl, rfl⟩ | ⟨rfl, rfl⟩
      · have hwelcome := hdesktop _ q hnode
        intro n hn
        rcases mem_cons.mp hn with rfl | hn
        · simp
        · simp [hwelcome n hn]
      all_goals simp [hempty q hnode]
  have hlist : ∀ n ∈ ["Desktop", "Welcome.txt", "Documents", "Downloads", "Apps", "Trash"],
      (n ≠ "" ∧ '/' ∉ n.toList) ∧ n ∉ objectPrototype := by decide
  refine ⟨rooted_defaultTree, fun p name hne => ?_, fun p name hdir => ?_⟩
  · exact (hlist name (hnames _ hne name (by simp))).1
  · exact (hlist name (hnames (p ++ [name]) (by simp [hdir]) name (by simp))).2

theorem Reachable.tidy (h : Reachable tree) : Tidy tree := by
  induction h with
  | start => exact tidy_defaultTree
  | @run tree h o ih =>
    cases o with
    | write path content mime => exact ih.write path content mime
    | mkdir path => exact ih.mkdir path
    | remove path => exact ih.remove path
  | reload h ih => exact ih.stripped (h.reload.rooted)

end Bootbox.Vfs
