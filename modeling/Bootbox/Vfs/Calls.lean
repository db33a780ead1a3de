import Mathlib.Data.List.Sort
import Bootbox.Lib.Unicode
import Bootbox.Vfs.Tree

/-!
The calls of the virtual file system (`kernel/vfs.js`) step by step: which of the four
things the creation of a path's directories comes to, what a write and a removal change,
and at which paths a change is seen.

All of this is about trees as the calls build them (`Rooted`), with no name twice in a
directory, so that "nothing has changed" can be said as an equation of trees.
-/

namespace Bootbox.Vfs

open Lib List Option OrderedMap

/-! ### Reading the tree -/

/-- An element of what `list` returns. -/
structure Entry where
  name : String
  type : String
  mime : Option String
  size : ℕ
deriving DecidableEq

def arrayIndex (name : String) : Option ℕ :=
  name.toNat?.filter fun n => toString n = name ∧ n < 4294967295

/-- The order of `Object.entries`: array indices first, by number, then the other names as
they were added. -/
def entries (children : List (String × Node)) : List (String × Node) :=
  (children.filter fun e => (arrayIndex e.1).isSome).insertionSort
      (fun a b => (arrayIndex a.1).getD 0 ≤ (arrayIndex b.1).getD 0)
    ++ children.filter fun e => (arrayIndex e.1).isNone

/-- What `list` says of a child. A value that is no node has none of these properties. -/
def entry (name : String) : Node → Entry
  | .dir _ _ => ⟨name, "dir", none, 0⟩
  | .file content mime => ⟨name, "file", some mime, (Unicode.utf16Units content.toList).length⟩
  | .foreign _ => ⟨name, "", none, 0⟩

def list (tree : Node) (path : String) : List Entry :=
  match resolve (parts path) tree with
  | some (.dir children _) => (entries children).map fun e => entry e.1 e.2
  | _ => []

/-- `exists`. -/
def existsAt (tree : Node) (path : String) : Bool := (resolve (parts path) tree).isSome

/-- `isDir`. -/
def isDirAt (tree : Node) (path : String) : Bool :=
  ((resolve (parts path) tree).map Node.isDir).getD false

/-- What `read` and `list` can tell of a node. -/
def seen : Option Node → Option Node
  | some (.foreign _) => none
  | node => node

variable {tree tree' next : Node}

theorem read_eq_of_seen {path : String}
    (h : seen (resolve (parts path) tree') = seen (resolve (parts path) tree)) :
    read tree' path = read tree path := by
  rw [read, read]
  revert h
  rcases resolve (parts path) tree' with _ | _ | _ | _ <;>
    rcases resolve (parts path) tree with _ | _ | _ | _ <;> simp +contextual [seen]

theorem list_eq_of_seen {path : String}
    (h : seen (resolve (parts path) tree') = seen (resolve (parts path) tree)) :
    list tree' path = list tree path := by
  have hlist : ∀ t, list t path = match seen (resolve (parts path) t) with
      | some (.dir children _) => (entries children).map fun e => entry e.1 e.2
      | _ => [] := by
    intro t
    rw [list]
    rcases resolve (parts path) t with _ | _ | _ | _ <;> rfl
  rw [hlist, hlist, h]

/-! ### Inherited names -/

variable {proto : Option (String × String)} {name : String}

/-- What a name finds in a prototype is the file assigned to `__proto__`, or no node. -/
theorem inherited_cases (h : inherited proto name = some next) :
    next = .foreign "" ∨ name = "__proto__" ∧ ∃ content mime, next = .file content mime := by
  cases proto with
  | none =>
    simp only [inherited] at h
    split at h
    · exact .inl (some.inj h).symm
    · cases h
  | some p =>
    simp only [inherited] at h
    split_ifs at h with hname
    · exact .inr ⟨hname, _, _, (some.inj h).symm⟩
    all_goals exact .inl (some.inj h).symm

theorem inherited_not_dir (h : inherited proto name = some next) : next.isDir = false := by
  rcases inherited_cases h with rfl | ⟨-, content, mime, rfl⟩ <;> rfl

theorem inherited_proto (proto : Option (String × String)) :
    (inherited proto "__proto__").isSome := by
  cases proto with
  | none => decide
  | some p => simp [inherited]

theorem resolve_cons_not_dir {node : Node} (h : node.isDir = false) (name : String)
    (names : List String) : resolve (name :: names) node = none := by
  cases node with
  | dir children proto => simp [Node.isDir] at h
  | _ => rfl

variable {children : List (String × Node)}

theorem resolve_cons_inherited (h : get children name = none) (names : List String) :
    resolve (name :: names) (.dir children proto)
      = (inherited proto name).bind (resolve names) := by
  simp only [resolve, h, none_or]
  cases inherited proto name <;> rfl

theorem resolve_inherited_ne_dir (h : get children name = none) (names : List String)
    (cs : List (String × Node)) (pr : Option (String × String)) :
    resolve (name :: names) (.dir children proto) ≠ some (.dir cs pr) := by
  rw [resolve_cons_inherited h]
  cases hinh : inherited proto name with
  | none => simp
  | some next =>
    rcases inherited_cases hinh with rfl | ⟨-, content, mime, rfl⟩ <;>
      cases names <;> simp [resolve]

theorem seen_resolve_inherited (h : get children name = none)
    (hname : name ≠ "__proto__") (names : List String) :
    seen (resolve (name :: names) (.dir children proto)) = none := by
  rw [resolve_cons_inherited h]
  cases hinh : inherited proto name with
  | none => rfl
  | some next =>
    rcases inherited_cases hinh with rfl | ⟨hproto, -⟩
    · cases names <;> rfl
    · exact absurd hproto hname

variable {q names : List String}

theorem seen_resolve_empty (hq : q ≠ []) : seen (resolve q .empty) = none := by
  cases q with
  | nil => exact absurd rfl hq
  | cons name names =>
    rw [Node.empty, resolve_cons_inherited rfl, inherited]
    split
    · cases names <;> rfl
    · rfl

/-- What is found under a name depends on the child of that name and, for `__proto__`, on
the prototype. -/
theorem seen_resolve_congr {children' : List (String × Node)} {proto' : Option (String × String)}
    (hget : get children' name = get children name)
    (hproto : name = "__proto__" → proto' = proto) (names : List String) :
    seen (resolve (name :: names) (.dir children' proto'))
      = seen (resolve (name :: names) (.dir children proto)) := by
  cases hown : get children name with
  | some next => rw [resolve_own hown, resolve_own (hget.trans hown)]
  | none =>
    by_cases hname : name = "__proto__"
    · rw [hproto hname, resolve_cons_inherited hown, resolve_cons_inherited (hget.trans hown)]
    · rw [seen_resolve_inherited hown hname, seen_resolve_inherited (hget.trans hown) hname]

theorem seen_resolve_set_ne {k : String} (hk : k ≠ name) (next : Node) (names : List String) :
    seen (resolve (k :: names) (.dir (set children name next) proto))
      = seen (resolve (k :: names) (.dir children proto)) :=
  seen_resolve_congr (by rw [get_set, if_neg hk]) (fun _ => rfl) names

/-! ### Trees as the calls build them -/

/-- A tree in which no directory has a name twice or an own child `__proto__`, and with
directories and files only. -/
inductive Node.Sound : Node → Prop
  | dir {children : List (String × Node)} {proto : Option (String × String)}
      (nodup : (children.map Prod.fst).Nodup)
      (proto_free : OrderedMap.get children "__proto__" = none)
      (sound : ∀ name node, OrderedMap.get children name = some node → node.Sound) :
      Sound (.dir children proto)
  | file {content mime : String} : Sound (.file content mime)

variable {f : List (String × Node) → Option (String × String) → Node}

namespace Node.Sound

variable {children : List (String × Node)} {proto : Option (String × String)}

theorem empty : Node.empty.Sound := .dir List.nodup_nil rfl (fun _ _ h => nomatch h)

theorem of_mem (hnodup : (children.map Prod.fst).Nodup)
    (hproto : "__proto__" ∉ children.map Prod.fst)
    (hsound : ∀ e ∈ children, e.2.Sound) : (Node.dir children proto).Sound := by
  refine .dir hnodup ?_ (fun name node hget => hsound _ (OrderedMap.mem_of_get hget))
  rw [← OrderedMap.isSome_get] at hproto
  simpa using hproto

theorem child (h : (Node.dir children proto).Sound)
    (hget : OrderedMap.get children name = some next) : next.Sound := by
  cases h with
  | dir nodup proto_free sound => exact sound name next hget

theorem get_proto (h : (Node.dir children proto).Sound) :
    OrderedMap.get children "__proto__" = none := by
  cases h with
  | dir nodup proto_free sound => exact proto_free

theorem ne_proto (h : (Node.dir children proto).Sound)
    (hget : OrderedMap.get children name = some next) : name ≠ "__proto__" := by
  rintro rfl
  simp [h.get_proto] at hget

theorem set_eq_self (h : (Node.dir children proto).Sound)
    (hget : OrderedMap.get children name = some next) :
    OrderedMap.set children name next = children := by
  cases h with
  | dir nodup proto_free sound => exact OrderedMap.set_eq_self nodup hget

theorem set (h : (Node.dir children proto).Sound) (hname : name ≠ "__proto__")
    (hnext : next.Sound) : (Node.dir (OrderedMap.set children name next) proto).Sound := by
  cases h with
  | dir nodup proto_free sound =>
    refine .dir (OrderedMap.nodup_set nodup name next) ?_ (fun k node hk => ?_)
    · rw [OrderedMap.get_set, if_neg (Ne.symm hname), proto_free]
    · rw [OrderedMap.get_set] at hk
      split at hk
      · exact Option.some.inj hk ▸ hnext
      · exact sound k node hk

theorem delete (h : (Node.dir children proto).Sound) (name : String) :
    (Node.dir (OrderedMap.delete children name) proto).Sound := by
  cases h with
  | dir nodup proto_free sound =>
    refine .dir (nodup.sublist (List.filter_sublist.map Prod.fst)) ?_ (fun k node hk => ?_)
    · rw [OrderedMap.get_delete, proto_free, ite_self]
    · rw [OrderedMap.get_delete] at hk
      split at hk
      · cases hk
      · exact sound k node hk

theorem assign (h : (Node.dir children proto).Sound) (name content mime : String) :
    (Vfs.assign name content mime children proto).Sound := by
  rw [Vfs.assign]
  split
  case isTrue =>
    cases h with
    | dir nodup proto_free sound => exact .dir nodup proto_free sound
  case isFalse hname =>
    refine h.set (fun hproto => hname ⟨hproto, ?_⟩) .file
    rw [hproto]
    exact h.get_proto

theorem createDirs (h : tree.Sound) (names : List String) :
    (Vfs.createDirs names tree).1.Sound := by
  fun_induction Vfs.createDirs names tree with
  | case2 name names children proto next hown next' ok hmade ih =>
    rw [hmade] at ih
    exact h.set (h.ne_proto hown) (ih (h.child hown))
  | case4 name names children proto hown hinh next' ok hmade ih =>
    rw [hmade] at ih
    refine h.set ?_ (ih empty)
    rintro rfl
    have hsome := inherited_proto proto
    simp [hinh] at hsome
  | _ => exact h

theorem updateDir
    (hf : ∀ children proto, (Node.dir children proto).Sound → (f children proto).Sound)
    (h : tree.Sound) (hupdate : Vfs.updateDir f names tree = some tree') : tree'.Sound := by
  refine updateDirInduct hf ?_ hupdate h
  intro name names children proto next next' hown _ ih h
  exact h.set (h.ne_proto hown) (ih (h.child hown))

theorem stripped (h : tree.Sound) : (Vfs.stripped tree).Sound := by
  induction h with
  | @dir children proto nodup proto_free sound ih =>
    have hkeys : (strippedAll children).map Prod.fst = children.map Prod.fst := by
      clear nodup proto_free sound ih
      induction children with
      | nil => rfl
      | cons e children ih => exact congrArg (e.1 :: ·) ih
    rw [Vfs.stripped]
    refine .dir (hkeys ▸ nodup) ?_ (fun name node hnode => ?_)
    · rw [get_strippedAll, proto_free]
      rfl
    · rw [get_strippedAll] at hnode
      obtain ⟨node', hnode', rfl⟩ := Option.map_eq_some_iff.mp hnode
      exact ih name node' hnode'
  | file => exact .file

end Node.Sound

/-! ### What the steps of a call do -/

theorem exists_dir_of_isDir (h : tree.isDir = true) :
    ∃ children proto, tree = .dir children proto := by
  cases tree with
  | dir children proto => exact ⟨children, proto, rfl⟩
  | _ => cases h

theorem isDir_createDirs (h : tree.isDir = true) (names : List String) :
    (createDirs names tree).1.isDir = true := by
  fun_cases createDirs names tree with
  | case1 | case5 => exact h
  | _ => rfl

theorem isDir_updateDir (hf : ∀ children proto, (f children proto).isDir = true)
    (h : updateDir f names tree = some tree') : tree'.isDir = true :=
  updateDirInduct hf (by intros; rfl) h

theorem isDir_assign (name content mime : String) (children : List (String × Node))
    (proto : Option (String × String)) :
    (assign name content mime children proto).isDir = true := by
  rw [assign]
  split <;> rfl

/-- A directory that is found can be changed, and then has what it was changed to. -/
theorem updateDir_of_resolve (f : List (String × Node) → Option (String × String) → Node)
    (h : resolve names tree = some (.dir children proto)) :
    ∃ tree', updateDir f names tree = some tree' ∧
      ∀ q, resolve (names ++ q) tree' = resolve q (f children proto) := by
  induction names, tree using walkInduct with
  | here tree =>
    cases h
    exact ⟨_, rfl, fun q => rfl⟩
  | own name names cs pr next hown ih =>
    rw [resolve_own hown] at h
    obtain ⟨next', hnext, hq⟩ := ih h
    refine ⟨.dir (set cs name next') pr, ?_, fun q => ?_⟩
    · simp [updateDir, hown, hnext]
    · rw [cons_append, resolve_set, hq]
  | new name names cs pr hown => exact absurd h (resolve_inherited_ne_dir hown names children proto)
  | other name names tree htree =>
    rw [resolve_cons_not_dir htree] at h
    cases h

theorem resolve_of_updateDir (h : updateDir f names tree = some tree') :
    ∃ children proto, resolve names tree = some (.dir children proto) := by
  refine updateDirInduct (fun _ _ => ⟨_, _, rfl⟩) ?_ h
  rintro name names children proto next next' hown - ⟨cs, pr, hdir⟩
  exact ⟨cs, pr, by rw [resolve_own hown, hdir]⟩

/-- Creating the directories of this path would create some and then come to an inherited
name. -/
def Halfway : List String → Node → Prop
  | name :: names, .dir children proto =>
    match get children name with
    | some next => Halfway names next
    | none => inherited proto name = none ∧ ∃ n ∈ names, n ∈ objectPrototype
  | _, _ => False

theorem halfway_own (h : get children name = some next) (names : List String) :
    Halfway (name :: names) (.dir children proto) ↔ Halfway names next := by
  simp [Halfway, h]

theorem halfway_new (h : get children name = none) (names : List String) :
    Halfway (name :: names) (.dir children proto) ↔
      inherited proto name = none ∧ ∃ n ∈ names, n ∈ objectPrototype := by
  simp [Halfway, h]

theorem createDirs_empty (names : List String) :
    if ∃ n ∈ names, n ∈ objectPrototype then
      ∀ node, resolve names (createDirs names .empty).1 = some node → node.isDir = false
    else
      (createDirs names .empty).2 = true ∧
        resolve names (createDirs names .empty).1 = some .empty := by
  induction names with
  | nil => simp [createDirs, resolve]
  | cons name names ih =>
    by_cases hname : name ∈ objectPrototype
    · rw [if_pos ⟨name, mem_cons_self .., hname⟩]
      intro node hnode
      have hinh : inherited none name = some (.foreign "") := by rw [inherited, if_pos hname]
      simp only [Node.empty, createDirs, get_nil, hinh] at hnode
      rw [resolve_cons_inherited rfl, hinh, bind_some] at hnode
      cases names with
      | nil =>
        cases hnode
        rfl
      | cons n ns => cases hnode
    · have hinh : inherited none name = none := by rw [inherited, if_neg hname]
      simp only [Node.empty, createDirs, get_nil, hinh, resolve_set,
        exists_mem_cons_iff, hname, false_or]
      exact ih

/-- What creating the directories of a path comes to: all is there; something that is no
directory is in the way; what was missing is created; or some of it is. -/
theorem createDirs_cases (h : tree.Sound) (names : List String) :
    ¬ Halfway names tree ∧ (∃ node, resolve names tree = some node) ∧
        createDirs names tree = (tree, true) ∨
      ¬ Halfway names tree ∧ resolve names tree = none ∧
        createDirs names tree = (tree, false) ∨
      ¬ Halfway names tree ∧ resolve names tree = none ∧ (createDirs names tree).2 = true ∧
        resolve names (createDirs names tree).1 = some .empty ∨
      Halfway names tree ∧ (createDirs names tree).1 ≠ tree ∧
        ∀ node, resolve names (createDirs names tree).1 = some node → node.isDir = false := by
  fun_induction createDirs names tree with
  | case1 tree => exact .inl ⟨by simp [Halfway], ⟨tree, rfl⟩, rfl⟩
  | case2 name names children proto next hown next' ok hmade ih =>
    rw [hmade] at ih
    simp only [halfway_own hown, resolve_own hown, resolve_set]
    have hsame : ∀ b, (next', ok) = (next, b) →
        (Node.dir (OrderedMap.set children name next') proto, ok) = (.dir children proto, b) := by
      rintro b ⟨⟩
      rw [h.set_eq_self hown]
    rcases ih (h.child hown) with ⟨hh, hn, hc⟩ | ⟨hh, hn, hc⟩ | hc | ⟨hh, hne, hn⟩
    · exact .inl ⟨hh, hn, hsame true hc⟩
    · exact .inr (.inl ⟨hh, hn, hsame false hc⟩)
    · exact .inr (.inr (.inl hc))
    · refine .inr (.inr (.inr ⟨hh, fun heq => hne ?_, hn⟩))
      have hget := congrArg (OrderedMap.get · name) (Node.dir.inj heq).1
      simpa [OrderedMap.get_set, hown] using hget
  | case3 name names children proto hown next hinh =>
    simp only [halfway_new hown, resolve_cons_inherited hown, hinh, Option.bind_some]
    cases names with
    | nil => exact .inl ⟨by simp, ⟨next, rfl⟩, rfl⟩
    | cons n ns =>
      exact .inr (.inl ⟨by simp, resolve_cons_not_dir (inherited_not_dir hinh) n ns, rfl⟩)
  | case4 name names children proto hown hinh next' ok hmade ih =>
    simp only [halfway_new hown, resolve_cons_inherited hown, hinh, resolve_set, Option.bind_none,
      true_and]
    have hnew := createDirs_empty names
    rw [hmade] at hnew
    split at hnew
    case isTrue hnames =>
      refine .inr (.inr (.inr ⟨hnames, fun heq => ?_, hnew⟩))
      have hget := congrArg (OrderedMap.get · name) (Node.dir.inj heq).1
      simp [OrderedMap.get_set, hown] at hget
    case isFalse hnames => exact .inr (.inr (.inl ⟨hnames, hnew.1, hnew.2⟩))
  | case5 name names tree htree =>
    cases tree with
    | dir children proto => exact absurd rfl (htree children proto)
    | _ => exact .inr (.inl ⟨by simp [Halfway], rfl, rfl⟩)

theorem seen_createDirs (hq : ¬ q <+: names) (tree : Node) :
    seen (resolve q (createDirs names tree).1) = seen (resolve q tree) := by
  fun_induction createDirs names tree generalizing q with
  | case2 name names children proto next hown next' ok hmade ih =>
    rw [hmade] at ih
    cases q with
    | nil => exact absurd nil_prefix hq
    | cons k ks =>
      by_cases hk : k = name
      · subst hk
        rw [resolve_set, resolve_own hown, ih (fun hpre => hq (cons_prefix_cons.mpr ⟨rfl, hpre⟩))]
      · exact seen_resolve_set_ne hk next' ks
  | case4 name names children proto hown hinh next' ok hmade ih =>
    rw [hmade] at ih
    cases q with
    | nil => exact absurd nil_prefix hq
    | cons k ks =>
      by_cases hk : k = name
      · subst hk
        have hks : ¬ ks <+: names := fun hpre => hq (cons_prefix_cons.mpr ⟨rfl, hpre⟩)
        rw [resolve_set, ih hks, seen_resolve_empty (fun h : ks = [] => hks (h ▸ nil_prefix)),
          resolve_cons_inherited hown, hinh]
        rfl
      · exact seen_resolve_set_ne hk next' ks
  | _ => rfl

/-- Two paths of which neither leads to the other. -/
def Apart (p q : List String) : Prop := ¬ p <+: q ∧ ¬ q <+: p

theorem prefix_or_apart (names : List String) (name : String) (q : List String) :
    q <+: names ∨ names ++ [name] <+: q ∨ Apart (names ++ [name]) q := by
  by_cases h₁ : names ++ [name] <+: q
  · exact .inr (.inl h₁)
  by_cases h₂ : q <+: names ++ [name]
  · rcases prefix_concat_iff.mp h₂ with h | h
    · exact absurd (h ▸ prefix_rfl) h₁
    · exact .inl h
  · exact .inr (.inr ⟨h₁, h₂⟩)

/-- A change of the directory at `names` that is seen under `name` only is not seen at
paths apart from that. -/
theorem seen_updateDir (hf : ∀ children proto k ks, k ≠ name →
      seen (resolve (k :: ks) (f children proto)) = seen (resolve (k :: ks) (.dir children proto)))
    (hq : Apart (names ++ [name]) q) (hupdate : updateDir f names tree = some tree') :
    seen (resolve q tree') = seen (resolve q tree) := by
  refine updateDirInduct (P := fun names tree tree' => ∀ q, Apart (names ++ [name]) q →
    seen (resolve q tree') = seen (resolve q tree)) ?_ ?_ hupdate q hq
  · intro children proto q hq
    cases q with
    | nil => exact absurd nil_prefix hq.2
    | cons k ks =>
      refine hf children proto k ks (fun hk => hq.1 ?_)
      rw [hk]
      exact prefix_append [name] ks
  · intro n names children proto next next' hown _ ih q hq
    cases q with
    | nil => exact absurd nil_prefix hq.2
    | cons k ks =>
      by_cases hk : k = n
      · subst hk
        rw [resolve_set, resolve_own hown]
        exact ih ks ⟨fun h => hq.1 (cons_prefix_cons.mpr ⟨rfl, h⟩),
          fun h => hq.2 (cons_prefix_cons.mpr ⟨rfl, h⟩)⟩
      · exact seen_resolve_set_ne hk next' ks

theorem seen_assign (name content mime : String) (children : List (String × Node))
    (proto : Option (String × String)) (k : String) (ks : List String) (hk : k ≠ name) :
    seen (resolve (k :: ks) (assign name content mime children proto))
      = seen (resolve (k :: ks) (.dir children proto)) := by
  rw [assign]
  split
  case isTrue h => exact seen_resolve_congr rfl (fun hproto => absurd (hproto.trans h.1.symm) hk) ks
  case isFalse => exact seen_resolve_set_ne hk _ ks

theorem resolve_assign_self (name content mime : String) (children : List (String × Node))
    (proto : Option (String × String)) :
    resolve [name] (assign name content mime children proto) = some (.file content mime) := by
  rw [assign]
  split
  case isTrue h =>
    rw [resolve_cons_inherited h.2, h.1]
    simp [inherited, resolve]
  case isFalse => exact resolve_set ..

theorem dropLast_append_lastName (h : names ≠ []) : names.dropLast ++ [lastName names] = names := by
  rw [lastName, getLast?_eq_some_getLast h, getD_some]
  exact dropLast_append_getLast h

/-- A write makes its file in the directory that is then there, or reports failure. -/
theorem write_cases (tree : Node) (path content mime : String) :
    (∃ children proto,
      resolve (parts path).dropLast (createDirs (parts path).dropLast tree).1
          = some (.dir children proto) ∧
        ∃ tree', write tree path content mime = ⟨tree', some true, true⟩ ∧
          updateDir (assign (lastName (parts path)) content mime) (parts path).dropLast
            (createDirs (parts path).dropLast tree).1 = some tree' ∧
          ∀ q, resolve ((parts path).dropLast ++ q) tree'
            = resolve q (assign (lastName (parts path)) content mime children proto)) ∨
      write tree path content mime
          = ⟨(createDirs (parts path).dropLast tree).1, some false, false⟩ ∧
        ((createDirs (parts path).dropLast tree).2 = true → ∀ children proto,
          resolve (parts path).dropLast (createDirs (parts path).dropLast tree).1
            ≠ some (.dir children proto)) := by
  rw [write]
  generalize createDirs (parts path).dropLast tree = made
  obtain ⟨tree, ok⟩ := made
  cases ok with
  | false => exact .inr ⟨rfl, fun h => nomatch h⟩
  | true =>
    dsimp only
    rw [if_pos rfl]
    cases hupdate : updateDir (assign (lastName (parts path)) content mime)
        (parts path).dropLast tree with
    | some tree' =>
      obtain ⟨children, proto, hdir⟩ := resolve_of_updateDir hupdate
      obtain ⟨tree'', hupdate', hq⟩ :=
        updateDir_of_resolve (assign (lastName (parts path)) content mime) hdir
      cases hupdate.symm.trans hupdate'
      exact .inl ⟨children, proto, hdir, tree', rfl, rfl, hq⟩
    | none =>
      refine .inr ⟨rfl, fun _ children proto hdir => ?_⟩
      obtain ⟨tree'', hupdate', -⟩ :=
        updateDir_of_resolve (assign (lastName (parts path)) content mime) hdir
      cases hupdate.symm.trans hupdate'

def deleteName (name : String) (children : List (String × Node))
    (proto : Option (String × String)) : Node :=
  .dir (delete children name) proto

/-- A removal deletes an own child of the directory it finds, or changes nothing. -/
theorem remove_cases (tree : Node) (path : String) :
    (∃ children proto, resolve (parts path).dropLast tree = some (.dir children proto) ∧
      ((get children (lastName (parts path))).or
        (inherited proto (lastName (parts path)))).isSome ∧
      ∃ tree', remove tree path = ⟨tree', some true, true⟩ ∧
        updateDir (deleteName (lastName (parts path))) (parts path).dropLast tree = some tree' ∧
        ∀ q, resolve ((parts path).dropLast ++ q) tree'
          = resolve q (deleteName (lastName (parts path)) children proto)) ∨
      (remove tree path).tree = tree ∧ (remove tree path).value ≠ some true ∧
        ∀ children proto, resolve (parts path).dropLast tree = some (.dir children proto) →
          ((get children (lastName (parts path))).or
            (inherited proto (lastName (parts path)))) = none := by
  rw [remove]
  cases hdir : resolve (parts path).dropLast tree with
  | none => exact .inr ⟨rfl, by simp, by rintro _ _ ⟨⟩⟩
  | some node =>
    cases node with
    | dir children proto =>
      by_cases hfound : ((get children (lastName (parts path))).or
          (inherited proto (lastName (parts path)))).isSome
      · obtain ⟨tree', hupdate, hq⟩ :=
          updateDir_of_resolve (deleteName (lastName (parts path))) hdir
        refine .inl ⟨children, proto, rfl, hfound, tree', ?_, hupdate, hq⟩
        have hgetD : (updateDir
            (fun children proto => .dir (delete children (lastName (parts path))) proto)
            (parts path).dropLast tree).getD tree = tree' := congrArg (·.getD tree) hupdate
        dsimp only
        rw [if_pos hfound, hgetD]
      · refine .inr ?_
        dsimp only
        rw [if_neg hfound]
        refine ⟨rfl, by simp, fun children' proto' h => ?_⟩
        cases h
        simpa using hfound
    | _ => exact .inr ⟨rfl, by simp, by rintro _ _ ⟨⟩⟩

theorem resolve_removed
    (hq : ∀ q, resolve (names ++ q) tree' = resolve q (deleteName name children proto)) :
    resolve (names ++ [name]) tree' = inherited proto name := by
  rw [hq, deleteName, resolve_cons_inherited (by rw [get_delete, if_pos rfl])]
  cases inherited proto name <;> rfl

/-! ### Longer paths -/

theorem resolve_append (p q : List String) (tree : Node) :
    resolve (p ++ q) tree = (resolve p tree).bind (resolve q) := by
  induction p generalizing tree with
  | nil => rfl
  | cons name names ih =>
    cases tree with
    | dir children proto =>
      rw [cons_append]
      simp only [resolve]
      cases (get children name).or (inherited proto name) with
      | none => rfl
      | some next => exact ih next
    | _ => rfl

theorem resolve_below_file {p : List String} {content mime : String}
    (h : resolve p tree = some (.file content mime)) (name : String) (q : List String) :
    resolve (p ++ name :: q) tree = none := by
  rw [resolve_append, h]
  rfl

theorem exists_dir_of_resolve_append {p : List String} {node : Node}
    (h : resolve (p ++ name :: q) tree = some node) :
    ∃ children proto, resolve p tree = some (.dir children proto) := by
  rw [resolve_append] at h
  obtain ⟨dir, hdir, hnode⟩ := bind_eq_some_iff.mp h
  cases dir with
  | dir children proto => exact ⟨children, proto, hdir⟩
  | _ => cases hnode

theorem Node.Sound.dir_of_resolve (h : tree.Sound)
    (hdir : resolve names tree = some (.dir children proto)) : (Node.dir children proto).Sound := by
  induction names, tree using walkInduct with
  | here tree =>
    cases hdir
    exact h
  | own name names cs pr next hown ih => exact ih (h.child hown) (by rwa [resolve_own hown] at hdir)
  | new name names cs pr hown =>
    exact absurd hdir (resolve_inherited_ne_dir hown names children proto)
  | other name names tree htree =>
    rw [resolve_cons_not_dir htree] at hdir
    cases hdir

theorem seen_deleteName (name : String) (children : List (String × Node))
    (proto : Option (String × String)) (k : String) (ks : List String) (hk : k ≠ name) :
    seen (resolve (k :: ks) (deleteName name children proto))
      = seen (resolve (k :: ks) (.dir children proto)) := by
  refine seen_resolve_congr ?_ (fun _ => rfl) ks
  rw [get_delete, if_neg hk]

/-! ### Reachable trees -/

/-- The trees that the calls make of `defaultTree`, also over a reload of what was saved. -/
inductive Reachable : Node → Prop
  | start : Reachable defaultTree
  | run {tree : Node} (h : Reachable tree) (o : Op) : Reachable (o.run tree).tree
  | reload {tree : Node} (h : Reachable tree) : Reachable (stripped tree)

/-- A tree with a directory as its root that is built as the calls build one. -/
structure Rooted (tree : Node) : Prop where
  isDir : tree.isDir = true
  sound : tree.Sound

theorem Rooted.run (h : Rooted tree) (o : Op) : Rooted (o.run tree).tree := by
  cases o with
  | write path content mime =>
    have hmade : Rooted (createDirs (parts path).dropLast tree).1 :=
      ⟨isDir_createDirs h.isDir _, h.sound.createDirs _⟩
    rcases write_cases tree path content mime with
      ⟨children, proto, -, tree', hrun, hupdate, -⟩ | ⟨hrun, -⟩
    · rw [Op.run, hrun]
      refine ⟨isDir_updateDir (isDir_assign _ _ _) hupdate, ?_⟩
      exact hmade.sound.updateDir (fun _ _ hdir => hdir.assign _ _ _) hupdate
    · rw [Op.run, hrun]
      exact hmade
  | mkdir path => exact ⟨isDir_createDirs h.isDir _, h.sound.createDirs _⟩
  | remove path =>
    rcases remove_cases tree path with
      ⟨children, proto, -, -, tree', hrun, hupdate, -⟩ | ⟨hrun, -⟩
    · rw [Op.run, hrun]
      refine ⟨isDir_updateDir (fun _ _ => rfl) hupdate, ?_⟩
      exact h.sound.updateDir (fun _ _ hdir => hdir.delete _) hupdate
    · rw [Op.run, hrun]
      exact h

theorem rooted_defaultTree : Rooted defaultTree := by
  have hdesktop : ∀ text, (Node.dir [("Welcome.txt", .file text "text/plain")] none).Sound :=
    fun text => .of_mem (by simp) (by simp) (by simpa using .file)
  refine ⟨rfl, .of_mem (by simp) (by simp) ?_⟩
  simp [hdesktop, Node.Sound.empty]

theorem Reachable.rooted (h : Reachable tree) : Rooted tree := by
  induction h with
  | start => exact rooted_defaultTree
  | run h o ih => exact ih.run o
  | @reload tree h ih =>
    obtain ⟨children, proto, rfl⟩ := exists_dir_of_isDir ih.isDir
    exact ⟨rfl, ih.sound.stripped⟩

end Bootbox.Vfs
