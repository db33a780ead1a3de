import Bootbox.Lib.OrderedMap

/-!
The tree of the virtual file system (`kernel/vfs.js`) and the operations on it.

A directory's children are the own properties of a JavaScript object. A lookup of a
name that is not among them goes on to the object's prototype, so a few names are
never free: they find something that is no directory. Assigning to the name
`__proto__` does not add a child but replaces the prototype, and nothing of that is
left in the tree's JSON.
-/

namespace Bootbox.Vfs

open Lib OrderedMap

/-- A node. A directory has its own children and, if a file was ever assigned to its
`__proto__`, that file's content and type. `foreign` is any other value: a property
of a prototype, or what a stored text holds that is no tree. -/
inductive Node
  | dir (children : List (String × Node)) (proto : Option (String × String))
  | file (content mime : String)
  | foreign (json : String)

namespace Node

def isDir : Node → Bool
  | .dir _ _ => true
  | _ => false

/-- `{ type: "dir", children: {} }` -/
def empty : Node := .dir [] none

end Node

/-- The properties of `Object.prototype`. -/
def objectPrototype : List String :=
  ["constructor", "__defineGetter__", "__defineSetter__", "hasOwnProperty", "__lookupGetter__",
    "__lookupSetter__", "isPrototypeOf", "propertyIsEnumerable", "toString", "valueOf", "__proto__",
    "toLocaleString"]

/-- What a name finds in the prototype of a directory's children, if that is something
that counts as true. -/
def inherited (proto : Option (String × String)) (name : String) : Option Node :=
  match proto with
  | none => if name ∈ objectPrototype then some (.foreign "") else none
  | some (content, mime) =>
    if name = "__proto__" then some (.file content mime)
    else if name = "type" then some (.foreign "")
    else if name = "content" then if content = "" then none else some (.foreign "")
    else if name = "mime" then if mime = "" then none else some (.foreign "")
    else if name ∈ objectPrototype then some (.foreign "")
    else none

/-- `path.split("/").filter(Boolean)`. Splitting what `join` puts together again gives
the same parts. -/
def parts (path : String) : List String :=
  ((path.toList.splitOn '/').filter (· ≠ [])).map String.ofList

/-- `_resolve` without `createDirs`. -/
def resolve : List String → Node → Option Node
  | [], node => some node
  | name :: names, .dir children proto =>
    match (get children name).or (inherited proto name) with
    | some next => resolve names next
    | none => none
  | _ :: _, _ => none

/-- `_resolve` with `createDirs`: the tree with the missing directories, and whether
the path was resolved. What is there already, or inherited, is not replaced. -/
def createDirs : List String → Node → Node × Bool
  | [], node => (node, true)
  | name :: names, .dir children proto =>
    match get children name with
    | some next =>
      let (next, ok) := createDirs names next
      (.dir (set children name next) proto, ok)
    | none =>
      match inherited proto name with
      | some _ => (.dir children proto, names.isEmpty)
      | none =>
        let (next, ok) := createDirs names .empty
        (.dir (set children name next) proto, ok)
  | _ :: _, node => (node, false)

def updateDir (f : List (String × Node) → Option (String × String) → Node) :
    List String → Node → Option Node
  | [], .dir children proto => some (f children proto)
  | name :: names, .dir children proto =>
    match get children name with
    | some next =>
      (updateDir f names next).map fun next => .dir (set children name next) proto
    | none => none
  | _, _ => none

/-- `dir.children[name] = { type: "file", content, mime }` -/
def assign (name content mime : String) (children : List (String × Node))
    (proto : Option (String × String)) : Node :=
  if name = "__proto__" ∧ get children name = none then
    .dir children (some (content, mime))
  else .dir (set children name (.file content mime)) proto

/-- The name that `parts.pop()` returns, as a property name. -/
def lastName (names : List String) : String := names.getLast?.getD "undefined"

inductive Op
  | write (path content mime : String)
  | mkdir (path : String)
  | remove (path : String)

/-- What a call leaves: the tree, what it returns (nothing if it throws), and whether it
has come to `this.save()`. -/
structure Result where
  tree : Node
  value : Option Bool
  saves : Bool

def write (tree : Node) (path content mime : String) : Result :=
  let names := parts path
  let (tree, ok) := createDirs names.dropLast tree
  match if ok then updateDir (assign (lastName names) content mime) names.dropLast tree
    else none with
  | some tree => ⟨tree, some true, true⟩
  | none => ⟨tree, some false, false⟩

def mkdir (tree : Node) (path : String) : Result :=
  let (tree, ok) := createDirs (parts path) tree
  ⟨tree, some ok, true⟩

def remove (tree : Node) (path : String) : Result :=
  let names := parts path
  let name := lastName names
  match resolve names.dropLast tree with
  | none => ⟨tree, some false, false⟩
  | some (.dir children proto) =>
    if ((get children name).or (inherited proto name)).isSome then
      let delete := fun children proto => Node.dir (delete children name) proto
      ⟨(updateDir delete names.dropLast tree).getD tree, some true, true⟩
    else ⟨tree, some false, false⟩
  -- a file has no `children` to look into
  | some _ => ⟨tree, none, false⟩

def Op.run (tree : Node) : Op → Result
  | .write path content mime => Vfs.write tree path content mime
  | .mkdir path => Vfs.mkdir tree path
  | .remove path => Vfs.remove tree path

def read (tree : Node) (path : String) : Option String :=
  match resolve (parts path) tree with
  | some (.file content _) => some content
  | _ => none

mutual

def stripped : Node → Node
  | .dir children _ => .dir (strippedAll children) none
  | .file content mime => .file content mime
  | .foreign json => .foreign json

def strippedAll : List (String × Node) → List (String × Node)
  | [] => []
  | (name, node) :: rest => (name, stripped node) :: strippedAll rest

end

def defaultTree : Node :=
  .dir [
    ("Desktop", .dir [("Welcome.txt", .file "Welcome to MiniOS!\n\nThis is a tiny Windows-10-style desktop running\ninside the iPad host app. Open the Terminal and type \x60help\x60.\n\nEverything you do here is sandboxed and bridged to iPadOS."
      "text/plain")] none),
    ("Documents", .empty), ("Downloads", .empty), ("Apps", .empty), ("Trash", .empty)] none

/-- The path that an operation writes to or removes. -/
def Op.target : Op → Option (List String)
  | .write path _ _ => some ((parts path).dropLast ++ [lastName (parts path)])
  | .mkdir _ => none
  | .remove path => some ((parts path).dropLast ++ [lastName (parts path)])

/-! ### Induction along a path -/

section Walk

variable {children : List (String × Node)} {proto : Option (String × String)} {name : String}

theorem resolve_own {next : Node} (h : get children name = some next)
    (names : List String) : resolve (name :: names) (.dir children proto) = resolve names next := by
  simp [resolve, h]

theorem resolve_set (children : List (String × Node)) (proto : Option (String × String))
    (name : String) (next : Node) (names : List String) :
    resolve (name :: names) (.dir (set children name next) proto)
      = resolve names next :=
  resolve_own (by rw [get_set, if_pos rfl]) names

end Walk

/-- A path is followed through own children, until it ends, leaves them or meets no directory. -/
theorem walkInduct {P : List String → Node → Prop} (here : ∀ tree, P [] tree)
    (own : ∀ name names children proto next, get children name = some next →
      P names next → P (name :: names) (.dir children proto))
    (new : ∀ name names children proto, get children name = none →
      P (name :: names) (.dir children proto))
    (other : ∀ name names tree, tree.isDir = false → P (name :: names) tree)
    (names : List String) (tree : Node) : P names tree := by
  induction names generalizing tree with
  | nil => exact here tree
  | cons name names ih =>
    cases tree with
    | dir children proto =>
      cases hown : get children name with
      | some next => exact own name names children proto next hown (ih next)
      | none => exact new name names children proto hown
    | _ => exact other name names _ rfl

/-- What is true of the directory that is changed, and is passed on by its parents. -/
@[elab_as_elim]
theorem updateDirInduct {f : List (String × Node) → Option (String × String) → Node}
    {P : List String → Node → Node → Prop}
    (here : ∀ children proto, P [] (.dir children proto) (f children proto))
    (below : ∀ name names children proto next next', get children name = some next →
      updateDir f names next = some next' → P names next next' →
      P (name :: names) (.dir children proto) (.dir (set children name next') proto))
    {names : List String} {tree tree' : Node} (h : updateDir f names tree = some tree') :
    P names tree tree' := by
  induction names, tree using walkInduct generalizing tree' with
  | here tree =>
    cases tree with
    | dir children proto =>
      cases h
      exact here children proto
    | _ => cases h
  | own name names children proto next hown ih =>
    simp only [updateDir, hown] at h
    obtain ⟨next', hnext, rfl⟩ := Option.map_eq_some_iff.mp h
    exact below name names children proto next next' hown hnext (ih hnext)
  | new name names children proto hown => simp [updateDir, hown] at h
  | other name names tree htree =>
    cases tree with
    | dir children proto => cases htree
    | _ => cases h

theorem get_strippedAll (children : List (String × Node)) (name : String) :
    get (strippedAll children) name
      = (get children name).map stripped := by
  induction children with
  | nil => rfl
  | cons e children ih =>
    obtain ⟨k, node⟩ := e
    simp only [strippedAll, get_cons, ih]
    split <;> rfl

end Bootbox.Vfs
