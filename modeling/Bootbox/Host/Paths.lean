import Bootbox.Lib.PathNames

/-!
The files that the app touches for a request of its page: `resolve`, the choice of the
file in `respond` and the target of `handleUpload` in `LocalServer.swift`, `resolve` in
`VMStorage.swift`, and the actions of `handle` in `BinaryBridge.swift`.

The server refuses every path in which two dots meet, so it can only miss by naming a
folder itself (`.`). The bridge joins the page's names to the imports folder as they
are, and downloads from `file:` URLs, too.
-/

namespace Bootbox.Host

open Lib.PathNames List Option

abbrev Place := List (List Char)

/-! ### The folders -/

/-- Where the system has put the app: the App Group container (or Documents in its stead),
Documents, and the bundle, with `index.html` in its folder `web` or beside it. -/
structure Folders where
  container : Place
  documents : Place
  bundle : Place
  indexInWeb : Bool

namespace Folders

def importsDir (F : Folders) : Place := F.container ++ ["MiniOSImports".toList]

def docsISOsDir (F : Folders) : Place := F.documents ++ ["ISOs".toList]

def snapshotsDir (F : Folders) : Place := F.container ++ ["MiniOSSnapshots".toList]

def webRoot (F : Folders) : Place :=
  if F.indexInWeb then F.bundle ++ ["web".toList] else F.bundle

/-- The web root and the folders of `VMStorage`. -/
def all (F : Folders) : List Place := [F.webRoot, F.importsDir, F.docsISOsDir, F.snapshotsDir]

end Folders

structure Layout extends Folders where
  apart : ∀ a ∈ toFolders.all, ∀ b ∈ toFolders.all, a <+: b → a = b

/-- Strictly inside one of the folders, and none of them itself. -/
def Layout.Inside (L : Layout) (place : Place) : Prop :=
  (∃ folder ∈ L.all, Below folder place) ∧ place ∉ L.all

instance (L : Layout) (place : Place) : Decidable (L.Inside place) :=
  inferInstanceAs (Decidable (_ ∧ _))

/-- What is on the disk. The folders are there: each is created before it is used. -/
structure Disk (L : Layout) where
  present : Place → Bool
  size : Place → ℕ
  folders_present : ∀ folder ∈ L.all, present folder = true

/-- A file URL: a folder, and what was joined to it. -/
structure Url where
  folder : Place
  written : List Char

namespace Url

def place (u : Url) : Place := walk u.folder (steps u.written)

/-- `appendingPathExtension`: the last component gets the extension. -/
def appendingPathExtension (u : Url) (ext : List Char) : Url :=
  if trimSlashes u.written = [] then
    ⟨u.folder.dropLast ++ [u.folder.getLastD [] ++ '.' :: ext], []⟩
  else ⟨u.folder, trimSlashes u.written ++ '.' :: ext⟩

end Url

def lastPathComponent (path : List Char) : List Char :=
  if trimSlashes path = [] ∧ path ≠ [] then ['/'] else lastComponent path

/-! ### The loopback server -/

section Code

variable (L : Layout) (disk : Disk L)

/-- `VMStorage.resolve`. -/
def vmResolve (name : List Char) : Option Url :=
  let candidates : List Url :=
    [⟨L.importsDir, name⟩, ⟨L.docsISOsDir, name⟩, ⟨L.snapshotsDir, name⟩,
      ⟨L.bundle ++ ["web".toList, "iso".toList], name⟩]
  candidates.find? fun c => disk.present c.place

/-- A request's path without the query, decoded, and relative. -/
def relativePath (path : List Char) : List Char :=
  let rel := path.takeWhile (· != '?')
  let rel := (removingPercentEncoding rel).getD rel
  let rel := rel.dropWhile (· == '/')
  if rel = [] then "index.html".toList else rel

def expandedPacks : List (List Char × List Char) :=
  [("vendor/qemu-aload/qemu-system-x86_64.data".toList,
      "qemu64-v5-rootfs-945742898.data".toList),
    ("vendor/qemu-desktop/qemu-system-x86_64.data".toList,
      "qemu-desktop16-rootfs-1276163988.data".toList),
    ("vendor/qemu-android/qemu-system-x86_64.data".toList,
      "qemu-android64-warm6-2141954248.data".toList),
    ("vendor/qemu-aarch64/qemu-system-aarch64.data".toList,
      "qemu-aarch64-rootfs-265519785.data".toList)]

/-- The packed files that are downloaded on demand. -/
def downloadedPacks : List (List Char × List Char) :=
  [("vendor/qemu-aload/qemu-system-x86_64.data.gz".toList,
      "qemu64-v5-rootfs-945742898.data.gz".toList),
    ("vendor/qemu-aarch64/qemu-system-aarch64.wasm.gz".toList,
      "qemu-aarch64-engine-16240484.wasm.gz".toList),
    ("vendor/qemu-aarch64/qemu-system-aarch64.data.gz".toList,
      "qemu-aarch64-rootfs-265519785.data.gz".toList),
    ("vendor/qemu-desktop/qemu-system-x86_64.data.gz".toList,
      "qemu-desktop16-rootfs-1276163988.data.gz".toList),
    ("vendor/qemu-android/qemu-system-x86_64.data.gz".toList,
      "qemu-android64-warm6-2141954248.data.gz".toList)]

/-- A path of the stores of `VMStorage`. -/
def IsStored (rel : List Char) : Prop := "ISOs/".toList <+: rel ∨ "vmres/".toList <+: rel

instance (rel : List Char) : Decidable (IsStored rel) := inferInstanceAs (Decidable (_ ∨ _))

/-- The end of `resolve`: the packs in the imports folder, and the web root. -/
def bundledFile (rel : List Char) : Option Url :=
  match (expandedPacks ++ downloadedPacks).lookup rel with
  | some name =>
    let raw : Url := ⟨L.importsDir, name⟩
    if disk.present raw.place then some raw else none
  | none =>
    let f : Url := ⟨L.webRoot, rel⟩
    if pathText L.webRoot <+: pathText f.place ∧ disk.present f.place then some f else none

/-- `LocalServer.resolve`. -/
def resolve (path : List Char) : Option Url :=
  let rel := relativePath path
  if ['.', '.'] <:+: rel then none
  else if IsStored rel then
    (vmResolve L disk (lastPathComponent rel)).or (bundledFile L disk rel)
  else bundledFile L disk rel

/-- The file that `respond` serves, and whether it is served with `Content-Encoding: gzip`. -/
def servedFile (path : List Char) (acceptsGzip : Bool) : Option (Url × Bool) :=
  match resolve L disk path with
  | some f => some (f, false)
  | none =>
    if acceptsGzip then
      (resolve L disk (path.takeWhile (· != '?') ++ ".gz".toList)).map (·, true)
    else none

/-- The name that `handleUpload` takes from a request's path. -/
def saveName (path : List Char) : Option (List Char) :=
  let path := path.takeWhile (· != '?')
  let path := (removingPercentEncoding path).getD path
  if ¬ "/save/".toList <+: path then none
  else
    let name := lastPathComponent path
    if name = [] ∨ ['.', '.'] <:+: name then none else some name

/-! ### Requests and the files they touch -/

inductive Access
  | read (place : Place)
  | write (place : Place)
  | delete (place : Place)
  deriving DecidableEq

def Access.place : Access → Place
  | .read p | .write p | .delete p => p

@[simp] theorem Access.place_read (p : Place) : (Access.read p).place = p := rfl

@[simp] theorem Access.place_write (p : Place) : (Access.write p).place = p := rfl

@[simp] theorem Access.place_delete (p : Place) : (Access.delete p).place = p := rfl

/-- What the page can have downloaded. -/
inductive DownloadUrl
  /-- A `file:` URL, with its path decoded. -/
  | file (path : List Char)
  | other

def DownloadUrl.accesses : DownloadUrl → List Access
  | .file path => [.read (Url.place ⟨[], path⟩)]
  | .other => []

/-- What the page can ask for: the server's two kinds of requests, and the actions of the
bridge that take a name. -/
inductive Request
  | get (path : List Char) (acceptsGzip : Bool)
  | save (path : List Char)
  | download (url : DownloadUrl) (name : List Char) (size : ℤ)
  | gunzip (src dst : List Char)
  | inspect (name : List Char)
  | dex (name : List Char)
  | delete (name : List Char)

def importUrl (name : List Char) : Url := ⟨L.importsDir, name⟩

/-- The accesses of a job of the `Downloader`. -/
def downloadJob (url : DownloadUrl) (dest : Place) : List Access :=
  url.accesses ++ [.delete dest, .write dest, .read dest, .delete dest]

/-- Every access that a request can lead to, jobs it starts included. Reading a file's
attributes is reading it; asking whether it exists is not. -/
def accesses : Request → List Access
  | .get path acceptsGzip =>
    match servedFile L disk path acceptsGzip with
    | some (f, _) => [.read f.place]
    | none => []
  | .save path =>
    match saveName path with
    | some name =>
      let dest := (importUrl L name).place
      let tmp := (importUrl L (name ++ ".part".toList)).place
      [.delete tmp, .write tmp, .delete dest, .write dest, .delete tmp]
    | none => []
  | .download url name expected =>
    let dest := (importUrl L name).place
    if disk.present dest then
      if expected ≤ 0 ∨ (disk.size dest : ℤ) = expected then [.read dest]
      else .read dest :: .delete dest :: downloadJob url dest
    else downloadJob url dest
  | .gunzip src dst =>
    let srcURL := importUrl L src
    let dstURL := importUrl L dst
    if disk.present dstURL.place then [.delete srcURL.place]
    else if disk.present srcURL.place then
      let partURL := dstURL.appendingPathExtension "part".toList
      [.delete partURL.place, .read srcURL.place, .write partURL.place, .delete dstURL.place,
        .write dstURL.place, .delete srcURL.place, .delete partURL.place]
    else []
  | .inspect name => [.read (importUrl L name).place]
  | .dex name => [.read (importUrl L name).place]
  | .delete name => [.delete (importUrl L name).place]

end Code

/-- A path with which the server serves a folder: `.` in one of the stores, or a path made of
dots and slashes only. -/
def NamesFolder (rel : List Char) : Prop :=
  ¬ ['.', '.'] <:+: rel ∧
    ((IsStored rel ∧ lastPathComponent rel = ['.']) ∨ (steps rel).filterMap Step.name? = [])

instance (rel : List Char) : Decidable (NamesFolder rel) := inferInstanceAs (Decidable (_ ∧ _))

/-- A name of the bridge that leads to something below the imports folder, or up from it and down
again past one of the folders. -/
def LeadsInside (L : Layout) (name : List Char) : Prop :=
  match normal (steps name) with
  | (0, names) => names ≠ []
  | (ups + 1, names) => ∃ way, L.importsDir.rdrop (ups + 1) ++ way ∈ L.all ∧ Below way names

/-- A URL that is no `file:` URL, or one whose names go on behind those of a folder. -/
def DownloadUrl.LeadsInside (L : Layout) : DownloadUrl → Prop
  | .file path => ∃ folder ∈ L.all, Below folder (normal (steps path)).2
  | .other => True

/-- The requests that stay inside: the server's with a path that names no folder, the bridge's
with names that lead inside, and no download of a file outside unless there is one already. -/
def Confined (L : Layout) (disk : Disk L) : Request → Prop
  | .get path _ => ¬ NamesFolder (relativePath path)
  | .save path => saveName path ≠ some ['.']
  | .download url name expected =>
    let dest := (importUrl L name).place
    LeadsInside L name ∧ (url.LeadsInside L ∨
      disk.present dest ∧ (expected ≤ 0 ∨ (disk.size dest : ℤ) = expected))
  | .gunzip src dst =>
    if disk.present (importUrl L dst).place then LeadsInside L src
    else if disk.present (importUrl L src).place then LeadsInside L src ∧ LeadsInside L dst
    else True
  | .inspect name | .dex name | .delete name => LeadsInside L name

/-! ### Places inside the folders -/

section Inside

variable {L : Layout} {disk : Disk L}

variable {name path rel : List Char}

theorem Layout.inside_of_below {folder place : Place} (hfolder : folder ∈ L.all)
    (h : Below folder place) : L.Inside place := by
  refine ⟨⟨folder, hfolder, h⟩, fun hplace => ?_⟩
  exact h.2 (L.apart folder hfolder place hplace h.1).symm

theorem Layout.importsDir_mem (L : Layout) : L.importsDir ∈ L.all := by simp [Folders.all]

theorem Layout.webRoot_mem (L : Layout) : L.webRoot ∈ L.all := by simp [Folders.all]

theorem below_of_length (hslash : '/' ∉ name) (hlen : 3 ≤ name.length) (folder : Place) :
    Below folder (Url.place ⟨folder, name⟩) := by
  change Below folder (walk folder (steps name))
  rw [steps_of_noSlash hslash, stepOf_of_length hlen]
  exact below_concat prefix_rfl name

theorem inside_importUrl_iff : L.Inside (importUrl L name).place ↔ LeadsInside L name := by
  have hplace : (importUrl L name).place = _ := walk_eq_normal L.importsDir (steps name)
  rw [LeadsInside, hplace]
  generalize normal (steps name) = n
  obtain ⟨ups, names⟩ := n
  cases ups with
  | zero =>
    rw [rdrop_zero]
    refine ⟨?_, fun h => L.inside_of_below L.importsDir_mem ⟨prefix_append .., by simpa⟩⟩
    rintro ⟨-, hnot⟩ rfl
    rw [append_nil] at hnot
    exact hnot L.importsDir_mem
  | succ ups =>
    constructor
    · rintro ⟨⟨folder, hfolder, hbelow⟩, -⟩
      rcases prefix_or_prefix_of_prefix hbelow.1 (prefix_append ..) with
        habove | ⟨way, rfl⟩
      · -- no folder lies above the imports folder
        have heq := L.apart folder hfolder _ L.importsDir_mem
          (habove.trans ( take_prefix ..))
        have hlen := habove.length_le
        have hpos : 0 < L.importsDir.length := by simp [Folders.importsDir]
        rw [heq, rdrop, length_take] at hlen
        omega
      · refine ⟨way, hfolder, (prefix_append_right_inj _).mp hbelow.1, ?_⟩
        rintro rfl
        exact hbelow.2 rfl
    · rintro ⟨way, hfolder, hbelow⟩
      refine L.inside_of_below hfolder ⟨(prefix_append_right_inj _).mpr hbelow.1, ?_⟩
      exact fun heq => hbelow.2 (append_cancel_left heq)

theorem inside_url_iff (url : DownloadUrl) :
    (∀ a ∈ url.accesses, L.Inside a.place) ↔ url.LeadsInside L := by
  cases url with
  | other => simp [DownloadUrl.accesses, DownloadUrl.LeadsInside]
  | file path =>
    have hplace : Url.place ⟨[], path⟩ = (normal (steps path)).2 := by
      simp [Url.place, walk_eq_normal, rdrop]
    simp only [DownloadUrl.accesses, DownloadUrl.LeadsInside, forall_mem_singleton,
      Access.place_read, hplace]
    exact ⟨And.left, fun ⟨_, hfolder, hbelow⟩ => L.inside_of_below hfolder hbelow⟩

theorem names_ne_nil {store : List Char} (hslash : '/' ∉ store) (hlen : 3 ≤ store.length)
    (rest : List Char) : (steps (store ++ '/' :: rest)).filterMap Step.name? ≠ [] := by
  rw [steps_append_slash, steps_of_noSlash hslash, stepOf_of_length hlen]
  simp [Step.name?]

theorem place_of_dot (folder : Place) : Url.place ⟨folder, ['.']⟩ = folder := rfl

/-- Whatever the last component of a URL is, the one with an extension lies beside what it
names, or below it: inside when that is. -/
theorem inside_appendingPathExtension {u : Url} (h : L.Inside u.place) {ext : List Char}
    (hslash : '/' ∉ ext) (hext : ext ≠ []) :
    L.Inside (u.appendingPathExtension ext).place := by
  obtain ⟨⟨folder, hfolder, hbelow⟩, -⟩ := h
  rw [Url.place, ← walk_trimSlashes] at hbelow
  apply L.inside_of_below hfolder
  rw [Url.appendingPathExtension]
  split
  case isTrue htrim =>
    -- nothing was joined: the folder itself gets the extension
    rw [htrim] at hbelow
    exact below_concat (le_dropLast_of_below hbelow) _
  case isFalse htrim =>
    obtain ⟨-, hne, -, front, hsteps⟩ := lastComponent_spec htrim
    have hmore : '/' ∉ '.' :: ext := by simpa using hslash
    have hdown : stepOf (lastComponent u.written ++ '.' :: ext) =
        .down (lastComponent u.written ++ '.' :: ext) := by
      have hlen : 3 ≤ (lastComponent u.written ++ '.' :: ext).length := by
        have := length_pos_iff.mpr hne
        have := length_pos_iff.mpr hext
        simp only [length_append, length_cons]
        omega
      exact stepOf_of_length hlen
    rw [← append_nil (trimSlashes u.written), hsteps [] not_mem_nil, walk_append]
      at hbelow
    rw [Url.place, hsteps _ hmore, hdown, walk_append]
    exact below_concat (le_of_below_step hbelow) _

/-! ### What the server resolves -/

/-- The names that the code joins to the folders. -/
structure PlainName (name : List Char) : Prop where
  noSlash : '/' ∉ name
  nonempty : name ≠ []
  noDots : ¬ ['.', '.'] <:+: name
  notDot : name ≠ ['.']

theorem PlainName.isFileName (h : PlainName name) : IsFileName name := by
  have hdouble : name ≠ ['.', '.'] := by
    rintro rfl
    exact h.noDots infix_rfl
  refine ⟨h.noSlash, ?_⟩
  rw [stepOf, if_neg (not_or.mpr ⟨h.nonempty, h.notDot⟩), if_neg hdouble]

theorem PlainName.below (h : PlainName name) (folder : Place) :
    Below folder (Url.place ⟨folder, name⟩) := by
  rw [Url.place, h.isFileName.walk]
  exact below_concat prefix_rfl name

theorem plainName_lastPathComponent (htrim : trimSlashes path ≠ []) (hdots : ¬ ['.', '.'] <:+: path)
    (hdot : lastPathComponent path ≠ ['.']) : PlainName (lastPathComponent path) := by
  have hlast : lastPathComponent path = lastComponent path := if_neg fun h => htrim h.1
  obtain ⟨hslash, hne, hsuffix, -⟩ := lastComponent_spec htrim
  rw [hlast] at hdot ⊢
  refine ⟨hslash, hne, fun hpiece => hdots ?_, hdot⟩
  exact (hpiece.trans hsuffix.isInfix).trans ( rdropWhile_prefix _ _).isInfix

theorem trimSlashes_ne_nil {c : Char} (hc : c ∈ path) (hslash : c ≠ '/') :
    trimSlashes path ≠ [] := by
  intro hnil
  exact hslash (by simpa using rdropWhile_eq_nil_iff.mp hnil c hc)

theorem IsStored.trimSlashes_ne_nil (h : IsStored rel) : trimSlashes rel ≠ [] := by
  rcases h with hp | hp
  · exact Host.trimSlashes_ne_nil (c := 'I') (hp.subset (by decide)) (by decide)
  · exact Host.trimSlashes_ne_nil (c := 'v') (hp.subset (by decide)) (by decide)

theorem IsStored.names_ne_nil (h : IsStored rel) : (steps rel).filterMap Step.name? ≠ [] := by
  rcases h with ⟨rest, rfl⟩ | ⟨rest, rfl⟩
  · exact @Host.names_ne_nil "ISOs".toList (by decide) (by decide) rest
  · exact @Host.names_ne_nil "vmres".toList (by decide) (by decide) rest

variable {f : Url}

theorem inside_of_vmResolve (hname : PlainName name) (h : vmResolve L disk name = some f) :
    L.Inside f.place := by
  have hmem := mem_of_find?_eq_some h
  simp only [mem_cons, not_mem_nil, or_false] at hmem
  rcases hmem with rfl | rfl | rfl | rfl
  · exact L.inside_of_below (by simp [Folders.all]) (hname.below _)
  · exact L.inside_of_below (by simp [Folders.all]) (hname.below _)
  · exact L.inside_of_below (by simp [Folders.all]) (hname.below _)
  · -- the bundle's `web/iso` lies in the web root
    have hroot : L.webRoot <+: L.bundle ++ ["web".toList, "iso".toList] := by
      rw [Folders.webRoot]
      split
      · exact ⟨["iso".toList], by simp⟩
      · exact prefix_append _ _
    rw [Url.place, hname.isFileName.walk]
    exact L.inside_of_below L.webRoot_mem (below_concat hroot name)

theorem vmResolve_dot : vmResolve L disk ['.'] = some ⟨L.importsDir, ['.']⟩ := by
  have hpresent : disk.present (Url.place ⟨L.importsDir, ['.']⟩) = true :=
    disk.folders_present _ L.importsDir_mem
  exact find?_cons_of_pos (p := fun c : Url => disk.present c.place) hpresent

theorem packs_plain : ∀ pack ∈ expandedPacks ++ downloadedPacks,
    '/' ∉ pack.2 ∧ 3 ≤ pack.2.length ∧ "vendor/".toList <+: pack.1 := by
  simp [expandedPacks, downloadedPacks]

theorem mem_of_lookup {packs : List (List Char × List Char)} (h : packs.lookup rel = some name) :
    (rel, name) ∈ packs := by
  obtain ⟨before, after, heq, -⟩ := lookup_eq_some_iff.mp h
  rw [heq]
  exact mem_append_right before mem_cons_self

theorem inside_of_bundledFile (hdots : ¬ ['.', '.'] <:+: rel)
    (hnames : (steps rel).filterMap Step.name? ≠ []) (h : bundledFile L disk rel = some f) :
    L.Inside f.place := by
  revert h
  fun_cases bundledFile L disk rel with
  | case1 name hlookup =>
    intro h
    rw [← some.inj h]
    obtain ⟨hslash, hlen, -⟩ := packs_plain _ (mem_of_lookup hlookup)
    exact L.inside_of_below L.importsDir_mem (below_of_length hslash hlen _)
  | case3 =>
    intro h
    rw [← some.inj h]
    exact L.inside_of_below L.webRoot_mem ((below_walk_iff (noUp_of_noDots hdots) _).mpr hnames)
  | _ => nofun

theorem bundledFile_root (disk : Disk L) (hdots : ¬ ['.', '.'] <:+: rel)
    (hnames : (steps rel).filterMap Step.name? = []) :
    bundledFile L disk rel = some ⟨L.webRoot, rel⟩ ∧ Url.place ⟨L.webRoot, rel⟩ = L.webRoot := by
  have hplace : Url.place ⟨L.webRoot, rel⟩ = L.webRoot := by
    rw [Url.place, walk_of_noUp (noUp_of_noDots hdots), hnames, append_nil]
  refine ⟨?_, hplace⟩
  have hlookup : (expandedPacks ++ downloadedPacks).lookup rel = none := by
    cases hl : (expandedPacks ++ downloadedPacks).lookup rel with
    | none => rfl
    | some name =>
      obtain ⟨-, -, rest, rfl⟩ := packs_plain _ (mem_of_lookup hl)
      exact absurd hnames (@names_ne_nil "vendor".toList (by decide) (by decide) rest)
  rw [bundledFile, hlookup]
  dsimp only
  rw [hplace, if_pos ⟨prefix_rfl, disk.folders_present _ L.webRoot_mem⟩]

theorem inside_of_resolve (hpath : ¬ NamesFolder (relativePath path))
    (h : resolve L disk path = some f) : L.Inside f.place := by
  rw [resolve] at h
  split at h
  case isTrue => cases h
  case isFalse hdots =>
    have hnot : ¬ ((IsStored (relativePath path) ∧ lastPathComponent (relativePath path) = ['.']) ∨
        (steps (relativePath path)).filterMap Step.name? = []) := fun hor => hpath ⟨hdots, hor⟩
    rw [not_or, not_and] at hnot
    split at h
    case isFalse => exact inside_of_bundledFile hdots hnot.2 h
    case isTrue hstored =>
      rcases or_eq_some_iff.mp h with hvm | ⟨-, hbundled⟩
      · apply inside_of_vmResolve _ hvm
        exact plainName_lastPathComponent hstored.trimSlashes_ne_nil hdots (hnot.1 hstored)
      · exact inside_of_bundledFile hdots hnot.2 hbundled

theorem resolve_folder (disk : Disk L) (hpath : NamesFolder (relativePath path)) :
    ∃ f, resolve L disk path = some f ∧ f.place ∈ L.all := by
  obtain ⟨hdots, hfolder⟩ := hpath
  rw [resolve, if_neg hdots]
  split
  case isTrue hstored =>
    rcases hfolder with ⟨-, hdot⟩ | hnames
    · rw [hdot, vmResolve_dot]
      exact ⟨_, rfl, L.importsDir_mem⟩
    · exact absurd hnames hstored.names_ne_nil
  case isFalse hstored =>
    rcases hfolder with ⟨hstored', -⟩ | hnames
    · exact absurd hstored' hstored
    · obtain ⟨hfile, hplace⟩ := bundledFile_root disk hdots hnames
      refine ⟨_, hfile, ?_⟩
      rw [hplace]
      exact L.webRoot_mem

/-- A last letter that is no digit of an escape stays the last one. -/
theorem relativePath_concat {c : Char} (hquery : '?' ∉ path ++ [c]) (hascii : c.toNat < 128)
    (hpercent : c ≠ '%') (hhex : hexValue c = none) (hslash : c ≠ '/') :
    ∃ front, relativePath (path ++ [c]) = front ++ [c] := by
  have hcut : (path ++ [c]).takeWhile (· != '?') = path ++ [c] := by
    refine takeWhile_eq_self_iff.mpr fun x hx => ?_
    simpa using ne_of_mem_of_not_mem hx hquery
  obtain ⟨decoded, hdecoded⟩ : ∃ decoded,
      (removingPercentEncoding (path ++ [c])).getD (path ++ [c]) = decoded ++ [c] := by
    cases h : removingPercentEncoding (path ++ [c]) with
    | none => exact ⟨path, rfl⟩
    | some text => exact removingPercentEncoding_concat hascii hpercent hhex h
  obtain ⟨front, hfront⟩ : ∃ front,
      (decoded ++ [c]).dropWhile (· == '/') = front ++ [c] := by
    rw [dropWhile_append]
    split
    · exact ⟨[], by simp [hslash]⟩
    · exact ⟨_, rfl⟩
  refine ⟨front, ?_⟩
  rw [relativePath, hcut, hdecoded, hfront, if_neg (by simp)]

theorem gz_names_no_folder (path : List Char) :
    ¬ NamesFolder (relativePath (path.takeWhile (· != '?') ++ ".gz".toList)) := by
  have hquery : '?' ∉ path.takeWhile (· != '?') ++ ".g".toList ++ ['z'] := by
    simp only [mem_append, not_or]
    refine ⟨⟨fun hmem => ?_, by decide⟩, by decide⟩
    simpa using mem_takeWhile_imp hmem
  obtain ⟨front, hfront⟩ :=
    relativePath_concat hquery (by decide) (by decide) (by decide) (by decide)
  rw [show path.takeWhile (· != '?') ++ ".gz".toList =
    path.takeWhile (· != '?') ++ ".g".toList ++ ['z'] by simp, hfront]
  rintro ⟨hdots, hfolder⟩
  obtain ⟨hlast, hnames⟩ := names_of_concat front (c := 'z') (by decide) (by decide)
  rcases hfolder with ⟨hstored, hdot⟩ | hnil
  · rw [lastPathComponent, if_neg fun h => hstored.trimSlashes_ne_nil h.1] at hdot
    exact hlast hdot
  · exact hnames hnil

theorem get_inside_iff (path : List Char) (acceptsGzip : Bool) :
    (∀ a ∈ accesses L disk (.get path acceptsGzip), L.Inside a.place) ↔
      ¬ NamesFolder (relativePath path) := by
  constructor
  · intro h hfolder
    obtain ⟨f, hresolve, hmem⟩ := resolve_folder disk hfolder
    have hread : .read f.place ∈ accesses L disk (.get path acceptsGzip) := by
      simp [accesses, servedFile, hresolve]
    exact (h _ hread).2 hmem
  · intro hpath a ha
    simp only [accesses] at ha
    split at ha
    case h_2 => cases ha
    case h_1 f gzip hserved =>
      obtain rfl := mem_singleton.mp ha
      revert hserved
      fun_cases servedFile L disk path acceptsGzip with
      | case1 f' hresolve =>
        rintro ⟨⟩
        exact inside_of_resolve hpath hresolve
      | case2 =>
        intro hserved
        obtain ⟨f', hresolve, heq⟩ := map_eq_some_iff.mp hserved
        cases heq
        exact inside_of_resolve (gz_names_no_folder path) hresolve
      | case3 => nofun

theorem saveName_spec (h : saveName path = some name) :
    '/' ∉ name ∧ name ≠ [] ∧ ¬ ['.', '.'] <:+: name := by
  revert h
  fun_cases saveName path with
  | case3 _ path hstart _ hname =>
    intro h
    have htrim := trimSlashes_ne_nil (c := 's') ((not_not.mp hstart).subset (by decide)) (by decide)
    rw [← some.inj h]
    refine ⟨?_, not_or.mp hname⟩
    change '/' ∉ lastPathComponent path
    rw [lastPathComponent, if_neg fun hnil => htrim hnil.1]
    exact (lastComponent_spec htrim).1
  | _ => nofun

theorem save_inside_iff (path : List Char) :
    (∀ a ∈ accesses L disk (.save path), L.Inside a.place) ↔ saveName path ≠ some ['.'] := by
  constructor
  · intro h hname
    have hdelete : .delete L.importsDir ∈ accesses L disk (.save path) := by
      simp [accesses, hname, importUrl, place_of_dot]
    exact (h _ hdelete).2 L.importsDir_mem
  · intro hdot a ha
    simp only [accesses] at ha
    split at ha
    case h_2 => cases ha
    case h_1 name hname =>
      obtain ⟨hslash, hne, hdots⟩ := saveName_spec hname
      have hplain : PlainName name := ⟨hslash, hne, hdots, fun heq => hdot (heq ▸ hname)⟩
      have hdest : L.Inside (importUrl L name).place :=
        L.inside_of_below L.importsDir_mem (hplain.below _)
      have htmp : L.Inside (importUrl L (name ++ ".part".toList)).place := by
        apply L.inside_of_below L.importsDir_mem
        apply below_of_length
        · rw [mem_append, not_or]
          exact ⟨hslash, by decide⟩
        · rw [length_append]
          exact Nat.le_add_left_of_le (by decide)
      simp only [mem_cons, not_mem_nil, or_false] at ha
      rcases ha with rfl | rfl | rfl | rfl | rfl
      exacts [htmp, htmp, hdest, hdest, htmp]

theorem download_inside_iff (url : DownloadUrl) (name : List Char) (expected : ℤ) :
    (∀ a ∈ accesses L disk (.download url name expected), L.Inside a.place) ↔
      Confined L disk (.download url name expected) := by
  have hjob : ∀ dest, (∀ a ∈ downloadJob url dest, L.Inside a.place) ↔
      L.Inside dest ∧ url.LeadsInside L := by
    intro dest
    simp [downloadJob, or_imp, forall_and, inside_url_iff, and_comm]
  simp only [accesses, Confined, ← inside_importUrl_iff]
  split
  case isTrue hpresent =>
    split
    case isTrue hsize => simp [hpresent, hsize]
    case isFalse hsize => simp [hpresent, hsize, hjob]
  case isFalse hpresent => simp [hpresent, hjob]

theorem gunzip_inside_iff (src dst : List Char) :
    (∀ a ∈ accesses L disk (.gunzip src dst), L.Inside a.place) ↔
      Confined L disk (.gunzip src dst) := by
  simp only [accesses, Confined, ← inside_importUrl_iff]
  split
  · simp
  · split
    · have hpart : L.Inside (importUrl L dst).place →
          L.Inside ((importUrl L dst).appendingPathExtension "part".toList).place :=
        fun h => inside_appendingPathExtension h (by decide) (by decide)
      simp only [forall_mem_cons, Access.place_delete, Access.place_read, Access.place_write,
        not_mem_nil, false_implies, implies_true, and_true]
      exact ⟨fun ⟨_, hsrc, _, hdst, _⟩ => ⟨hsrc, hdst⟩, fun ⟨hsrc, hdst⟩ =>
        ⟨hpart hdst, hsrc, hpart hdst, hdst, hdst, hsrc, hpart hdst⟩⟩
    · simp

end Inside

/-- The files of a request lie strictly inside the web root or the storage folders exactly when
the server's path names none of them and the bridge's names lead inside. -/
theorem accesses_inside_iff (L : Layout) (disk : Disk L) (r : Request) :
    (∀ a ∈ accesses L disk r, L.Inside a.place) ↔ Confined L disk r := by
  cases r with
  | get path acceptsGzip => exact get_inside_iff path acceptsGzip
  | save path => exact save_inside_iff path
  | download url name expected => exact download_inside_iff url name expected
  | gunzip src dst => exact gunzip_inside_iff src dst
  | inspect name | dex name | delete name =>
    simp [accesses, Confined, inside_importUrl_iff]

def sampleLayout : Layout where
  container := ["group".toList]
  documents := ["data".toList, "Documents".toList]
  bundle := ["app".toList]
  indexInWeb := true
  apart := by decide

def sampleDisk : Disk sampleLayout where
  present place := place ∈ sampleLayout.all
  size _ := 0
  folders_present := by decide

theorem saveName_dot : saveName "/save/.".toList = some ['.'] := by
  have hplain : removingPercentEncoding "/save/.".toList = some "/save/.".toList :=
    removingPercentEncoding_plain (by decide)
  rw [saveName, show "/save/.".toList.takeWhile (· != '?') = "/save/.".toList by decide, hplain]
  decide

/-- The bridge deletes the imports folder for an empty name and a file beside it for a name that
goes up, and it downloads a file from anywhere; an upload to `/save/.` deletes the folder, too. -/
theorem reaches_outside :
    .delete sampleLayout.importsDir ∈ accesses sampleLayout sampleDisk (.delete []) ∧
    .delete ["group".toList, "Library".toList] ∈
      accesses sampleLayout sampleDisk (.delete "../Library".toList) ∧
    .read ["group".toList, "Library".toList] ∈ accesses sampleLayout sampleDisk
      (.download (.file "/group/Library".toList) "a".toList 0) ∧
    .delete sampleLayout.importsDir ∈
      accesses sampleLayout sampleDisk (.save "/save/.".toList) ∧
    ¬ sampleLayout.Inside sampleLayout.importsDir ∧
    ¬ sampleLayout.Inside ["group".toList, "Library".toList] := by
  refine ⟨by decide, by decide, by decide, ?_, by decide, by decide⟩
  rw [accesses, saveName_dot]
  decide

end Bootbox.Host
