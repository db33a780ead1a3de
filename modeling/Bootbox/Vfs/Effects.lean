import Bootbox.Vfs.Calls

/-!
What the calls of the virtual file system (`kernel/vfs.js`) report, and what they have
then done.

A call reports more than it has done in a few places. A write to the root goes to a child
named `undefined`. `mkdir` takes any node at the end of its path for a directory. `remove`
deletes an own child and reports success also when it found an inherited one. And `write`
and `mkdir` create the directories of a path from the left, so when an inherited name comes
after a new directory they report failure with half of the path in the tree.
-/

namespace Bootbox.Vfs

open Lib

/-- The call has done what it reports: a write is read back and is seen nowhere else, a
directory made can be listed, what was removed is gone, and a call that does not report
success has left the tree as it was. -/
def Honest (tree : Node) (o : Op) : Prop :=
  if (o.run tree).value = some true then
    match o with
    | .write path content _ =>
      read (o.run tree).tree path = some content ∧
        ∀ other, Apart (parts path) (parts other) →
          read (o.run tree).tree other = read tree other ∧
            list (o.run tree).tree other = list tree other
    | .mkdir path => isDirAt (o.run tree).tree path = true
    | .remove path => existsAt (o.run tree).tree path = false
  else (o.run tree).tree = tree

/-- When that is so: the path of a write is not the root, what is at the path of `mkdir` is a
directory, neither creates half of its path, and the name to remove is one that the prototype
does not have, and that no child of the root has by accident. -/
def Fair (tree : Node) : Op → Prop
  | .write path _ _ => parts path ≠ [] ∧ ¬ Halfway (parts path).dropLast tree
  | .mkdir path =>
    (∀ node, resolve (parts path) tree = some node → node.isDir = true) ∧
      ¬ Halfway (parts path) tree
  | .remove path =>
    ∀ children proto, resolve (parts path).dropLast tree = some (.dir children proto) →
      inherited proto (lastName (parts path)) = none ∧
        (parts path = [] → OrderedMap.get children (lastName (parts path)) = none)

section Reports

variable {tree : Node}

theorem honest_write_iff (h : Rooted tree) (path content mime : String) :
    Honest tree (.write path content mime) ↔ Fair tree (.write path content mime) := by
  simp only [Honest, Fair, Op.run]
  rcases write_cases tree path content mime with
    ⟨children, proto, hdir, tree', hrun, hupdate, hq⟩ | ⟨hrun, hnodir⟩
  · simp only [hrun, if_true]
    have hhalf : ¬ Halfway (parts path).dropLast tree := by
      intro hhalf
      rcases createDirs_cases h.sound (parts path).dropLast with
        ⟨hno, -⟩ | ⟨hno, -⟩ | ⟨hno, -⟩ | ⟨-, -, hstop⟩
      · exact hno hhalf
      · exact hno hhalf
      · exact hno hhalf
      · have hfalse := hstop _ hdir
        simp [Node.isDir] at hfalse
    refine ⟨fun hread => ⟨fun hparts => ?_, hhalf⟩, fun hfair => ⟨?_, fun other hother => ?_⟩⟩
    · -- the root stays a directory, so nothing is read there
      obtain ⟨cs, pr, rfl⟩ := exists_dir_of_isDir (isDir_updateDir (isDir_assign _ _ _) hupdate)
      have hnone := hread.1
      simp [read, hparts, resolve] at hnone
    · have hfound := hq [lastName (parts path)]
      rw [dropLast_append_lastName hfair.1, resolve_assign_self] at hfound
      rw [read, hfound]
    · have hpath := dropLast_append_lastName hfair.1
      have hseen : seen (resolve (parts other) tree') = seen (resolve (parts other) tree) := by
        rw [seen_updateDir (seen_assign _ _ _) (hpath.symm ▸ hother) hupdate,
          seen_createDirs (fun hpre => hother.2 (hpre.trans ?_))]
        exact List.dropLast_prefix _
      exact ⟨read_eq_of_seen hseen, list_eq_of_seen hseen⟩
  · simp only [hrun, Option.some.injEq, Bool.false_eq_true, if_false]
    constructor
    · intro hsame
      refine ⟨fun hparts => ?_, fun hhalf => ?_⟩
      · obtain ⟨children, proto, rfl⟩ := exists_dir_of_isDir h.isDir
        simp only [hparts, List.dropLast_nil, createDirs, resolve] at hnodir
        exact hnodir trivial children proto rfl
      · rcases createDirs_cases h.sound (parts path).dropLast with
          ⟨hno, -⟩ | ⟨hno, -⟩ | ⟨hno, -⟩ | ⟨-, hne, -⟩
        · exact hno hhalf
        · exact hno hhalf
        · exact hno hhalf
        · exact hne hsame
    · intro hfair
      rcases createDirs_cases h.sound (parts path).dropLast with
        ⟨-, -, hmade⟩ | ⟨-, -, hmade⟩ | ⟨-, -, hok, hempty⟩ | ⟨hhalf, -⟩
      · rw [hmade]
      · rw [hmade]
      · exact absurd hempty (hnodir hok [] none)
      · exact absurd hhalf hfair.2

theorem honest_mkdir_iff (h : Rooted tree) (path : String) :
    Honest tree (.mkdir path) ↔ Fair tree (.mkdir path) := by
  simp only [Honest, Fair, Op.run, mkdir, Option.some.injEq, isDirAt]
  rcases createDirs_cases h.sound (parts path) with
    ⟨hhalf, ⟨node, hnode⟩, hmade⟩ | ⟨hhalf, hnone, hmade⟩ | ⟨hhalf, hnone, hok, hempty⟩ |
      ⟨hhalf, hne, hstop⟩
  · simp [hmade, hnode, hhalf]
  · simp [hmade, hnone, hhalf]
  · simp [hok, hempty, hnone, hhalf, Node.isDir, Node.empty]
  · refine iff_of_false (fun hhonest => ?_) (fun hfair => hfair.2 hhalf)
    split at hhonest
    case isTrue =>
      cases hend : resolve (parts path) (createDirs (parts path) tree).1 with
      | none => simp [hend] at hhonest
      | some node => simp [hend, hstop node hend] at hhonest
    case isFalse => exact hne hhonest

theorem honest_remove_iff (path : String) :
    Honest tree (.remove path) ↔ Fair tree (.remove path) := by
  simp only [Honest, Fair, Op.run]
  rcases remove_cases tree path with
    ⟨children, proto, hdir, hfound, tree', hrun, hupdate, hq⟩ | ⟨hsame, hvalue, hnone⟩
  · simp only [hrun, if_true, existsAt, hdir, Option.some.injEq, Node.dir.injEq, and_imp]
    have hleft : parts path ≠ [] →
        resolve (parts path) tree' = inherited proto (lastName (parts path)) := by
      intro hparts
      have hname := resolve_removed hq
      rwa [dropLast_append_lastName hparts] at hname
    constructor
    · intro hgone
      have hparts : parts path ≠ [] := by
        intro hparts
        simp [hparts, resolve] at hgone
      rintro _ _ rfl rfl
      exact ⟨by simpa [hleft hparts] using hgone, fun hroot => absurd hroot hparts⟩
    · intro hfair
      obtain ⟨hinh, hroot⟩ := hfair _ _ rfl rfl
      have hparts : parts path ≠ [] := fun hparts => by simp [hroot hparts, hinh] at hfound
      rw [hleft hparts, hinh]
      rfl
  · simp only [hsame, if_neg hvalue, true_iff]
    intro children proto hdir
    obtain ⟨hget, hinh⟩ := Option.or_eq_none_iff.mp (hnone children proto hdir)
    exact ⟨hinh, fun _ => hget⟩

/-- A call does what it reports exactly in the cases of `Fair`. -/
theorem honest_iff_fair (h : Reachable tree) (o : Op) : Honest tree o ↔ Fair tree o := by
  cases o with
  | write path content mime => exact honest_write_iff h.rooted path content mime
  | mkdir path => exact honest_mkdir_iff h.rooted path
  | remove path => exact honest_remove_iff path

/-- A new file on the desktop. -/
theorem honest_iff_fair_desktop :
    Honest defaultTree (.write "/Desktop/notes.txt" "1" "text/plain") := by
  refine (honest_iff_fair .start _).mpr ⟨by decide +kernel, fun h => ?_⟩
  have hdir : (parts "/Desktop/notes.txt").dropLast = ["Desktop"] := by decide +kernel
  rw [hdir] at h
  simp [Halfway, defaultTree, OrderedMap.get_cons] at h

/-- `mkdir` on the path of a file reports success. -/
theorem mkdir_of_file_succeeds : Reachable defaultTree ∧
    (mkdir defaultTree "/Desktop/Welcome.txt").value = some true ∧
    ¬ Honest defaultTree (.mkdir "/Desktop/Welcome.txt") := by
  have hvalue : (mkdir defaultTree "/Desktop/Welcome.txt").value = some true := by decide +kernel
  have hfile : isDirAt (mkdir defaultTree "/Desktop/Welcome.txt").tree "/Desktop/Welcome.txt"
      = false := by decide +kernel
  refine ⟨.start, hvalue, fun h => ?_⟩
  simp only [Honest, Op.run, hvalue, if_true, hfile] at h
  cases h

end Reports

end Bootbox.Vfs
