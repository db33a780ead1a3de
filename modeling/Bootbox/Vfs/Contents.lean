import Bootbox.Vfs.Views

/-!
The files of a whole tree. A change that carries every file of one tree to its own place in
another, and makes no others, keeps the contents: each is there as often as before.
-/

namespace Bootbox.Vfs

open Lib List OrderedMap

mutual

def filesOf : Node → List (List String × String)
  | .dir children proto =>
    (proto.toList.map fun p => (["__proto__"], p.1)) ++ filesOfAll children
  | .file content _ => [([], content)]
  | .foreign _ => []

def filesOfAll : List (String × Node) → List (List String × String)
  | [] => []
  | (name, node) :: rest => (filesOf node).map (fun f => (name :: f.1, f.2)) ++ filesOfAll rest

end

def contents (tree : Node) : List String := (filesOf tree).map Prod.snd

variable {children : List (String × Node)}

theorem mem_filesOfAll {q : List String} {content : String} :
    (q, content) ∈ filesOfAll children ↔
      ∃ name node r, (name, node) ∈ children ∧ q = name :: r ∧ (r, content) ∈ filesOf node := by
  induction children with
  | nil => simp [filesOfAll]
  | cons e children ih =>
    obtain ⟨name, node⟩ := e
    rw [filesOfAll, mem_append, ih, mem_map]
    constructor
    · rintro (⟨⟨r, c⟩, hr, heq⟩ | ⟨name', node', r, hmem, rfl, hr⟩)
      · cases heq
        exact ⟨name, node, r, mem_cons_self .., rfl, hr⟩
      · exact ⟨name', node', r, mem_cons_of_mem _ hmem, rfl, hr⟩
    · rintro ⟨name', node', r, hmem, rfl, hr⟩
      rcases mem_cons.mp hmem with heq | hmem
      · cases heq
        exact .inl ⟨(r, content), hr, rfl⟩
      · exact .inr ⟨name', node', r, hmem, rfl, hr⟩

theorem get_of_mem (hnodup : (children.map Prod.fst).Nodup) {name : String} {node : Node}
    (h : (name, node) ∈ children) : get children name = some node := by
  induction children with
  | nil => cases h
  | cons e children ih =>
    rw [map_cons, nodup_cons] at hnodup
    rw [get_cons]
    rcases mem_cons.mp h with rfl | h
    · rw [if_pos rfl]
    · rw [if_neg, ih hnodup.2 h]
      intro heq
      exact hnodup.1 (heq ▸ mem_map_of_mem h)

theorem mem_filesOf {tree : Node} (h : tree.Sound) {q : List String} {content : String} :
    (q, content) ∈ filesOf tree ↔ ∃ mime, kindAt tree q = some (.file content mime) := by
  induction h generalizing q with
  | file =>
    cases q with
    | nil => simp [filesOf, kindAt, resolve, Node.kind, eq_comm]
    | cons name q => simp [filesOf, kindAt, resolve]
  | @dir children proto nodup proto_free sound ih =>
    rw [filesOf, mem_append, mem_filesOfAll]
    cases q with
    | nil => simp [kindAt, resolve, Node.kind]
    | cons name q =>
      cases hown : get children name with
      | some next =>
        have hname : name ≠ "__proto__" := by
          rintro rfl
          simp [proto_free] at hown
        rw [kindAt_own hown, ← ih name next hown]
        constructor
        · rintro (hproto | ⟨name', node, r, hmem, heq, hr⟩)
          · simp [Ne.symm hname] at hproto
          · cases heq
            rw [get_of_mem nodup hmem] at hown
            cases hown
            exact hr
        · intro hq
          exact .inr ⟨name, next, q, mem_of_get hown, rfl, hq⟩
      | none =>
        rw [kindAt_inherited hown]
        constructor
        · rintro (hproto | ⟨name', node, r, hmem, heq, hr⟩)
          · cases proto with
            | none => simp at hproto
            | some p =>
              simp only [Option.toList_some, map_cons, map_nil,
                mem_singleton, Prod.mk.injEq, cons.injEq] at hproto
              obtain ⟨⟨rfl, rfl⟩, rfl⟩ := hproto
              exact ⟨p.2, by simp⟩
          · cases heq
            rw [get_of_mem nodup hmem] at hown
            cases hown
        · rintro ⟨mime, hkind⟩
          split at hkind
          case isTrue hq =>
            obtain ⟨rfl, rfl⟩ := hq
            obtain ⟨p, rfl, hp⟩ := Option.map_eq_some_iff.mp hkind
            cases hp
            exact .inl (by simp)
          case isFalse => cases hkind

theorem nodup_filesOfAll (hnodup : (children.map Prod.fst).Nodup)
    (h : ∀ e ∈ children, (filesOf e.2).Nodup) : (filesOfAll children).Nodup := by
  induction children with
  | nil => exact nodup_nil
  | cons e children ih =>
    obtain ⟨name, node⟩ := e
    rw [map_cons, nodup_cons] at hnodup
    rw [forall_mem_cons] at h
    rw [filesOfAll, nodup_append]
    refine ⟨h.1.map ?_, ih hnodup.2 h.2, ?_⟩
    · rintro ⟨q, c⟩ ⟨q', c'⟩ heq
      cases heq
      rfl
    · rintro ⟨q, c⟩ hq ⟨q', c'⟩ hq' heq
      cases heq
      obtain ⟨⟨r, c'⟩, -, hr⟩ := mem_map.mp hq
      cases hr
      obtain ⟨name', node', r', hmem, heq, -⟩ := mem_filesOfAll.mp hq'
      cases heq
      exact hnodup.1 (mem_map.mpr ⟨_, hmem, rfl⟩)

theorem nodup_filesOf {tree : Node} (h : tree.Sound) : (filesOf tree).Nodup := by
  induction h with
  | file => exact nodup_singleton _
  | @dir children proto nodup proto_free sound ih =>
    rw [filesOf, nodup_append]
    refine ⟨?_, nodup_filesOfAll nodup (fun e he => ?_), ?_⟩
    · cases proto with
      | none => exact nodup_nil
      | some p => exact nodup_singleton _
    · exact ih e.1 e.2 (get_of_mem nodup he)
    · rintro ⟨q, c⟩ hq ⟨q', c'⟩ hq' heq
      cases heq
      obtain ⟨name, node, r, hmem, rfl, -⟩ := mem_filesOfAll.mp hq'
      obtain ⟨p, -, hp⟩ := mem_map.mp hq
      cases hp
      rw [get_of_mem nodup hmem] at proto_free
      cases proto_free

/-- Every file of `t` is, with its content, at the place `f` gives it in `t'`; no two are at
the same place, and there are no others. -/
structure Carried (f : List String → List String) (t t' : Node) : Prop where
  kept : ∀ p content mime, kindAt t p = some (.file content mime) →
    ∃ mime', kindAt t' (f p) = some (.file content mime')
  only : ∀ q content mime, kindAt t' q = some (.file content mime) →
    ∃ p mime', f p = q ∧ kindAt t p = some (.file content mime')
  once : ∀ p q content mime content' mime', kindAt t p = some (.file content mime) →
    kindAt t q = some (.file content' mime') → f p = f q → p = q

theorem Carried.refl (t : Node) : Carried id t t where
  kept _ _ mime h := ⟨mime, h⟩
  only q _ mime h := ⟨q, mime, rfl, h⟩
  once _ _ _ _ _ _ _ _ h := h

theorem Carried.perm {f : List String → List String} {t t' : Node} (h : Carried f t t')
    (ht : t.Sound) (ht' : t'.Sound) : (contents t').Perm (contents t) := by
  have hfiles : (filesOf t').Perm ((filesOf t).map fun e => (f e.1, e.2)) := by
    refine (perm_ext_iff_of_nodup (nodup_filesOf ht') ?_).mpr ?_
    · refine (nodup_filesOf ht).map_on ?_
      rintro ⟨p, c⟩ hp ⟨q, c'⟩ hq heq
      obtain ⟨mime, hp⟩ := (mem_filesOf ht).mp hp
      obtain ⟨mime', hq⟩ := (mem_filesOf ht).mp hq
      obtain ⟨hpath, rfl⟩ := Prod.mk.inj heq
      rw [h.once p q _ _ _ _ hp hq hpath]
    · rintro ⟨q, c⟩
      rw [mem_filesOf ht', mem_map]
      constructor
      · rintro ⟨mime, hq⟩
        obtain ⟨p, mime', rfl, hp⟩ := h.only q c mime hq
        exact ⟨(p, c), (mem_filesOf ht).mpr ⟨mime', hp⟩, rfl⟩
      · rintro ⟨⟨p, c'⟩, hp, heq⟩
        cases heq
        obtain ⟨mime, hp⟩ := (mem_filesOf ht).mp hp
        exact h.kept p c' mime hp
  have hcontents := hfiles.map Prod.snd
  rwa [map_map] at hcontents

end Bootbox.Vfs
