import Bootbox.Vfs.Contents
import Bootbox.Vfs.CopyDirectory

/-!
Moving in the File Explorer (`apps/filemanager.js`) is copying and then removing the source,
whatever the copy came to. So a move loses no file exactly when each one's copy has a place of
its own outside of the source (`Clear`).
-/

namespace Bootbox.FileExplorer

open Lib Vfs List

/-- Where a file is after what is at `S` has been moved to `D`. -/
def moved (S D q : List String) : List String :=
  if S <+: q then written (D ++ q.drop S.length) else q

/-- When what is at `S` can be moved to `D` without a loss. -/
structure Clear (t : Node) (S D : List String) : Prop where
  /-- Every file is listed, its copy is not in the source and has a directory to be in, and all
  files that the copy replaces are in the source. -/
  files : ∀ r content mime, kindAt t (S ++ r) = some (.file content mime) →
    "__proto__" ∉ r ∧ ¬ S <+: written (D ++ r) ∧ Creatable (D ++ r).dropLast t ∧
      ∀ q content' mime', written (D ++ r) <+: q → kindAt t q = some (.file content' mime') →
        S <+: q
  /-- No directory is copied to a new place inside of it. -/
  ends : kindAt t S = some .dir → S <+: D → D ≠ S → ¬ Creatable D t

section Paths

variable {S D q r : List String}

theorem moved_append (S D r : List String) : moved S D (S ++ r) = written (D ++ r) := by
  rw [moved, if_pos (prefix_append S r), drop_left]

theorem moved_of_not (h : ¬ S <+: q) : moved S D q = q := if_neg h

theorem written_append (hr : r ≠ []) : written (D ++ r) = D ++ r := written_eq (by simp [hr])

end Paths

section Move

variable {t t' : Node} {src dest : String}

theorem kindAt_removed (ht : Tidy t) (hsrc : parts src ≠ [])
    (hname : lastName (parts src) ≠ "__proto__") (q : List String) :
    kindAt (remove t src).tree q = if parts src <+: q then none else kindAt t q := by
  rw [kindAt_remove ht.rooted.sound, written_eq hsrc]
  simp [hname]

/-- Nothing is in the way of a copy that loses nothing. -/
theorem unhindered_of_clear
    (hlen : parts dest <+: parts src → (parts src).length ≤ (parts dest).length + 1)
    (hdir : kindAt t (parts src) = some .dir) (hclear : Clear t (parts src) (parts dest)) :
    Unhindered t (parts src) (parts dest) := by
  have hne : ∀ r content mime, kindAt t (parts src ++ r) = some (.file content mime) → r ≠ [] := by
    rintro r content mime hr rfl
    rw [append_nil, hdir] at hr
    cases hr
  have hapart : ∀ r content mime, kindAt t (parts src ++ r) = some (.file content mime) →
      Apart (parts src) (parts dest ++ r) := by
    intro r content mime hr
    have houtside := (hclear.files r content mime hr).2.1
    rw [written_append (hne r content mime hr)] at houtside
    refine ⟨houtside, fun hpre => houtside ?_⟩
    -- the copy is not higher than the source
    have hr' := length_pos_of_ne_nil (hne r content mime hr)
    have hshort := hlen ((prefix_append _ r).trans hpre)
    rw [hpre.eq_of_length_le (by rw [length_append]; omega)]
  refine ⟨hdir, fun r content mime hr => (hclear.files r content mime hr).1,
    fun r content mime hr => (hclear.files r content mime hr).2.2.1, hapart, ?_, ?_⟩
  · intro r content mime hr q content' mime' hpre hq
    have hunder := (hclear.files r content mime hr).2.2.2 q content' mime'
    rw [written_append (hne r content mime hr)] at hunder
    exact apart_of_comparable (hapart r content mime hr) (hunder hpre hq) hpre
  · intro hpre
    by_cases heq : parts dest = parts src
    · exact .inl heq
    · exact .inr (hclear.ends hdir hpre heq)

section Source

variable (ht : Tidy t) (hsrc : parts src ≠ []) (hname : lastName (parts src) ≠ "__proto__")

include ht hsrc hname

theorem carried_of_clear_file {content mime : String}
    (hfile : kindAt t (parts src) = some (.file content mime))
    (hclear : Clear t (parts src) (parts dest)) :
    ∃ fuel t', copyRec fuel t src dest = some t' ∧
      Carried (moved (parts src) (parts dest)) t (remove t' src).tree := by
  obtain ⟨-, houtside, hcreate, hfree⟩ :=
    hclear.files [] content mime (by rw [append_nil, hfile])
  rw [append_nil] at houtside hcreate hfree
  have hmoved : moved (parts src) (parts dest) (parts src) = written (parts dest) := by
    have := moved_append (parts src) (parts dest) []
    rwa [append_nil, append_nil] at this
  -- a file under the source is the source
  have hsource : ∀ q content' mime', parts src <+: q → kindAt t q = some (.file content' mime') →
      q = parts src := by
    rintro q content' mime' ⟨r, rfl⟩ hq
    by_contra hne
    have hr : r ≠ [] := by
      rintro rfl
      exact hne (append_nil _)
    rw [kindAt_append_file hfile hr] at hq
    cases hq
  refine ⟨1, _, copyRec_file hfile, ?_⟩
  have hkind := fun q => (kindAt_removed (ht.write dest content "text/plain") hsrc hname q).trans
    (congrArg (fun k => if parts src <+: q then none else k)
      (kindAt_write t dest content "text/plain" q))
  simp only [hcreate, true_and] at hkind
  have hstays : ∀ q content' mime', ¬ parts src <+: q →
      kindAt t q = some (.file content' mime') →
      kindAt (remove (write t dest content "text/plain").tree src).tree q
        = some (.file content' mime') := by
    intro q content' mime' hq hq'
    rw [hkind, if_neg hq, if_neg (fun hpre => hq (hfree q content' mime' hpre hq')),
      if_neg (fun hmade => not_creatable_of_file hq' hmade.2), hq']
  refine ⟨fun p content' mime' hp => ?_, fun q content' mime' hq => ?_,
    fun p q c m c' m' hp hq heq => ?_⟩
  · by_cases hpre : parts src <+: p
    · obtain rfl := hsource p content' mime' hpre hp
      rw [hfile] at hp
      cases hp
      rw [hmoved, hkind, if_neg houtside, if_pos prefix_rfl, if_pos rfl]
      exact ⟨_, rfl⟩
    · rw [moved_of_not hpre]
      exact ⟨mime', hstays p content' mime' hpre hp⟩
  · rw [kindAt_removed (ht.write ..) hsrc hname] at hq
    split at hq
    case isTrue => cases hq
    case isFalse hpre =>
      rcases write_inv hq with ⟨heq, hk⟩ | ⟨-, -, hk⟩ | hold
      · cases hk
        exact ⟨parts src, mime, hmoved.trans heq.symm, hfile⟩
      · cases hk
      · exact ⟨q, mime', moved_of_not hpre, hold⟩
  · have hother : ∀ q content' mime', ¬ parts src <+: q →
        kindAt t q = some (.file content' mime') → q ≠ written (parts dest) := by
      rintro q content' mime' hpre hq' rfl
      exact hpre (hfree _ content' mime' prefix_rfl hq')
    by_cases hp' : parts src <+: p <;> by_cases hq' : parts src <+: q
    · rw [hsource p c m hp' hp, hsource q c' m' hq' hq]
    · obtain rfl := hsource p c m hp' hp
      rw [hmoved, moved_of_not hq'] at heq
      exact absurd heq.symm (hother q c' m' hq' hq)
    · obtain rfl := hsource q c' m' hq' hq
      rw [hmoved, moved_of_not hp'] at heq
      exact absurd heq (hother p c m hp' hp)
    · rwa [moved_of_not hp', moved_of_not hq'] at heq

theorem carried_of_unhindered (hun : Unhindered t (parts src) (parts dest)) :
    ∃ fuel t', copyRec fuel t src dest = some t' ∧
      Carried (moved (parts src) (parts dest)) t (remove t' src).tree := by
  obtain ⟨fuel, n, t', hrun, hcopying, -, hcover⟩ := copyRec_of_unhindered ht hun
  have hne : ∀ r content mime, kindAt t (parts src ++ r) = some (.file content mime) → r ≠ [] := by
    rintro r content mime hr rfl
    rw [append_nil, hun.isDir] at hr
    cases hr
  refine ⟨fuel, t', hrun, ?_⟩
  have hkind := kindAt_removed hcopying.tidy hsrc hname
  -- a file outside of the source is not where a file of the source goes to
  have hother : ∀ r content mime q content' mime',
      kindAt t (parts src ++ r) = some (.file content mime) →
      kindAt t q = some (.file content' mime') → q ≠ written (parts dest ++ r) := by
    rintro r content mime q content' mime' hr hq rfl
    rw [written_append (hne r content mime hr)] at hq
    exact hun.free r content mime hr _ content' mime' prefix_rfl hq
  refine ⟨fun p content mime hp => ?_, fun q content mime hq => ?_,
    fun p q c m c' m' hp hq heq => ?_⟩
  · by_cases hpre : parts src <+: p
    · obtain ⟨r, rfl⟩ := hpre
      rw [moved_append, written_append (hne r content mime hp), hkind,
        if_neg (hun.apart r content mime hp).1]
      exact ⟨_, (hcover r (hun.listed r content mime hp)).1 content mime hp⟩
    · rw [moved_of_not hpre, hkind, if_neg hpre]
      exact ⟨mime, hcopying.kept p content mime hp⟩
  · rw [hkind] at hq
    split at hq
    case isTrue => cases hq
    case isFalse hpre =>
      rcases hcopying.files q content mime hq with hold | ⟨-, r, mime', rfl, hr⟩
      · exact ⟨q, mime, moved_of_not hpre, hold⟩
      · refine ⟨parts src ++ r, mime', ?_, hr⟩
        rw [moved_append, written_append (hne r content mime' hr)]
  · by_cases hp' : parts src <+: p <;> by_cases hq' : parts src <+: q
    · obtain ⟨r, rfl⟩ := hp'
      obtain ⟨r', rfl⟩ := hq'
      rw [moved_append, moved_append, written_append (hne r c m hp),
        written_append (hne r' c' m' hq)] at heq
      rw [append_cancel_left heq]
    · obtain ⟨r, rfl⟩ := hp'
      rw [moved_append, moved_of_not hq'] at heq
      exact absurd heq.symm (hother r c m q c' m' hp hq)
    · obtain ⟨r, rfl⟩ := hq'
      rw [moved_append, moved_of_not hp'] at heq
      exact absurd heq (hother r c' m' p c m hq hp)
    · rwa [moved_of_not hp', moved_of_not hq'] at heq

theorem clear_of_carried {fuel : ℕ} (hrun : copyRec fuel t src dest = some t')
    (hcarried : Carried (moved (parts src) (parts dest)) t (remove t' src).tree) :
    Clear t (parts src) (parts dest) := by
  have hkind := kindAt_removed (tidy_copyRec ht hrun) hsrc hname
  -- the copy of a file is outside of the source
  have hcopy : ∀ r content mime, kindAt t (parts src ++ r) = some (.file content mime) →
      ¬ parts src <+: written (parts dest ++ r) ∧
        ∃ mime', kindAt t' (written (parts dest ++ r)) = some (.file content mime') := by
    intro r content mime hr
    obtain ⟨mime', hr'⟩ := hcarried.kept _ content mime hr
    rw [moved_append, hkind] at hr'
    split at hr'
    case isTrue => cases hr'
    case isFalse hpre => exact ⟨hpre, mime', hr'⟩
  -- and no other file is there
  have hother : ∀ r content mime q content' mime',
      kindAt t (parts src ++ r) = some (.file content mime) →
      written (parts dest ++ r) <+: q → kindAt t q = some (.file content' mime') →
      parts src <+: q := by
    rintro r content mime q content' mime' hr ⟨s, rfl⟩ hq
    by_contra hpre
    obtain ⟨m₁, h₁⟩ := hcarried.kept _ content mime hr
    obtain ⟨m₂, h₂⟩ := hcarried.kept _ content' mime' hq
    rw [moved_append] at h₁
    rw [moved_of_not hpre] at h₂
    have hs : s = [] := by
      by_contra hs
      rw [kindAt_append_file h₁ hs] at h₂
      cases h₂
    subst hs
    rw [append_nil] at hq hpre
    have heq := hcarried.once _ _ _ _ _ _ hr hq (by rw [moved_append, moved_of_not hpre])
    exact hpre (heq ▸ prefix_append _ _)
  refine ⟨fun r content mime hr => ?_, fun hdir hpre hne hcreate => ?_⟩
  · obtain ⟨houtside, mime', hfile⟩ := hcopy r content mime hr
    refine ⟨fun hproto => ?_, houtside, ?_, fun q content' mime' => hother r content mime q _ _ hr⟩
    · have hr' : r ≠ [] := by
        rintro rfl
        cases hproto
      rcases file_of_copyRec ht hrun hfile with hold | ⟨-, r', heq, hproto'⟩
      · exact houtside (hother r content mime _ _ _ hr prefix_rfl hold)
      · rw [written_append hr'] at heq
        by_cases hr'' : parts dest ++ r' = []
        · rw [hr''] at heq
          have hmem : "__proto__" ∈ parts dest ++ r := mem_append_right _ hproto
          rw [heq] at hmem
          revert hmem
          decide
        · rw [written_eq hr''] at heq
          exact hproto' (append_cancel_left heq ▸ hproto)
    · -- the directory of the copy is there after the copy, so it could be had before
      have hparent : kindAt t' (parts dest ++ r).dropLast = some .dir := by
        refine kindAt_eq_dir_of_append (q := [lastName (parts dest ++ r)]) (by simp) ?_
        have hfile' := hfile
        rw [written] at hfile'
        rw [hfile']
        simp
      by_cases hdir : kindAt t (parts src) = some .dir
      · exact creatable_of_copyRec_dir hdir ht hrun (creatable_of_dir hparent)
      · have hr' : r = [] := by
          by_contra hr'
          exact hdir (kindAt_eq_dir_of_append hr' (by simp [hr]))
        subst hr'
        cases fuel with
        | zero => cases hrun
        | succ fuel =>
          rw [copyRec_not_dir hdir] at hrun
          cases hrun
          rw [append_nil] at hparent ⊢
          rcases write_inv hparent with ⟨-, hk⟩ | ⟨-, hcreate, -⟩ | hold
          · cases hk
          · exact hcreate
          · exact creatable_of_dir hold
  · have hfree : NoFiles t (parts src) := by
      intro r content mime hr
      obtain ⟨houtside, -⟩ := hcopy r content mime hr
      apply houtside
      obtain ⟨e, he⟩ := hpre
      have hdest : parts dest ++ r ≠ [] := by
        rw [← he]
        simp [hsrc]
      rw [written_eq hdest, ← he, append_assoc]
      exact prefix_append _ _
    obtain ⟨e, he⟩ := hpre
    have he' : e ≠ [] := by
      rintro rfl
      exact hne (by rw [← he, append_nil])
    have hnone : copyRec fuel t src dest = none :=
      copyRec_eq_none he' fuel ht hfree (u := []) (append_nil _).symm
        (by rw [append_nil, he]) nil_prefix (by rw [append_nil, hdir])
        (by rwa [append_nil, he])
    rw [hnone] at hrun
    cases hrun

end Source

end Move

end Bootbox.FileExplorer
