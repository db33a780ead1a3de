import Bootbox.Vfs.CopyRec

/-!
The recursive copy of a directory, when no copy of a file gets in the way of the source or of
another file. The target may be a directory that is there already, and may overlap with the
source.

The copy of the directory at `S` to `D` reads each file where the tree had it before the copy
started, although new directories can appear below `S` meanwhile. `Copying` is the invariant;
`Cover` says which part of the work is done.
-/

namespace Bootbox.FileExplorer

open Lib Vfs List OrderedMap

variable {r u : List String} {dest src : String}

/-- When a directory at `S` can be copied to `D`. -/
structure Unhindered (t₀ : Node) (S D : List String) : Prop where
  isDir : kindAt t₀ S = some .dir
  /-- Every file is listed. -/
  listed : ∀ r content mime, kindAt t₀ (S ++ r) = some (.file content mime) → "__proto__" ∉ r
  /-- Its copy has a directory to be in. -/
  creatable : ∀ r content mime, kindAt t₀ (S ++ r) = some (.file content mime) →
    Creatable (D ++ r).dropLast t₀
  /-- Its copy is not in the source, and the source not below it. -/
  apart : ∀ r content mime, kindAt t₀ (S ++ r) = some (.file content mime) → Apart S (D ++ r)
  /-- Its copy replaces no file. -/
  free : ∀ r content mime, kindAt t₀ (S ++ r) = some (.file content mime) →
    ∀ q content' mime', D ++ r <+: q → kindAt t₀ q ≠ some (.file content' mime')
  /-- The target is not created inside of the source. -/
  ends : S <+: D → D = S ∨ ¬ Creatable D t₀

structure Copying (t₀ : Node) (S D : List String) (h : ℕ) (t : Node) : Prop where
  tidy : Tidy t
  kept : ∀ q content mime,
    kindAt t₀ q = some (.file content mime) → kindAt t q = some (.file content mime)
  keptDirs : ∀ r, kindAt t₀ (S ++ r) = some .dir → kindAt t (S ++ r) = some .dir
  source : ∀ r content mime, kindAt t (S ++ r) = some (.file content mime) →
    kindAt t₀ (S ++ r) = some (.file content mime)
  files : ∀ q content mime, kindAt t q = some (.file content mime) →
    kindAt t₀ q = some (.file content mime) ∨
      mime = "text/plain" ∧ ∃ r mime', q = D ++ r ∧ kindAt t₀ (S ++ r) = some (.file content mime')
  dirs : ∀ q, kindAt t q = some .dir →
    kindAt t₀ q = some .dir ∨ ∃ u, q <+: D ++ u ∧ kindAt t (S ++ u) = some .dir
  creatable : ∀ u, (∀ r content mime, r <+: u → kindAt t₀ (S ++ r) ≠ some (.file content mime)) →
    Creatable (D ++ u) t₀ → Creatable (D ++ u) t
  created : ∀ q, Creatable q t → Creatable q t₀
  /-- The source has not become deeper than `h`. -/
  deep : ∀ v, kindAt t (S ++ v) ≠ none → v.length ≤ h

/-- The copy of what the source has at `u` is made. -/
def Cover (t₀ : Node) (S D : List String) (t : Node) (u : List String) : Prop :=
  (∀ content mime, kindAt t₀ (S ++ u) = some (.file content mime) →
    kindAt t (D ++ u) = some (.file content "text/plain")) ∧
  (kindAt t₀ (S ++ u) = some .dir → Creatable (D ++ u) t₀ → kindAt t (D ++ u) = some .dir)

structure Advances (t₀ : Node) (S D : List String) (t t' : Node) : Prop where
  source : ∀ r, kindAt t (S ++ r) ≠ none → kindAt t' (S ++ r) = kindAt t (S ++ r)
  cover : ∀ u, Cover t₀ S D t u → Cover t₀ S D t' u

variable {t₀ t t' : Node} {S D : List String} {h : ℕ}

theorem Advances.refl : Advances t₀ S D t t := ⟨fun _ _ => rfl, fun _ hu => hu⟩

theorem Advances.trans {t₁ t₂ t₃ : Node} (h₁ : Advances t₀ S D t₁ t₂)
    (h₂ : Advances t₀ S D t₂ t₃) : Advances t₀ S D t₁ t₃ where
  source r hr := (h₂.source r (by rwa [h₁.source r hr])).trans (h₁.source r hr)
  cover u hu := h₂.cover u (h₁.cover u hu)

theorem apart_of_comparable {p q : List String} (h : Apart p q) (hp : p <+: r) : ¬ q <+: r := by
  intro hq
  rcases prefix_or_prefix_of_prefix hp hq with hpq | hqp
  · exact h.1 hpq
  · exact h.2 hqp

theorem ne_none_of_append {q : List String} (hq : kindAt t (q ++ r) ≠ none) :
    kindAt t q ≠ none := by
  by_cases hr : r = []
  · rwa [hr, append_nil] at hq
  · rw [kindAt_eq_dir_of_append hr hq]
    simp

namespace Copying

/-- What the source had is still there. -/
theorem ne_none (ht : Copying t₀ S D h t) (hr : kindAt t₀ (S ++ r) ≠ none) :
    kindAt t (S ++ r) ≠ none := by
  cases hkind : kindAt t₀ (S ++ r) with
  | none => exact absurd hkind hr
  | some kind =>
    cases kind with
    | dir => simp [ht.keptDirs r hkind]
    | file content mime => simp [ht.kept _ _ _ hkind]

theorem length_le (hends : S <+: D → D = S ∨ ¬ Creatable D t₀) (hD : D.length ≤ h)
    (ht : Copying t₀ S D h t) {v : List String} (hu : kindAt t (S ++ u) ≠ none)
    (hv : S ++ v <+: D ++ u) (hcreate : Creatable (S ++ v) t) : v.length ≤ h := by
  have hlen := ht.deep u hu
  have hle := hv.length_le
  rw [length_append, length_append] at hle
  rcases prefix_or_prefix_of_prefix hv (prefix_append D u) with hSD | hDS
  · -- inside the path to the target
    have := hSD.length_le
    rw [length_append] at this
    omega
  · have hcreateD := ht.created D (hcreate.of_prefix hDS)
    rcases prefix_or_prefix_of_prefix (prefix_append S v) hDS with hSD | hDS
    · rcases hends hSD with rfl | hnot
      · omega
      · exact absurd hcreateD hnot
    · have := hDS.length_le
      omega

theorem mkdir (hends : S <+: D → D = S ∨ ¬ Creatable D t₀) (hD : D.length ≤ h)
    (ht : Copying t₀ S D h t) (hdest : parts dest = D ++ u) (hu : kindAt t (S ++ u) = some .dir) :
    Copying t₀ S D h (mkdir t dest).tree ∧ Advances t₀ S D t (Vfs.mkdir t dest).tree := by
  have hsame : ∀ q, kindAt t q ≠ none → kindAt (Vfs.mkdir t dest).tree q = kindAt t q :=
    fun q => kindAt_createDirs_of_some
  have hfile : ∀ q content mime, kindAt (Vfs.mkdir t dest).tree q = some (.file content mime) →
      kindAt t q = some (.file content mime) := (Grown.mkdir ht.tidy dest).files
  refine ⟨⟨ht.tidy.mkdir dest, ?_, ?_, ?_, ?_, ?_, ?_, ?_, ?_⟩, ⟨?_, ?_⟩⟩
  · intro q content mime hq
    have hq' := ht.kept q content mime hq
    rw [hsame q (by simp [hq']), hq']
  · intro r hr
    exact (Grown.mkdir ht.tidy dest).dirs _ (ht.keptDirs r hr)
  · intro r content mime hr
    exact ht.source r content mime (hfile _ _ _ hr)
  · intro q content mime hq
    exact ht.files q content mime (hfile _ _ _ hq)
  · intro q hq
    rw [kindAt_mkdir] at hq
    split at hq
    case isTrue hmade =>
      exact .inr ⟨u, hdest ▸ hmade.1, (Grown.mkdir ht.tidy dest).dirs _ hu⟩
    case isFalse =>
      refine (ht.dirs q hq).imp_right fun ⟨u', hq', hu'⟩ => ⟨u', hq', ?_⟩
      exact (Grown.mkdir ht.tidy dest).dirs _ hu'
  · intro u' hfree hcreate
    exact (creatable_mkdir t dest _).mpr (ht.creatable u' hfree hcreate)
  · intro q hq
    exact ht.created q ((creatable_mkdir t dest q).mp hq)
  · intro v hv
    rw [kindAt_mkdir] at hv
    split at hv
    case isTrue hmade => exact ht.length_le hends hD (by simp [hu]) (hdest ▸ hmade.1) hmade.2
    case isFalse => exact ht.deep v hv
  · intro r hr
    exact hsame _ hr
  · rintro u' ⟨hfiles, hdirs⟩
    refine ⟨fun content mime hu' => ?_, fun hu' hcreate => ?_⟩
    · have hdone := hfiles content mime hu'
      rw [hsame _ (by simp [hdone]), hdone]
    · have hdone := hdirs hu' hcreate
      rw [hsame _ (by simp [hdone]), hdone]

section Write

variable (hun : Unhindered t₀ S D) (ht : Copying t₀ S D h t) {u : List String} {dest : String}
  (hdest : parts dest = D ++ u) {content mime : String}
  (hu : kindAt t (S ++ u) = some (.file content mime))

include hun ht hu

theorem ne_nil_of_file : u ≠ [] := by
  rintro rfl
  have hu₀ := ht.source [] content mime hu
  rw [append_nil, hun.isDir] at hu₀
  cases hu₀

theorem creatable_parent : Creatable (D ++ u.dropLast) t := by
  have hne := ht.ne_nil_of_file hun hu
  have hu₀ := ht.source u content mime hu
  have hcreate := hun.creatable u content mime hu₀
  rw [dropLast_append_of_ne_nil hne] at hcreate
  refine ht.creatable _ (fun r content' mime' hr hfile => ?_) hcreate
  -- there is nothing below a file, but `u` is
  obtain ⟨r', hr'⟩ := hr.trans ( dropLast_prefix u)
  have hr'' : r' ≠ [] := by
    rintro rfl
    have hlen := hr.length_le
    rw [append_nil] at hr'
    rw [hr', length_dropLast] at hlen
    have := length_pos_of_ne_nil hne
    omega
  have hbelow := kindAt_append_file hfile hr''
  rw [append_assoc, hr', hu₀] at hbelow
  cases hbelow

include hdest

theorem kindAt_write_copy (q : List String) :
    kindAt (write t dest content "text/plain").tree q =
      if D ++ u <+: q then if q = D ++ u then some (.file content "text/plain") else none
      else if q <+: D ++ u.dropLast ∧ Creatable q t then some .dir else kindAt t q := by
  have hne := ht.ne_nil_of_file hun hu
  have hparent := ht.creatable_parent hun hu
  have hdrop : (D ++ u).dropLast = D ++ u.dropLast := dropLast_append_of_ne_nil hne
  have hwritten : written (D ++ u) = D ++ u := written_eq (by simp [hne])
  rw [kindAt_write]
  simp only [hdest, hdrop, hparent, true_and, hwritten]

theorem creatable_write_copy (q : List String) :
    Creatable q (write t dest content "text/plain").tree ↔ Creatable q t ∧ ¬ D ++ u <+: q := by
  have hne := ht.ne_nil_of_file hun hu
  have hparent := ht.creatable_parent hun hu
  have hdrop : (D ++ u).dropLast = D ++ u.dropLast := dropLast_append_of_ne_nil hne
  have hwritten : written (D ++ u) = D ++ u := written_eq (by simp [hne])
  have hlast : lastName (parts dest) ≠ "__proto__" := by
    intro hlast
    have hmem := getLast_mem hne
    rw [hdest, lastName, getLast?_append, getLast?_eq_some_getLast hne] at hlast
    exact hun.listed u content mime (ht.source u content mime hu) (hlast ▸ hmem)
  rw [creatable_write t content "text/plain" hlast]
  simp only [hdest, hdrop, hparent, true_and, hwritten]

theorem write (hD : D.length ≤ h) :
    Copying t₀ S D h (write t dest content "text/plain").tree ∧
      Advances t₀ S D t (Vfs.write t dest content "text/plain").tree := by
  have hu₀ := ht.source u content mime hu
  have hkind := ht.kindAt_write_copy hun hdest hu
  have hsource : ∀ r, ¬ D ++ u <+: S ++ r := fun r =>
    apart_of_comparable (hun.apart u content mime hu₀) (prefix_append S r)
  have hsame : ∀ q, ¬ D ++ u <+: q → kindAt t q ≠ none →
      kindAt (Vfs.write t dest content "text/plain").tree q = kindAt t q := by
    intro q hq hne
    rw [hkind, if_neg hq]
    split
    case isTrue hmade => exact (dir_of_creatable hmade.2 hne).symm
    case isFalse => rfl
  have hne := ht.ne_nil_of_file hun hu
  have hparent : kindAt t (S ++ u.dropLast) = some .dir := by
    refine kindAt_eq_dir_of_append (q := [u.getLast hne]) (by simp) ?_
    rw [append_assoc, dropLast_append_getLast, hu]
    simp
  have hdir : ∀ r, kindAt t (S ++ r) = some .dir →
      kindAt (Vfs.write t dest content "text/plain").tree (S ++ r) = some .dir := by
    intro r hr
    rw [hsame _ (hsource r) (by simp [hr]), hr]
  have hwritten : written (parts dest) = D ++ u := by rw [hdest, written_eq (by simp [hne])]
  refine ⟨⟨ht.tidy.write _ _ _, ?_, ?_, ?_, ?_, ?_, ?_, ?_, ?_⟩, ⟨?_, ?_⟩⟩
  · intro q content' mime' hq
    have hq' := ht.kept q content' mime' hq
    have hpre : ¬ D ++ u <+: q := fun hpre => hun.free u content mime hu₀ q content' mime' hpre hq
    rw [hsame q hpre (by simp [hq']), hq']
  · intro r hr
    exact hdir r (ht.keptDirs r hr)
  · intro r content' mime' hr
    rcases write_inv hr with ⟨heq, -⟩ | ⟨-, -, hk⟩ | hold
    · exact absurd (heq.trans hwritten ▸ prefix_rfl) (hsource r)
    · cases hk
    · exact ht.source r content' mime' hold
  · intro q content' mime' hq
    rcases write_inv hq with ⟨heq, hk⟩ | ⟨-, -, hk⟩ | hold
    · cases hk
      exact .inr ⟨rfl, u, mime, heq.trans hwritten, hu₀⟩
    · cases hk
    · exact ht.files q content' mime' hold
  · intro q hq
    rcases write_inv hq with ⟨-, hk⟩ | ⟨hpre, -⟩ | hold
    · cases hk
    · rw [hdest, dropLast_append_of_ne_nil hne] at hpre
      exact .inr ⟨u.dropLast, hpre, hdir _ hparent⟩
    · exact (ht.dirs q hold).imp_right fun ⟨u', hq', hu'⟩ => ⟨u', hq', hdir u' hu'⟩
  · intro u' hfree hcreate
    refine (ht.creatable_write_copy hun hdest hu _).mpr
      ⟨ht.creatable u' hfree hcreate, fun hpre => ?_⟩
    exact hfree u content mime ((prefix_append_right_inj D).mp hpre) hu₀
  · intro q hq
    exact ht.created q ((ht.creatable_write_copy hun hdest hu q).mp hq).1
  · intro v hv
    rw [hkind, if_neg (hsource v)] at hv
    split at hv
    case isTrue hmade =>
      exact ht.length_le hun.ends hD (by simp [hparent]) hmade.1 hmade.2
    case isFalse => exact ht.deep v hv
  · intro r hr
    exact hsame _ (hsource r) hr
  · rintro u' ⟨hfiles, hdirs⟩
    -- no file of the source is above another file or a directory of it
    have hbelow : D ++ u <+: D ++ u' → kindAt t₀ (S ++ u') ≠ none → u' = u := by
      intro hpre hne
      obtain ⟨r, rfl⟩ := (prefix_append_right_inj D).mp hpre
      by_contra hr
      have hr' : r ≠ [] := by
        rintro rfl
        exact hr (append_nil u)
      rw [← append_assoc] at hne
      exact hne (kindAt_append_file hu₀ hr')
    refine ⟨fun content' mime' hu' => ?_, fun hu' hcreate => ?_⟩
    · by_cases hpre : D ++ u <+: D ++ u'
      · obtain rfl := hbelow hpre (by simp [hu'])
        rw [hu₀] at hu'
        cases hu'
        rw [hkind, if_pos hpre, if_pos rfl]
      · have hdone := hfiles content' mime' hu'
        rw [hsame _ hpre (by simp [hdone]), hdone]
    · by_cases hpre : D ++ u <+: D ++ u'
      · obtain rfl := hbelow hpre (by simp [hu'])
        rw [hu₀] at hu'
        cases hu'
      · have hdone := hdirs hu' hcreate
        rw [hsame _ hpre (by simp [hdone]), hdone]

end Write

end Copying

/-! ### The whole copy -/

/-- Where the source had nothing, there is nothing to do. -/
theorem cover_of_none (hu : kindAt t₀ (S ++ u) = none) : Cover t₀ S D t u := by
  refine ⟨fun content mime hfile => ?_, fun hdir => ?_⟩
  · rw [hu] at hfile
    cases hfile
  · rw [hu] at hdir
    cases hdir

theorem exists_copyAll {fuel : ℕ} {names : List String}
    (hcopy : ∀ name ∈ names, ∀ t, Copying t₀ S D h t → kindAt t (S ++ (u ++ [name])) ≠ none →
      ∃ t', copyRec fuel t (here src name) (dest ++ "/" ++ name) = some t' ∧ Copying t₀ S D h t' ∧
        Advances t₀ S D t t' ∧ ∀ r, "__proto__" ∉ r → Cover t₀ S D t' (u ++ [name] ++ r))
    (ht : Copying t₀ S D h t) (hnames : ∀ name ∈ names, kindAt t (S ++ (u ++ [name])) ≠ none) :
    ∃ t', copyAll fuel src dest names t = some t' ∧ Copying t₀ S D h t' ∧ Advances t₀ S D t t' ∧
      ∀ name ∈ names, ∀ r, "__proto__" ∉ r → Cover t₀ S D t' (u ++ [name] ++ r) := by
  induction names generalizing t with
  | nil => exact ⟨t, rfl, ht, .refl, by simp⟩
  | cons name names ih =>
    rw [forall_mem_cons] at hnames
    obtain ⟨t₁, hrun₁, ht₁, hadv₁, hcover₁⟩ :=
      hcopy name (mem_cons_self ..) t ht hnames.1
    obtain ⟨t₂, hrun₂, ht₂, hadv₂, hcover₂⟩ :=
      ih (fun n hn => hcopy n (mem_cons_of_mem name hn)) ht₁
        (fun n hn => by rw [hadv₁.source _ (hnames.2 n hn)]; exact hnames.2 n hn)
    refine ⟨t₂, ?_, ht₂, hadv₁.trans hadv₂, ?_⟩
    · rw [copyAll_cons, hrun₁, Option.bind_some, hrun₂]
    · rw [forall_mem_cons]
      exact ⟨fun r hr => hadv₂.cover _ (hcover₁ r hr), hcover₂⟩

theorem exists_copyRec (hun : Unhindered t₀ S D) (hD : D.length ≤ h) {fuel : ℕ}
    (ht : Copying t₀ S D h t) (hu : kindAt t (S ++ u) ≠ none) (hsrc : parts src = S ++ u)
    (hdest : parts dest = D ++ u) (hfuel : h < fuel + u.length) :
    ∃ t', copyRec fuel t src dest = some t' ∧ Copying t₀ S D h t' ∧ Advances t₀ S D t t' ∧
      ∀ r, "__proto__" ∉ r → Cover t₀ S D t' (u ++ r) := by
  induction fuel generalizing t u src dest with
  | zero =>
    have hlen := ht.deep u hu
    omega
  | succ fuel ih =>
    cases hkind : kindAt t (S ++ u) with
    | none => exact absurd hkind hu
    | some kind =>
      cases kind with
      | file content mime =>
        rw [copyRec_file (hsrc ▸ hkind)]
        obtain ⟨hcopying, hadv⟩ := ht.write hun hdest hkind hD
        refine ⟨_, rfl, hcopying, hadv, fun r _ => ?_⟩
        have hu₀ := ht.source u content mime hkind
        by_cases hr : r = []
        · rw [hr, append_nil]
          refine ⟨fun content' mime' hfile => ?_, fun hdir => ?_⟩
          · rw [hu₀] at hfile
            cases hfile
            rw [ht.kindAt_write_copy hun hdest hkind, if_pos prefix_rfl, if_pos rfl]
          · rw [hu₀] at hdir
            cases hdir
        · have hnone := kindAt_append_file hu₀ hr
          rw [append_assoc] at hnone
          exact cover_of_none hnone
      | dir =>
        rw [copyRec_dir (hsrc ▸ hkind)]
        obtain ⟨hmade, hadv⟩ := ht.mkdir hun.ends hD hdest hkind
        have hchild : ∀ name, parts src ++ [name] = S ++ (u ++ [name]) := by
          intro name
          rw [hsrc, append_assoc]
        have hcopy : ∀ name ∈ (list (mkdir t dest).tree src).map Entry.name, ∀ t₁,
            Copying t₀ S D h t₁ → kindAt t₁ (S ++ (u ++ [name])) ≠ none →
            ∃ t', copyRec fuel t₁ (here src name) (dest ++ "/" ++ name) = some t' ∧
              Copying t₀ S D h t' ∧ Advances t₀ S D t₁ t' ∧
              ∀ r, "__proto__" ∉ r → Cover t₀ S D t' (u ++ [name] ++ r) := by
          intro name hname t₁ ht₁ hkind₁
          obtain ⟨-, hparts, -⟩ := listed hmade.tidy hname
          refine ih ht₁ hkind₁ ?_ ?_ ?_
          · rw [parts_here, hparts, hchild]
          · rw [parts_append, hparts, hdest, append_assoc]
          · rw [length_append, length_singleton]
            omega
        have hnames : ∀ name ∈ (list (mkdir t dest).tree src).map Entry.name,
            kindAt (mkdir t dest).tree (S ++ (u ++ [name])) ≠ none := by
          intro name hname
          rw [← hchild]
          exact (listed hmade.tidy hname).2.2
        obtain ⟨t', hrun, ht', hadv', hcover⟩ := exists_copyAll hcopy hmade hnames
        refine ⟨t', hrun, ht', hadv.trans hadv', fun r hr => ?_⟩
        cases r with
        | nil =>
          rw [append_nil]
          refine hadv'.cover u ⟨fun content mime hfile => ?_, fun hdir hcreate => ?_⟩
          · have hfile' := ht.kept _ _ _ hfile
            rw [hkind] at hfile'
            cases hfile'
          · have hcreate' := ht.creatable u (fun r content mime hr hfile => ?_) hcreate
            · rw [kindAt_mkdir, if_pos ⟨hdest ▸ prefix_rfl, hcreate'⟩]
            · -- no file is above a directory
              have hpre : S ++ r <+: S ++ u := (prefix_append_right_inj S).mpr hr
              have hdir' := kindAt_eq_dir_above hpre hdir
              rw [hfile] at hdir'
              cases hdir'
        | cons name r =>
          rw [mem_cons, not_or] at hr
          by_cases hnone : kindAt t₀ (S ++ (u ++ name :: r)) = none
          · exact cover_of_none hnone
          · have hname : name ∈ (list (mkdir t dest).tree src).map Entry.name := by
              refine (mem_list hmade.tidy.rooted.sound).mpr ⟨Ne.symm hr.1, ?_⟩
              rw [hchild]
              exact hmade.ne_none (ne_none_of_append (r := r) (by simpa using hnone))
            have hdone := hcover name hname r hr.2
            rwa [append_assoc] at hdone

/-- Trees are finite. -/
theorem exists_depth {tree : Node} (h : tree.Sound) :
    ∃ n, ∀ q, kindAt tree q ≠ none → q.length ≤ n := by
  induction h with
  | file =>
    refine ⟨0, fun q hq => ?_⟩
    cases q with
    | nil => exact Nat.zero_le 0
    | cons name q => exact absurd (kindAt_cons_of_not_dir rfl name q) hq
  | @dir children proto nodup proto_free sound ih =>
    have hall : ∀ names : List String, ∃ n, ∀ name ∈ names, ∀ node,
        get children name = some node → ∀ q, kindAt node q ≠ none → q.length ≤ n := by
      intro names
      induction names with
      | nil => exact ⟨0, by simp⟩
      | cons name names ihn =>
        obtain ⟨n, hn⟩ := ihn
        cases hget : get children name with
        | none =>
          refine ⟨n, forall_mem_cons.mpr ⟨fun node hnode => ?_, hn⟩⟩
          rw [hget] at hnode
          cases hnode
        | some node =>
          obtain ⟨m, hm⟩ := ih name node hget
          refine ⟨max m n, forall_mem_cons.mpr ⟨fun node' hnode q hq => ?_, ?_⟩⟩
          · rw [hget] at hnode
            cases hnode
            exact (hm q hq).trans (le_max_left m n)
          · intro k hk node' hnode q hq
            exact (hn k hk node' hnode q hq).trans (le_max_right m n)
    obtain ⟨n, hn⟩ := hall (children.map Prod.fst)
    refine ⟨n + 1, fun q hq => ?_⟩
    cases q with
    | nil => exact Nat.zero_le _
    | cons name q =>
      cases hown : get children name with
      | some node =>
        have hname : name ∈ children.map Prod.fst := by
          rw [← isSome_get, hown]
          rfl
        rw [kindAt_own hown] at hq
        exact Nat.succ_le_succ (hn name hname node hown q hq)
      | none =>
        rw [kindAt_inherited hown] at hq
        split at hq
        case isTrue hproto => simp [hproto.2]
        case isFalse => exact absurd rfl hq

/-- The copy of a directory ends with all that it had, where nothing is in the way. -/
theorem copyRec_of_unhindered (htree : Tidy t₀) (hun : Unhindered t₀ (parts src) (parts dest)) :
    ∃ fuel n t', copyRec fuel t₀ src dest = some t' ∧
      Copying t₀ (parts src) (parts dest) n t' ∧
      Advances t₀ (parts src) (parts dest) t₀ t' ∧
      ∀ r, "__proto__" ∉ r → Cover t₀ (parts src) (parts dest) t' r := by
  obtain ⟨n, hn⟩ := exists_depth htree.rooted.sound
  have hstart : Copying t₀ (parts src) (parts dest) (max n (parts dest).length) t₀ := by
    refine ⟨htree, fun _ _ _ h => h, fun _ h => h, fun _ _ _ h => h, fun _ _ _ h => .inl h,
      fun _ h => .inl h, fun _ _ h => h, fun _ h => h, fun v hv => ?_⟩
    have hlen := hn _ hv
    rw [length_append] at hlen
    omega
  refine ⟨max n (parts dest).length + 1, max n (parts dest).length, ?_⟩
  exact exists_copyRec hun (le_max_right _ _) hstart (u := [])
    (by rw [append_nil, hun.isDir]; simp) (append_nil _).symm (append_nil _).symm
    (Nat.lt_succ_self _)

end Bootbox.FileExplorer
