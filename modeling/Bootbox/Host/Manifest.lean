import Bootbox.Host.AxmlRead
import Mathlib.Data.List.Nodup

/-!
What a manifest declares, and for which manifests the parser reports exactly that.

A manifest may lay out the attributes of its tags with room for more, may use names of
other namespaces, and may hold values as texts or as integers. A class of manifests is
given by what it allows of these (`Profile`). The parser is right on a whole class exactly
if the attributes follow each other without room, no foreign name stands where it looks
one up, no integer is negative, and texts and numbers are where they are expected
(`parse_declared_iff`).
-/

namespace Bootbox.Host.Axml

open Lib Lib.ByteRecord Lib.Unicode Lib.AxmlFormat List Option

variable {e : Element} {k : String}

/-! ### What is declared -/

def android : String := "http://schemas.android.com/apk/res/android"

def render : XValue → String
  | .text s => s
  | .int n => toString n

def attr (ns : Option String) (name : String) (x : XElement) : String :=
  ((x.attributes.find? fun a => a.ns = ns ∧ a.name = name).map fun a => render a.value).getD ""

/-- The elements of a name that belong to no other namespace. -/
def own (xs : List XElement) (tag : String) : List XElement :=
  xs.filter fun x => x.ns = none ∧ x.name = tag

/-- An attribute of the one element there may be. -/
def only (xs : List XElement) (ns : Option String) (name : String) : String :=
  (xs.head?.map (attr ns name)).getD ""

def named (xs : List XElement) : List String :=
  (xs.map (attr (some android) "name")).filter fun s => !s.isEmpty

def declared (xs : List XElement) : Result where
  package := only (own xs "manifest") none "package"
  versionName := only (own xs "manifest") (some android) "versionName"
  versionCode := only (own xs "manifest") (some android) "versionCode"
  minSdk := only (own xs "uses-sdk") (some android) "minSdkVersion"
  targetSdk := only (own xs "uses-sdk") (some android) "targetSdkVersion"
  label := only (own xs "application") (some android) "label"
  permissions := named (own xs "uses-permission")
  activities := named (own xs "activity")

structure IsManifest (D : Document) : Prop where
  manifest : (own D.elements "manifest").length = 1
  application : (own D.elements "application").length ≤ 1
  usesSdk : (own D.elements "uses-sdk").length ≤ 1

/-! ### Classes of manifests -/

inductive Kind
  | text
  | number

def asked (tag : String) : List (String × Kind) :=
  if tag = "manifest" then [("package", .text), ("versionName", .text), ("versionCode", .number)]
  else if tag = "uses-sdk" then [("minSdkVersion", .number), ("targetSdkVersion", .number)]
  else if tag = "uses-permission" then [("name", .text)]
  else if tag = "application" then [("label", .text)]
  else if tag = "activity" then [("name", .text)]
  else []

def namespaceOf (name : String) : Option String := if name = "package" then none else some android

def Negative : XValue → Prop
  | .text _ => False
  | .int n => n < 0

/-- A text where a number is expected may be the name of a release, but not empty. -/
def Mistyped : Kind → XValue → Prop
  | .text, .text _ => False
  | .text, .int _ => True
  | .number, .text s => s = ""
  | .number, .int _ => False

structure Profile where
  attributeStart : ℕ
  attributeSize : ℕ
  /-- Names of other namespaces may be those that are asked for. -/
  foreign : Prop
  /-- Integers may be negative. -/
  negative : Prop
  /-- Texts may be held as integers, numbers as empty texts. -/
  mistyped : Prop
  start_ge : 20 ≤ attributeStart
  start_lt : attributeStart < 256 ^ 2
  size_ge : 20 ≤ attributeSize
  size_lt : attributeSize < 256 ^ 2

structure Asked (D : Document) (x : XElement) (a : XAttribute) (kind : Kind) : Prop where
  element : x ∈ D.elements
  mem : a ∈ x.attributes
  asked : (a.name, kind) ∈ asked x.name

structure Profile.Has (P : Profile) (D : Document) : Prop where
  isManifest : IsManifest D
  layout : ∀ e ∈ D.tags,
    e.attributeStart = P.attributeStart ∧ e.attributeSize = P.attributeSize
  foreignTag : ¬ P.foreign → ∀ x ∈ D.elements, asked x.name ≠ [] → x.ns = none
  foreign : ¬ P.foreign → ∀ x a kind, Asked D x a kind → a.ns = namespaceOf a.name
  negative : ¬ P.negative → ∀ x a kind, Asked D x a kind → ¬ Negative a.value
  mistyped : ¬ P.mistyped → ∀ x a kind, Asked D x a kind → ¬ Mistyped kind a.value

/-! ### What the parser makes of the tags -/

section Summary

variable (p : Pool)

def tagged (es : List Element) (tag : String) : List Element :=
  es.filter fun e => p.string e.name = tag

def lastOf (es : List Element) (f : Element → String) : String := (es.getLast?.map f).getD ""

def nonempty (es : List Element) (f : Element → String) : List String :=
  (es.map f).filter fun s => !s.isEmpty

def summary (es : List Element) : Result where
  package := (nonempty (tagged p es "manifest") fun e => (attrsOf p e).s "package").head?.getD ""
  versionName := lastOf (tagged p es "manifest") fun e => (attrsOf p e).s "versionName"
  versionCode := lastOf (tagged p es "manifest") fun e => (attrsOf p e).iv "versionCode"
  minSdk := lastOf (tagged p es "uses-sdk") fun e => (attrsOf p e).iv "minSdkVersion"
  targetSdk := lastOf (tagged p es "uses-sdk") fun e => (attrsOf p e).iv "targetSdkVersion"
  label := (nonempty (tagged p es "application")
    fun e => (attrsOf p e).s "label").getLast?.getD ""
  permissions := nonempty (tagged p es "uses-permission") fun e => (attrsOf p e).s "name"
  activities := nonempty (tagged p es "activity") fun e => (attrsOf p e).s "name"

theorem tagged_append (es : List Element) (e : Element) (tag : String) :
    tagged p (es ++ [e]) tag = tagged p es tag ++ if p.string e.name = tag then [e] else [] := by
  rw [tagged, filter_append, filter_singleton]
  split <;> simp_all [tagged]

theorem lastOf_append (es : List Element) (e : Element) (f : Element → String) :
    lastOf (es ++ [e]) f = f e := by
  rw [lastOf, getLast?_concat]
  rfl

theorem nonempty_append (es : List Element) (e : Element) (f : Element → String) :
    nonempty (es ++ [e]) f = nonempty es f ++ if (f e).isEmpty then [] else [f e] := by
  rw [nonempty, map_append, filter_append]
  cases h : (f e).isEmpty <;> simp [nonempty, h]

theorem head?_append_getD (l : List String) (s : String) (hl : ∀ t ∈ l, t.isEmpty = false) :
    (l ++ if s.isEmpty then [] else [s]).head?.getD "" =
      if (l.head?.getD "").isEmpty then s else l.head?.getD "" := by
  cases l with
  | nil =>
    cases h : s.isEmpty with
    | true => simpa using (String.isEmpty_iff.mp h).symm
    | false => simp
  | cons t l => simp [hl t mem_cons_self]

theorem collect_eq_summary (es : List Element) : collect p es {} = summary p es := by
  induction es using reverseRecOn with
  | nil => rfl
  | append_singleton es e ih =>
    have hstep : collect p (es ++ [e]) {} =
        enter (p.string e.name) (attrsOf p e) (collect p es {}) := foldl_concat ..
    have hnonempty : ∀ t ∈ nonempty (tagged p es "manifest") fun e => (attrsOf p e).s "package",
        t.isEmpty = false := by
      intro t ht
      simpa using (mem_filter.mp ht).2
    rw [hstep, ih]
    by_cases h₁ : p.string e.name = "manifest"
    · have hpackage := head?_append_getD _ ((attrsOf p e).s "package") hnonempty
      simpa [enter, summary, tagged_append, h₁, lastOf_append, nonempty_append] using
        hpackage.symm
    by_cases h₂ : p.string e.name = "uses-sdk"
    · simp [enter, summary, tagged_append, h₂, lastOf_append]
    by_cases h₃ : p.string e.name = "uses-permission"
    · cases hs : ((attrsOf p e).s "name").isEmpty <;>
        simp [enter, summary, tagged_append, h₃, nonempty_append, hs]
    by_cases h₄ : p.string e.name = "application"
    · cases hs : ((attrsOf p e).s "label").isEmpty <;>
        simp [enter, summary, tagged_append, h₄, nonempty_append, hs]
    by_cases h₅ : p.string e.name = "activity"
    · cases hs : ((attrsOf p e).s "name").isEmpty <;>
        simp [enter, summary, tagged_append, h₅, nonempty_append, hs]
    · simp [enter, summary, tagged_append, h₁, h₂, h₃, h₄, h₅]

end Summary

/-! ### Attributes that are asked for -/

theorem find?_reverse {α : Type*} {q : α → Bool} {l : List α}
    (h : ∀ a ∈ l, ∀ b ∈ l, q a → q b → a = b) : l.reverse.find? q = l.find? q := by
  cases hfind : l.find? q with
  | none =>
    rw [find?_eq_none] at hfind ⊢
    exact fun a ha => hfind a (mem_reverse.mp ha)
  | some a =>
    have ha := mem_of_find?_eq_some hfind
    have hqa := find?_some hfind
    obtain ⟨b, hb⟩ := isSome_iff_exists.mp
      (find?_isSome.mpr ⟨a, mem_reverse.mpr ha, hqa⟩)
    rw [hb]
    exact congrArg some (h b (mem_reverse.mp (mem_of_find?_eq_some hb)) a ha
      (find?_some hb) hqa)

theorem lookup_map {α β : Type*} (f : α → String × β) (k : String) (l : List α) :
    (l.map f).lookup k = (l.find? fun a => (f a).1 = k).map fun a => (f a).2 := by
  induction l with
  | nil => rfl
  | cons a l ih =>
    rw [map_cons, find?_cons, lookup_cons, ih]
    by_cases h : (f a).1 = k
    · simp [h]
    · simp [h, beq_false_of_ne (Ne.symm h)]

def found (p : Pool) (e : Element) (k : String) : Option Attribute :=
  e.attributes.find? fun a => p.string a.name = k

theorem found_spec {p : Pool} {a : Attribute} (h : found p e k = some a) :
    a ∈ e.attributes ∧ (a.resolve p).name = k := by
  rw [found] at h
  refine ⟨mem_of_find?_eq_some h, ?_⟩
  change p.string a.name = k
  simpa using find?_some h

section Found

variable {p : Pool} {e : Element} (he : e.Fits p) {k : String}
variable (hns : ∀ a ∈ (e.resolve p).attributes, a.name = k → a.ns = namespaceOf k)
include he hns

theorem lookup_attrsOf : (attrsOf p e).lookup k =
    (found p e k).map fun a => (textOf p a.value, a.value.data) := by
  rw [attrsOf, ← List.map_reverse, lookup_map, found]
  refine congrArg (Option.map _) (find?_reverse fun a ha b hb hqa hqb => ?_)
  have hak : (a.resolve p).name = k := of_decide_eq_true hqa
  have hbk : (b.resolve p).name = k := of_decide_eq_true hqb
  have hnodup := he.nodup
  rw [Element.resolve, List.map_map] at hnodup
  refine List.inj_on_of_nodup_map hnodup ha hb (Prod.ext ?_ (hak.trans hbk.symm))
  change (a.resolve p).ns = (b.resolve p).ns
  rw [hns _ (List.mem_map_of_mem ha) hak, hns _ (List.mem_map_of_mem hb) hbk]

omit he in
theorem attr_resolve : attr (namespaceOf k) k (e.resolve p) =
    ((found p e k).map fun a => render (a.value.resolve p)).getD "" := by
  have hsame : ((e.resolve p).attributes.find? fun a => a.ns = namespaceOf k ∧ a.name = k) =
      (e.resolve p).attributes.find? fun a => a.name = k := by
    rw [← List.head?_filter, ← List.head?_filter]
    refine congrArg List.head? (List.filter_congr fun a ha => ?_)
    by_cases hk : a.name = k
    · simp [hk, hns a ha hk]
    · simp [hk]
  rw [attr, hsame, Element.resolve, List.find?_map, Option.map_map]
  rfl

theorem s_eq_attr (htext : ∀ a ∈ (e.resolve p).attributes, a.name = k → ¬ Mistyped .text a.value) :
    (attrsOf p e).s k = attr (namespaceOf k) k (e.resolve p) := by
  rw [Attrs.s, lookup_attrsOf he hns, attr_resolve hns]
  cases hfound : found p e k with
  | none => rfl
  | some a =>
    obtain ⟨hmem, hname⟩ := found_spec hfound
    have hvalue := htext _ (mem_map_of_mem hmem) hname
    simp only [Attribute.resolve] at hvalue
    cases hv : a.value with
    | text index typed data => simp [hv, textOf, Value.resolve, render]
    | int kind n =>
      rw [hv] at hvalue
      exact absurd trivial hvalue

theorem iv_eq_attr
    (hnumber : ∀ a ∈ (e.resolve p).attributes, a.name = k → ¬ Mistyped .number a.value)
    (hsign : ∀ a ∈ (e.resolve p).attributes, a.name = k → ¬ Negative a.value) :
    (attrsOf p e).iv k = attr (namespaceOf k) k (e.resolve p) := by
  rw [Attrs.iv, lookup_attrsOf he hns, attr_resolve hns]
  cases hfound : found p e k with
  | none => rfl
  | some a =>
    obtain ⟨hmem, hname⟩ := found_spec hfound
    have hvalue := hnumber _ (mem_map_of_mem hmem) hname
    have hsigned := hsign _ (mem_map_of_mem hmem) hname
    simp only [Attribute.resolve] at hvalue hsigned
    cases hv : a.value with
    | text index typed data =>
      rw [hv] at hvalue
      have hne : p.string index ≠ "" := hvalue
      simp [hv, textOf, Value.resolve, render, hne]
    | int kind n =>
      rw [hv] at hsigned
      obtain ⟨-, -, hlt⟩ := (he.attributes a hmem).int kind n hv
      have hpos : 0 ≤ n := Int.not_lt.mp hsigned
      obtain ⟨m, rfl⟩ := Int.eq_ofNat_of_zero_le hpos
      have hdata : ((m : ℤ) % 2 ^ 32).toNat = m := by omega
      simp only [map_some, hv, textOf, Value.data, Value.resolve, render, getD_some, hdata]
      rfl

end Found

/-! ### The parser on a class -/

theorem only_map (es : List Element) (p : Pool) (ns : Option String) (k : String) :
    only (es.map (Element.resolve p)) ns k =
      (es.head?.map fun e => attr ns k (e.resolve p)).getD "" := by
  rw [only, List.head?_map, Option.map_map]
  rfl

/-- Of at most one element the first is the last, and an empty text is as good as none. -/
theorem summary_of_le_one {es : List Element} (h : es.length ≤ 1) (f : Element → String) :
    lastOf es f = (es.head?.map f).getD "" ∧
      (nonempty es f).head?.getD "" = (es.head?.map f).getD "" ∧
      (nonempty es f).getLast?.getD "" = (es.head?.map f).getD "" := by
  match es, h with
  | [], _ => exact ⟨rfl, rfl, rfl⟩
  | [e], _ =>
    refine ⟨rfl, ?_⟩
    cases hempty : (f e).isEmpty with
    | true => simp [nonempty, String.isEmpty_iff.mp hempty]
    | false => simp [nonempty, hempty]

theorem fits_of_mem_tags {D : Document} (h : e ∈ D.tags) : e.Fits D.pool := by
  obtain ⟨c, hc, he⟩ := mem_filterMap.mp h
  cases c with
  | element e' =>
    cases he
    exact D.fits _ hc
  | other => cases he

section Class

variable {P : Profile} {D : Document} (h : P.Has D) (hforeign : ¬ P.foreign)
include h hforeign

variable {tag : String}

theorem own_elements (htag : asked tag ≠ []) :
    own D.elements tag = (tagged D.pool D.tags tag).map (Element.resolve D.pool) := by
  rw [own, Document.elements, List.filter_map, tagged]
  refine congrArg (List.map _) (List.filter_congr fun e he => ?_)
  by_cases hname : D.pool.string e.name = tag
  · have hns := h.foreignTag hforeign (e.resolve D.pool) (List.mem_map_of_mem he)
      (by rwa [show (e.resolve D.pool).name = tag from hname])
    simp [hname, hns, show (e.resolve D.pool).name = tag from hname]
  · simp [hname, show (e.resolve D.pool).name ≠ tag from hname]

omit h hforeign in
theorem asked_of_tagged {kind : Kind} (hk : (k, kind) ∈ asked tag)
    (he : e ∈ tagged D.pool D.tags tag) {a : XAttribute} (ha : a ∈ (e.resolve D.pool).attributes)
    (hname : a.name = k) :
    Asked D (e.resolve D.pool) a kind where
  element := mem_map_of_mem (mem_filter.mp he).1
  mem := ha
  asked := by
    have htag : (e.resolve D.pool).name = tag := of_decide_eq_true (mem_filter.mp he).2
    rw [hname, htag]
    exact hk

theorem s_tagged (hmistyped : ¬ P.mistyped) (hk : (k, Kind.text) ∈ asked tag)
    (he : e ∈ tagged D.pool D.tags tag) :
    (attrsOf D.pool e).s k = attr (namespaceOf k) k (e.resolve D.pool) := by
  refine s_eq_attr (fits_of_mem_tags (mem_filter.mp he).1) (fun a ha hname => ?_)
    fun a ha hname => h.mistyped hmistyped _ a _ (asked_of_tagged hk he ha hname)
  rw [← hname]
  exact h.foreign hforeign _ a _ (asked_of_tagged hk he ha hname)

theorem iv_tagged (hmistyped : ¬ P.mistyped) (hnegative : ¬ P.negative)
    (hk : (k, Kind.number) ∈ asked tag) (he : e ∈ tagged D.pool D.tags tag) :
    (attrsOf D.pool e).iv k = attr (namespaceOf k) k (e.resolve D.pool) := by
  refine iv_eq_attr (fits_of_mem_tags (mem_filter.mp he).1) (fun a ha hname => ?_)
    (fun a ha hname => h.mistyped hmistyped _ a _ (asked_of_tagged hk he ha hname))
    fun a ha hname => h.negative hnegative _ a _ (asked_of_tagged hk he ha hname)
  rw [← hname]
  exact h.foreign hforeign _ a _ (asked_of_tagged hk he ha hname)

theorem first_eq_only (htag : asked tag ≠ []) {f : Element → String}
    (hf : ∀ e ∈ tagged D.pool D.tags tag, f e = attr (namespaceOf k) k (e.resolve D.pool)) :
    ((tagged D.pool D.tags tag).head?.map f).getD "" =
      only (own D.elements tag) (namespaceOf k) k := by
  rw [own_elements h hforeign htag, only_map]
  cases hhead : (tagged D.pool D.tags tag).head? with
  | none => rfl
  | some e => exact hf e (mem_of_head? hhead)

theorem nonempty_eq_named (hmistyped : ¬ P.mistyped) (hk : ("name", Kind.text) ∈ asked tag) :
    nonempty (tagged D.pool D.tags tag) (fun e => (attrsOf D.pool e).s "name") =
      named (own D.elements tag) := by
  rw [own_elements h hforeign (List.ne_nil_of_mem hk), named, nonempty, List.map_map]
  refine congrArg (List.filter _) (List.map_congr_left fun e he => ?_)
  exact s_tagged h hforeign hmistyped hk he

/-- A manifest without room, without foreign names, and with each value as expected is read
as it declares. -/
theorem summary_eq_declared (hnegative : ¬ P.negative) (hmistyped : ¬ P.mistyped) :
    summary D.pool D.tags = declared D.elements := by
  have hcount : ∀ tag, asked tag ≠ [] →
      (tagged D.pool D.tags tag).length = (own D.elements tag).length := by
    intro tag htag
    rw [own_elements h hforeign htag, length_map]
  have hmanifest := summary_of_le_one
    ((hcount "manifest" (by decide)).trans h.isManifest.manifest).le
  have hsdk := summary_of_le_one
    ((hcount "uses-sdk" (by decide)).trans_le h.isManifest.usesSdk)
  have happlication := summary_of_le_one
    ((hcount "application" (by decide)).trans_le h.isManifest.application)
  rw [summary, declared, Result.mk.injEq]
  refine ⟨?_, ?_, ?_, ?_, ?_, ?_, ?_, ?_⟩
  · rw [(hmanifest _).2.1]
    exact first_eq_only h hforeign (by decide)
      fun e he => s_tagged h hforeign hmistyped (by simp [asked]) he
  · rw [(hmanifest _).1]
    exact first_eq_only h hforeign (by decide)
      fun e he => s_tagged h hforeign hmistyped (by simp [asked]) he
  · rw [(hmanifest _).1]
    exact first_eq_only h hforeign (by decide)
      fun e he => iv_tagged h hforeign hmistyped hnegative (by simp [asked]) he
  · rw [(hsdk _).1]
    exact first_eq_only h hforeign (by decide)
      fun e he => iv_tagged h hforeign hmistyped hnegative (by simp [asked]) he
  · rw [(hsdk _).1]
    exact first_eq_only h hforeign (by decide)
      fun e he => iv_tagged h hforeign hmistyped hnegative (by simp [asked]) he
  · rw [(happlication _).2.2]
    exact first_eq_only h hforeign (by decide)
      fun e he => s_tagged h hforeign hmistyped (by simp [asked]) he
  · exact nonempty_eq_named h hforeign hmistyped (by simp [asked])
  · exact nonempty_eq_named h hforeign hmistyped (by simp [asked])

end Class

/-! ### Manifests that are misread -/

def shortString (s : String) : List UInt8 :=
  [UInt8.ofNat (utf16Units s.toList).length] ++
    ([UInt8.ofNat (utf8 s).length] ++ (utf8 s ++ [0]))

theorem stored_shortString {s : String} (hunits : (utf16Units s.toList).length < 0x80)
    (hbytes : (utf8 s).length < 0x80) : Stored s true (shortString s) :=
  .utf8 (.short hunits) (.short hbytes)

def samplePool : Pool where
  entries := [("manifest", 0), ("package", 11), ("x", 21), ("versionCode", 25), (android, 39)]
  flags := 0x100
  styleCount := 0
  stylesStart := 0
  between := 0
  body := ["manifest", "package", "x", "versionCode", android].flatMap shortString
  stored := by
    intro e he
    refine ⟨shortString e.1, ?_⟩
    revert e
    simp only [forall_mem_cons, not_mem_nil, false_imp_iff, implies_true, and_true]
    refine ⟨⟨stored_shortString ?_ ?_, ?_⟩, ⟨stored_shortString ?_ ?_, ?_⟩,
      ⟨stored_shortString ?_ ?_, ?_⟩, ⟨stored_shortString ?_ ?_, ?_⟩,
      ⟨stored_shortString ?_ ?_, ?_⟩⟩ <;> decide +kernel
  offset_lt := by decide
  flags_lt := by decide
  start_lt := by decide
  size_lt := by decide +kernel

def roomyAttribute (size : ℕ) (a : Option ℕ × ℕ × Value) : Attribute :=
  ⟨a.1, a.2.1, a.2.2, replicate (size - 20) 0xFF⟩

def roomyTag (start size : ℕ) (as : List (Option ℕ × ℕ × Value)) : Element where
  ns := none
  name := 0
  attributes := as.map (roomyAttribute size)
  attributeStart := start
  attributeSize := size
  gap := replicate (start - 20) 0xFF
  lineNumber := 0
  comment := 0
  specialIndices := 0

structure Sound (as : List (Option ℕ × ℕ × Value)) : Prop where
  length : as.length ≤ 2
  ns : ∀ a ∈ as, ∀ i ∈ a.1, i < 5
  name : ∀ a ∈ as, a.2.1 < 5
  text : ∀ a ∈ as, ∀ index typed data, a.2.2 = .text index typed data →
    index < 5 ∧ data < 256 ^ 4
  int : ∀ a ∈ as, ∀ kind n, a.2.2 = .int kind n → kind < 256 ∧ -2 ^ 31 ≤ n ∧ n < 2 ^ 31
  nodup : (as.map fun a => (a.1.map samplePool.string, samplePool.string a.2.1)).Nodup

theorem roomyTag_fits (P : Profile) {as : List (Option ℕ × ℕ × Value)} (h : Sound as) :
    (roomyTag P.attributeStart P.attributeSize as).Fits samplePool where
  ns := nofun
  name := show 0 < 5 by decide
  attributes := by
    intro b hb
    obtain ⟨a, ha, rfl⟩ := List.mem_map.mp hb
    refine ⟨h.ns a ha, h.name a ha, h.text a ha, h.int a ha, ?_⟩
    have := P.size_ge
    simp only [roomyAttribute, roomyTag, List.length_replicate]
    omega
  gap := by
    have := P.start_ge
    simp only [roomyTag, List.length_replicate]
    omega
  count_lt := by
    have := h.length
    simp only [roomyTag, List.length_map]
    omega
  start_lt := P.start_lt
  attributeSize_lt := P.size_lt
  size_lt := by
    have hstart := P.start_lt
    have hsize := P.size_lt
    have hge := P.size_ge
    have hlen := h.length
    have hbytes : ∀ a, (roomyAttribute P.attributeSize a).bytes.length = P.attributeSize := by
      intro a
      rw [Attribute.bytes, List.length_append, length_encode, roomyAttribute, List.length_replicate]
      change 20 + (P.attributeSize - 20) = P.attributeSize
      omega
    have hsum : ((roomyTag P.attributeStart P.attributeSize as).attributes.map
        fun a => a.bytes.length).sum = as.length * P.attributeSize := by
      simp only [roomyTag, List.map_map, Function.comp_def, hbytes]
      rw [List.map_const', List.sum_replicate_nat]
    have hle : as.length * P.attributeSize ≤ 2 * P.attributeSize := Nat.mul_le_mul_right _ hlen
    rw [Element.size, hsum]
    simp only [roomyTag, List.length_replicate]
    omega
  nodup := by
    have hkeys : ((roomyTag P.attributeStart P.attributeSize as).resolve samplePool).attributes.map
        (fun a => (a.ns, a.name)) =
          as.map fun a => (a.1.map samplePool.string, samplePool.string a.2.1) := by
      simp only [Element.resolve, roomyTag, List.map_map]
      rfl
    rw [hkeys]
    exact h.nodup

def roomyManifest (P : Profile) {as : List (Option ℕ × ℕ × Value)} (h : Sound as) : Document where
  pool := samplePool
  chunks := [.element (roomyTag P.attributeStart P.attributeSize as)]
  fits := by
    intro c hc
    rw [mem_singleton.mp hc]
    exact roomyTag_fits P h

section Roomy

variable {P : Profile} {as : List (Option ℕ × ℕ × Value)} (h : Sound as)

def said (as : List (Option ℕ × ℕ × Value)) : List XAttribute :=
  as.map fun a => ⟨a.1.map samplePool.string, samplePool.string a.2.1, a.2.2.resolve samplePool⟩

theorem elements_roomyManifest :
    (roomyManifest P h).elements = [⟨none, "manifest", said as⟩] := by
  have hsaid : (as.map (roomyAttribute P.attributeSize)).map (Attribute.resolve samplePool) =
      said as := by
    rw [List.map_map]
    rfl
  rw [← hsaid]
  rfl

/-- An attribute of the tag as the class allows it. -/
structure Profile.Admits (P : Profile) (a : XAttribute) : Prop where
  foreign : ¬ P.foreign → a.ns = namespaceOf a.name
  negative : ¬ P.negative → ¬ Negative a.value
  mistyped : ¬ P.mistyped → ∀ kind, (a.name, kind) ∈ asked "manifest" → ¬ Mistyped kind a.value

theorem has_roomyManifest (hall : ∀ a ∈ said as, P.Admits a) : P.Has (roomyManifest P h) := by
  have helements := elements_roomyManifest (P := P) h
  have hasked : ∀ {x a kind}, Asked (roomyManifest P h) x a kind →
      P.Admits a ∧ (a.name, kind) ∈ asked "manifest" := by
    rintro x a kind ⟨hx, ha, hkind⟩
    rw [helements, mem_singleton] at hx
    subst hx
    exact ⟨hall a ha, hkind⟩
  refine ⟨⟨?_, ?_, ?_⟩, ?_, ?_, ?_, ?_, ?_⟩
  · rw [helements]
    rfl
  · rw [helements]
    exact Nat.zero_le _
  · rw [helements]
    exact Nat.zero_le _
  · intro e he
    rw [mem_singleton.mp he]
    exact ⟨rfl, rfl⟩
  · intro _ x hx _
    rw [helements, mem_singleton] at hx
    rw [hx]
  · exact fun hP x a kind ha => (hasked ha).1.foreign hP
  · exact fun hP x a kind ha => (hasked ha).1.negative hP
  · exact fun hP x a kind ha => (hasked ha).1.mistyped hP kind (hasked ha).2

/-- A package that is a text, of no other namespace unless the class has such names. -/
theorem admits_package {ns : Option String} (text : String) (hns : ¬ P.foreign → ns = none) :
    P.Admits ⟨ns, "package", .text text⟩ := by
  refine ⟨hns, fun _ => not_false, fun _ kind hkind => ?_⟩
  cases kind with
  | text => exact not_false
  | number => exact absurd hkind (by simp [asked])

theorem admits_versionCode {n : ℤ} (hn : ¬ P.negative → ¬ n < 0) :
    P.Admits ⟨some android, "versionCode", .int n⟩ := by
  refine ⟨fun _ => rfl, hn, fun _ kind hkind => ?_⟩
  cases kind with
  | text => exact absurd hkind (by simp [asked])
  | number => exact not_false

def beforeTag (D : Document) : List UInt8 := encode D.header ++ D.pool.bytes

theorem bytes_roomyManifest : (roomyManifest P h).bytes = beforeTag (roomyManifest P h) ++
    ((roomyTag P.attributeStart P.attributeSize as).bytes ++ []) := by
  rw [beforeTag, append_assoc]
  rfl

theorem parse_roomyManifest : parse (roomyManifest P h).bytes =
    (readAttrs (roomyManifest P h).bytes samplePool.strings
      ((beforeTag (roomyManifest P h)).length + 36) as.length 0 []).map
        fun attrs => enter "manifest" attrs {} := by
  have hfits := roomyTag_fits P h
  have hlen : (roomyTag P.attributeStart P.attributeSize as).attributes.length = as.length :=
    length_map _
  have hend : ∀ r, parseChunks (roomyManifest P h).bytes (beforeTag (roomyManifest P h) ++
      (roomyTag P.attributeStart P.attributeSize as).bytes).length samplePool.strings r =
        some r := by
    intro r
    rw [parseChunks, dif_neg]
    rw [bytes_roomyManifest, append_nil]
    omega
  rw [parse_bytes]
  change parseChunks _ (beforeTag (roomyManifest P h)).length samplePool.strings {} = _
  rw [bytes_roomyManifest h] at hend ⊢
  rw [parseChunks_element hfits, parseStartTag_bytes hfits, hlen]
  cases readAttrs _ samplePool.strings _ as.length 0 [] with
  | none => rfl
  | some attrs => exact hend _

end Roomy

/-- Where an attribute is sought inside the room before it, its name is not found. -/
theorem readAttrs_misread {d pre rest : List UInt8} {k base i : ℕ}
    (hd : d = pre ++ (replicate k 0xFF ++ (replicate 4 0xFF ++ rest))) (hk : 0 < k)
    (hpre : pre.length = base + i * 20) (attrs : Attrs) :
    ∃ new, readAttrs d samplePool.strings base 1 i attrs = some (new ++ attrs) ∧
      ∀ x ∈ new, x.1 = "" := by
  rw [readAttrs]
  simp only [u32?_eq, bind_eq_bind, bind_some]
  split
  case isTrue hfits =>
    refine ⟨[_], rfl, fun x hx => ?_⟩
    rw [mem_singleton.mp hx]
    have hbyte : d[base + i * 20 + 4]? = some 0xFF := by
      rw [hd, ← append_assoc (replicate k _), replicate_append_replicate, ← hpre,
        getElem?_append_right (Nat.le_add_right _ 4), Nat.add_sub_cancel_left,
        getElem?_append_left (by rw [length_replicate]; omega),
        getElem?_replicate_of_lt (by omega)]
    have hname : 255 ≤ field d (base + i * 20 + 4) 4 := le_field hbyte (by decide) (by omega)
    have hcount : samplePool.strings.length = 5 := rfl
    rw [str, getElem?_eq_none (by omega)]
    rfl
  case isFalse => exact ⟨[], rfl, by simp⟩

theorem s_of_forall_ne {attrs : Attrs} (h : ∀ x ∈ attrs, x.1 ≠ k) : attrs.s k = "" := by
  have hnone : attrs.lookup k = none :=
    lookup_eq_none_iff.mpr fun x hx => by simpa using Ne.symm (h x hx)
  rw [Attrs.s, hnone]
  rfl

section Misread

variable {P : Profile}

/-- The package `x`. -/
def packageText : Option ℕ × ℕ × Value := (none, 1, .text 2 0 0)

def versionCode (n : ℤ) : Option ℕ × ℕ × Value := (some 4, 3, .int 0x10 n)

theorem sound_package : Sound [packageText] := by
  refine ⟨?_, ?_, ?_, ?_, ?_, by decide +kernel⟩ <;> simp [packageText]

theorem sound_code_package : Sound [versionCode 0, packageText] := by
  refine ⟨?_, ?_, ?_, ?_, ?_, by decide +kernel⟩ <;> simp [packageText, versionCode]

theorem package_ne_declared {as : List (Option ℕ × ℕ × Value)} {h : Sound as} {attrs : Attrs}
    (hread : readAttrs (roomyManifest P h).bytes samplePool.strings
      ((beforeTag (roomyManifest P h)).length + 36) as.length 0 [] = some attrs)
    (hmissed : ∀ x ∈ attrs, x.1 ≠ "package")
    (hpackage : attr none "package" ⟨none, "manifest", said as⟩ = "x") :
    parse (roomyManifest P h).bytes ≠ some (declared (roomyManifest P h).elements) := by
  intro heq
  rw [parse_roomyManifest, hread, map_some, some.injEq] at heq
  have hempty : (enter "manifest" attrs {}).package = "" := s_of_forall_ne hmissed
  rw [heq, elements_roomyManifest] at hempty
  exact absurd (hpackage.symm.trans hempty) (by decide)

/-- The bytes before an attribute of a sample tag, which has no namespace. -/
theorem encode_packageText (size : ℕ) : ∃ rest, (roomyAttribute size packageText).bytes =
    replicate 4 0xFF ++ rest := by
  have hns : ByteMemory.leBytes 4 0xFFFFFFFF = replicate 4 0xFF := by decide
  refine ⟨encode (roomyAttribute size packageText).fields.tail ++ replicate (size - 20) 0xFF,
    ?_⟩
  rw [← hns, ← append_assoc]
  rfl

theorem length_beforeAttributes (D : Document) (start size : ℕ)
    (as : List (Option ℕ × ℕ × Value)) :
    (beforeTag D ++ encode (roomyTag start size as).header).length = (beforeTag D).length + 36 := by
  rw [length_append, length_encode]
  rfl

/-- Room behind the attributes hides the second one. -/
theorem package_hidden (hstart : P.attributeStart = 20) (hsize : 20 < P.attributeSize) :
    ∃ attrs, readAttrs (roomyManifest P sound_code_package).bytes samplePool.strings
      ((beforeTag (roomyManifest P sound_code_package)).length + 36) 2 0 [] = some attrs ∧
        ∀ x ∈ attrs, x.1 ≠ "package" := by
  have hfits := roomyTag_fits P sound_code_package
  obtain ⟨rest, hrest⟩ := encode_packageText P.attributeSize
  have hd : (roomyManifest P sound_code_package).bytes =
      (beforeTag (roomyManifest P sound_code_package) ++
        encode (roomyTag P.attributeStart P.attributeSize [versionCode 0, packageText]).header) ++
      (encode (roomyAttribute P.attributeSize (versionCode 0)).fields ++
        (replicate (P.attributeSize - 20) 0xFF ++ (replicate 4 0xFF ++ rest))) := by
    rw [bytes_roomyManifest, ← hrest]
    simp only [Element.bytes, roomyTag, hstart, map_cons, map_nil, flatMap_cons, flatMap_nil,
      append_assoc, append_nil, Nat.sub_self, replicate_zero, nil_append, Attribute.bytes]
    rfl
  have hlen := length_beforeAttributes (roomyManifest P sound_code_package) P.attributeStart
    P.attributeSize [versionCode 0, packageText]
  have hlen' : (beforeTag (roomyManifest P sound_code_package) ++
      encode (roomyTag P.attributeStart P.attributeSize [versionCode 0, packageText]).header ++
      encode (roomyAttribute P.attributeSize (versionCode 0)).fields).length =
          (beforeTag (roomyManifest P sound_code_package)).length + 36 + 1 * 20 := by
    rw [length_append, hlen, length_encode]
    rfl
  have hfirst := readAttrs_step (i := 0) (hfits.attributes _ mem_cons_self) hd hlen 1 []
  obtain ⟨new, hread, hnew⟩ := readAttrs_misread (hd.trans (append_assoc ..).symm)
    (by omega) hlen' [attrOf samplePool (roomyAttribute P.attributeSize (versionCode 0))]
  refine ⟨_, hfirst.trans hread, fun x hx => ?_⟩
  rcases mem_append.mp hx with hx | hx
  · rw [hnew x hx]
    decide
  · rw [mem_singleton.mp hx]
    change "versionCode" ≠ "package"
    decide

variable (h : ∀ D, P.Has D → parse D.bytes = some (declared D.elements))
include h

theorem attributeStart_eq : P.attributeStart = 20 := by
  by_contra hne
  have hge := P.start_ge
  have hhas : P.Has (roomyManifest P sound_package) :=
    has_roomyManifest _ (forall_mem_singleton.mpr (admits_package "x" fun _ => rfl))
  obtain ⟨rest, hrest⟩ := encode_packageText P.attributeSize
  have hd : (roomyManifest P sound_package).bytes = (beforeTag (roomyManifest P sound_package) ++
      encode (roomyTag P.attributeStart P.attributeSize [packageText]).header) ++
        (replicate (P.attributeStart - 20) 0xFF ++ (replicate 4 0xFF ++ rest)) := by
    rw [bytes_roomyManifest, ← hrest]
    simp only [Element.bytes, roomyTag, map_singleton, flatMap_singleton, append_assoc, append_nil]
  obtain ⟨new, hread, hnew⟩ := readAttrs_misread hd (by omega) (i := 0)
    (length_beforeAttributes ..) []
  refine package_ne_declared hread (fun x hx => ?_) rfl (h _ hhas)
  rw [append_nil] at hx
  rw [hnew x hx]
  decide

theorem attributeSize_eq : P.attributeSize = 20 := by
  by_contra hne
  have hge := P.size_ge
  have hhas : P.Has (roomyManifest P sound_code_package) :=
    has_roomyManifest _ (forall_mem_cons.mpr ⟨admits_versionCode fun _ => Int.lt_irrefl 0,
      forall_mem_singleton.mpr (admits_package "x" fun _ => rfl)⟩)
  obtain ⟨attrs, hread, hmissed⟩ := package_hidden (attributeStart_eq h) (show 20 < _ by omega)
  exact package_ne_declared hread hmissed rfl (h _ hhas)

theorem read_of_admits {as : List (Option ℕ × ℕ × Value)} (hsound : Sound as)
    (hall : ∀ a ∈ said as, P.Admits a) :
    enter "manifest" (attrsOf samplePool (roomyTag P.attributeStart P.attributeSize as)) {}
      = declared [⟨none, "manifest", said as⟩] := by
  have heq := h _ (has_roomyManifest hsound hall)
  -- without room the manifest is read as its tag says
  have htight : ∀ e ∈ (roomyManifest P hsound).tags,
      e.attributeStart = 20 ∧ e.attributeSize = 20 := by
    intro e he
    rw [mem_singleton.mp he]
    exact ⟨attributeStart_eq h, attributeSize_eq h⟩
  rw [parse_tight _ htight, some.injEq, elements_roomyManifest] at heq
  exact heq

/-- The last attribute of a name is taken, whatever its namespace. -/
theorem not_foreign : ¬ P.foreign := by
  intro hforeign
  have hsound : Sound [packageText, (some 2, 1, .text 0 0 0)] := by
    refine ⟨?_, ?_, ?_, ?_, ?_, by decide +kernel⟩ <;> simp [packageText]
  have heq := read_of_admits h hsound (forall_mem_cons.mpr ⟨admits_package "x" fun _ => rfl,
    forall_mem_singleton.mpr (admits_package "manifest" fun hnot => absurd hforeign hnot)⟩)
  exact absurd (show "manifest" = "x" from congrArg Result.package heq) (by decide)

theorem not_negative : ¬ P.negative := by
  intro hnegative
  have hsound : Sound [versionCode (-1)] := by
    refine ⟨?_, ?_, ?_, ?_, ?_, by decide +kernel⟩ <;> simp [versionCode]
  have heq := read_of_admits h hsound (forall_mem_singleton.mpr
    (admits_versionCode fun hnot => absurd hnegative hnot))
  have hcode : toString 4294967295 = toString (-1 : ℤ) := congrArg Result.versionCode heq
  exact absurd hcode (by decide +kernel)

/-- A text that is held as an integer is not shown. -/
theorem not_mistyped : ¬ P.mistyped := by
  intro hmistyped
  have hsound : Sound [(none, 1, .int 0x10 5)] := by
    refine ⟨?_, ?_, ?_, ?_, ?_, by decide +kernel⟩ <;> simp
  have heq := read_of_admits h hsound (forall_mem_singleton.mpr
    ⟨fun _ => rfl, fun _ => Int.not_lt.mpr (by decide), fun hnot => absurd hmistyped hnot⟩)
  exact absurd (show "" = "5" from congrArg Result.package heq) (by decide)

end Misread

/-- The parser reports what is declared by all manifests of a class exactly if they leave no
room before or behind their attributes, use no foreign names and no negative numbers, and
hold texts and numbers as such. -/
theorem parse_declared_iff (P : Profile) :
    (∀ D, P.Has D → parse D.bytes = some (declared D.elements)) ↔
      P.attributeStart = 20 ∧ P.attributeSize = 20 ∧ ¬ P.foreign ∧ ¬ P.negative ∧
        ¬ P.mistyped := by
  constructor
  · exact fun h => ⟨attributeStart_eq h, attributeSize_eq h, not_foreign h, not_negative h,
      not_mistyped h⟩
  · rintro ⟨hstart, hsize, hforeign, hnegative, hmistyped⟩ D h
    have htight : ∀ e ∈ D.tags, e.attributeStart = 20 ∧ e.attributeSize = 20 :=
      fun e he => ⟨(h.layout e he).1.trans hstart, (h.layout e he).2.trans hsize⟩
    rw [parse_tight D htight, collect_eq_summary,
      summary_eq_declared h hforeign hnegative hmistyped]

def roomyProfile : Profile where
  attributeStart := 20
  attributeSize := 24
  foreign := False
  negative := False
  mistyped := False
  start_ge := by decide
  start_lt := by decide
  size_ge := by decide
  size_lt := by decide

/-- A manifest of this class, with a version code and the package `x`; the parser reports
another package. -/
theorem package_missed :
    (declared (roomyManifest roomyProfile sound_code_package).elements).package = "x" ∧
      ∃ r, parse (roomyManifest roomyProfile sound_code_package).bytes = some r ∧
        r.package = "" := by
  obtain ⟨attrs, hread, hmissed⟩ := package_hidden (P := roomyProfile) rfl (by decide)
  refine ⟨rfl, enter "manifest" attrs {}, ?_, s_of_forall_ne hmissed⟩
  rw [parse_roomyManifest]
  exact congrArg (Option.map _) hread

end Bootbox.Host.Axml
