import Mathlib.Data.List.DropRight
import Bootbox.Lib.Splitting

/-!
Written paths and the places they lead to.

A place is the list of names from the root of the tree. A written path is cut at `/`
into components, each of which stays where it is, goes up or goes down; `walk` follows
them from a folder. No links: going up is taking the last name away.

The rule used most is `walk_of_noUp`: a path without `..` leads below the folder it
starts from, or back to it when it names nothing. Any other path goes up first and then
down, which is its `normal` form.
-/

namespace Bootbox.Lib.PathNames

open List Option

variable {path text : List Char} {c : Char}

/-! ### Walks -/

section Walks

variable {ν : Type*}

inductive Step (ν : Type*)
  | stay
  | up
  | down (name : ν)
  deriving DecidableEq

def walk (place : List ν) : List (Step ν) → List ν
  | [] => place
  | .stay :: steps => walk place steps
  | .up :: steps => walk place.dropLast steps
  | .down name :: steps => walk (place ++ [name]) steps

def Step.name? : Step ν → Option ν
  | .down name => some name
  | _ => none

def Below (folder place : List ν) : Prop := folder <+: place ∧ place ≠ folder

instance [DecidableEq ν] (folder place : List ν) : Decidable (Below folder place) :=
  inferInstanceAs (Decidable (_ ∧ _))

variable {folder place : List ν}

theorem below_concat (h : folder <+: place) (name : ν) : Below folder (place ++ [name]) := by
  refine ⟨h.trans (prefix_append place [name]), fun heq => ?_⟩
  have hlen := h.length_le
  rw [← heq, length_append, length_singleton] at hlen
  omega

theorem le_dropLast_of_below (h : Below folder place) : folder <+: place.dropLast := by
  rcases eq_nil_or_concat' place with rfl | ⟨init, name, rfl⟩
  · exact h.1
  · rw [dropLast_concat]
    exact (prefix_concat_iff.mp h.1).resolve_left (Ne.symm h.2)

theorem le_of_below_step {s : Step ν} (h : Below folder (walk place [s])) : folder <+: place := by
  cases s with
  | stay => exact h.1
  | up => exact h.1.trans ( dropLast_prefix place)
  | down name => simpa [walk] using le_dropLast_of_below h

theorem walk_append (place : List ν) (xs ys : List (Step ν)) :
    walk place (xs ++ ys) = walk (walk place xs) ys := by
  induction xs generalizing place with
  | nil => rfl
  | cons x xs ih => cases x <;> exact ih _

theorem walk_of_noUp {steps : List (Step ν)} (h : .up ∉ steps) (place : List ν) :
    walk place steps = place ++ steps.filterMap Step.name? := by
  induction steps generalizing place with
  | nil => simp [walk]
  | cons s steps ih =>
    have hrest : .up ∉ steps := fun hmem => h (mem_cons_of_mem s hmem)
    cases s with
    | stay => exact ih hrest place
    | up => exact absurd mem_cons_self h
    | down name => simpa [walk, Step.name?] using ih hrest (place ++ [name])

theorem below_walk_iff {steps : List (Step ν)} (h : .up ∉ steps) (folder : List ν) :
    Below folder (walk folder steps) ↔ steps.filterMap Step.name? ≠ [] := by
  rw [walk_of_noUp h]
  refine ⟨fun hbelow hnil => ?_, fun h => ⟨prefix_append .., by simpa using h⟩⟩
  exact hbelow.2 (by rw [hnil, append_nil])

/-- How often a path goes up beyond its start, and the names that it then goes down. -/
def push : ℕ × List ν → Step ν → ℕ × List ν
  | n, .stay => n
  | (ups, []), .up => (ups + 1, [])
  | (ups, names), .up => (ups, names.dropLast)
  | (ups, names), .down name => (ups, names ++ [name])

def normal (steps : List (Step ν)) : ℕ × List ν := steps.foldl push (0, [])

theorem walk_push (place : List ν) (n : ℕ × List ν) (s : Step ν) :
    walk (place.rdrop n.1 ++ n.2) [s] = place.rdrop (push n s).1 ++ (push n s).2 := by
  obtain ⟨ups, names⟩ := n
  cases s with
  | stay => rfl
  | up =>
    cases names with
    | nil =>
      have hmin : min (place.length - (ups + 1)) (place.length - ups) =
          place.length - (ups + 1) := by omega
      simp [walk, push, rdrop, dropLast_eq_take, take_take, Nat.sub_sub, hmin]
    | cons name names => exact dropLast_append_of_ne_nil (by simp)
  | down name => exact append_assoc ..

theorem walk_eq_normal (place : List ν) (steps : List (Step ν)) :
    walk place steps = place.rdrop (normal steps).1 ++ (normal steps).2 := by
  have hfold : ∀ n : ℕ × List ν, walk (place.rdrop n.1 ++ n.2) steps =
      place.rdrop (steps.foldl push n).1 ++ (steps.foldl push n).2 := by
    induction steps with
    | nil => exact fun _ => rfl
    | cons s steps ih =>
      intro n
      rw [← singleton_append, walk_append, walk_push, ih]
      rfl
  simpa [normal] using hfold (0, [])

end Walks

/-! ### Written paths -/

def stepOf (component : List Char) : Step (List Char) :=
  if component = [] ∨ component = ['.'] then .stay
  else if component = ['.', '.'] then .up
  else .down component

theorem stepOf_of_length {component : List Char} (h : 3 ≤ component.length) :
    stepOf component = .down component := by
  have hne : ∀ short : List Char, short.length < 3 → component ≠ short := by
    rintro short hshort rfl
    omega
  rw [stepOf, if_neg (not_or.mpr ⟨hne [] (by decide), hne ['.'] (by decide)⟩),
    if_neg (hne ['.', '.'] (by decide))]

def steps (path : List Char) : List (Step (List Char)) := (path.splitOn '/').map stepOf

theorem noUp_of_noDots (h : ¬ ['.', '.'] <:+: path) : .up ∉ steps path := by
  intro hmem
  obtain ⟨component, hcomponent, hstep⟩ := mem_map.mp hmem
  have hdots : component = ['.', '.'] := by
    by_contra hne
    simp only [stepOf, if_neg hne] at hstep
    split at hstep <;> cases hstep
  exact h (hdots ▸ infix_of_mem_splitOn hcomponent)

def pathText (place : List (List Char)) : List Char := place.flatMap fun name => '/' :: name

theorem cut_last (path : List Char) :
    '/' ∉ path ∨ ∃ front last, path = front ++ '/' :: last ∧ '/' ∉ last := by
  by_cases h : '/' ∈ path
  · obtain ⟨last, front, heq, hlast⟩ := eq_append_cons_of_mem (mem_reverse.mpr h)
    refine .inr ⟨front.reverse, last.reverse, ?_, by simpa using hlast⟩
    rw [← reverse_reverse path, heq]
    simp
  · exact .inl h

theorem steps_of_noSlash (h : '/' ∉ path) : steps path = [stepOf path] := by
  rw [steps, splitOn_eq_singleton h, map_singleton]

/-- A name that stands for itself: one component, and none that stays or goes up. -/
def IsFileName (name : List Char) : Prop := '/' ∉ name ∧ stepOf name = .down name

instance (name : List Char) : Decidable (IsFileName name) := inferInstanceAs (Decidable (_ ∧ _))

theorem IsFileName.walk {name : List Char} (h : IsFileName name) (folder : List (List Char)) :
    walk folder (steps name) = folder ++ [name] := by
  rw [steps_of_noSlash h.1, h.2]
  rfl

theorem steps_append_slash (front last : List Char) :
    steps (front ++ '/' :: last) = steps front ++ steps last := by
  rw [steps, splitOn_append_cons_self, map_append]
  rfl

theorem walk_slashes (place : List (List Char)) (path : List Char) (n : ℕ) :
    walk place (steps (path ++ replicate n '/')) = walk place (steps path) := by
  induction n with
  | zero => simp
  | succ n ih =>
    rw [replicate_succ', ← append_assoc, steps_append_slash, walk_append, ih]
    rfl

def trimSlashes (path : List Char) : List Char := path.rdropWhile (· == '/')

theorem trimSlashes_spec (path : List Char) :
    ∃ n, path = trimSlashes path ++ replicate n '/' := by
  refine ⟨(path.rtakeWhile (· == '/')).length, ?_⟩
  conv_lhs => rw [← rdropWhile_append_rtakeWhile (p := (· == '/')) (l := path)]
  congr 1
  refine eq_replicate_of_mem fun c hc => ?_
  simpa using mem_rtakeWhile_imp hc

theorem walk_trimSlashes (place : List (List Char)) (path : List Char) :
    walk place (steps (trimSlashes path)) = walk place (steps path) := by
  obtain ⟨n, hn⟩ := trimSlashes_spec path
  conv_rhs => rw [hn]
  exact (walk_slashes place _ n).symm

theorem IsFileName.trimSlashes {name : List Char} (h : IsFileName name) :
    trimSlashes name = name ∧ name ≠ [] := by
  refine ⟨rdropWhile_eq_self_iff.mpr fun hne hslash => h.1 ?_, ?_⟩
  · rw [← beq_iff_eq.mp hslash]
    exact getLast_mem hne
  · rintro rfl
    cases h.2

/-- What stands behind the last `/` of a path that does not end in one. -/
def lastComponent (path : List Char) : List Char :=
  ((trimSlashes path).splitOn '/').getLastD []

theorem lastComponent_spec (h : trimSlashes path ≠ []) :
    '/' ∉ lastComponent path ∧ lastComponent path ≠ [] ∧ lastComponent path <:+ trimSlashes path ∧
    ∃ front, ∀ more : List Char, '/' ∉ more →
      steps (trimSlashes path ++ more) = front ++ [stepOf (lastComponent path ++ more)] := by
  have hend : (trimSlashes path).getLast h ≠ '/' := by
    have hnot := rdropWhile_last_not (· == '/') path h
    exact fun heq => hnot (beq_iff_eq.mpr heq)
  rw [lastComponent]
  generalize trimSlashes path = trimmed at h hend
  rcases cut_last trimmed with hslash | ⟨front, last, rfl, hslash⟩
  · rw [splitOn_eq_singleton hslash]
    refine ⟨hslash, h, suffix_rfl, [], fun more hmore => ?_⟩
    exact steps_of_noSlash (by simpa using ⟨hslash, hmore⟩)
  · have hlast : ((front ++ '/' :: last).splitOn '/').getLastD [] = last := by
      rw [splitOn_append_cons_self, splitOn_eq_singleton hslash, getLastD_concat]
    rw [hlast]
    refine ⟨hslash, ?_, ⟨front ++ ['/'], by simp⟩, steps front, fun more hmore => ?_⟩
    · rintro rfl
      simp at hend
    · have hboth : '/' ∉ last ++ more := by simpa using ⟨hslash, hmore⟩
      rw [append_assoc, cons_append, steps_append_slash, steps_of_noSlash hboth]

theorem names_of_concat (path : List Char) (hdot : c ≠ '.') (hslash : c ≠ '/') :
    lastComponent (path ++ [c]) ≠ ['.'] ∧ (steps (path ++ [c])).filterMap Step.name? ≠ [] := by
  have htrim : trimSlashes (path ++ [c]) = path ++ [c] :=
    rdropWhile_concat_neg _ _ _ (by simpa using hslash)
  obtain ⟨-, hne, hsuffix, front, hsteps⟩ :=
    @lastComponent_spec (path ++ [c]) (by rw [htrim]; simp)
  rw [htrim] at hsuffix hsteps
  -- the last component ends in the letter, too
  obtain ⟨init, last, hlast⟩ := (eq_nil_or_concat' _).resolve_left hne
  obtain ⟨before, hbefore⟩ := hsuffix
  rw [hlast, ← append_assoc] at hbefore
  have hc : last = c := by simpa using (append_inj' hbefore rfl).2
  have hsingle : lastComponent (path ++ [c]) ≠ ['.'] := by
    rw [hlast, hc]
    intro heq
    exact hdot (by simpa using congrArg getLast? heq)
  refine ⟨hsingle, ?_⟩
  have hdouble : lastComponent (path ++ [c]) ≠ ['.', '.'] := by
    rw [hlast, hc]
    intro heq
    exact hdot (by simpa using congrArg getLast? heq)
  have hstep : stepOf (lastComponent (path ++ [c])) = .down (lastComponent (path ++ [c])) := by
    rw [stepOf, if_neg (not_or.mpr ⟨hne, hsingle⟩), if_neg hdouble]
  have hall := hsteps [] (not_mem_nil)
  rw [append_nil, append_nil, hstep] at hall
  rw [hall]
  simp [Step.name?]

/-! ### Percent-encoding -/

def hexValue (c : Char) : Option ℕ :=
  if '0' ≤ c ∧ c ≤ '9' then some (c.toNat - '0'.toNat)
  else if 'a' ≤ c ∧ c ≤ 'f' then some (c.toNat - 'a'.toNat + 10)
  else if 'A' ≤ c ∧ c ≤ 'F' then some (c.toNat - 'A'.toNat + 10)
  else none

/-- The bytes of a percent-encoded text; `none` when a `%` has no two digits behind it. -/
def percentBytes : List Char → Option (List UInt8)
  | [] => some []
  | '%' :: high :: low :: rest =>
    (hexValue high).bind fun h => (hexValue low).bind fun l =>
      (percentBytes rest).map (UInt8.ofNat (16 * h + l) :: ·)
  | c :: rest =>
    if c = '%' then none else (percentBytes rest).map (String.utf8EncodeChar c ++ ·)

/-- `removingPercentEncoding`: `none` for a broken escape or bytes that are no UTF-8. -/
def removingPercentEncoding (text : List Char) : Option (List Char) :=
  (percentBytes text).bind fun bytes => bytes.toByteArray.utf8Decode?.map Array.toList

theorem percentBytes_cons (h : c ≠ '%') (rest : List Char) :
    percentBytes (c :: rest) = (percentBytes rest).map (String.utf8EncodeChar c ++ ·) := by
  rw [percentBytes, if_neg h]
  intro high low rest' hc
  exact absurd hc h

theorem percentBytes_plain (h : '%' ∉ text) :
    percentBytes text = some (text.flatMap String.utf8EncodeChar) := by
  induction text with
  | nil => rfl
  | cons c rest ih =>
    rw [mem_cons, not_or] at h
    rw [percentBytes_cons (Ne.symm h.1), ih h.2]
    rfl

/-- A text without `%` stands for itself. -/
theorem removingPercentEncoding_plain (h : '%' ∉ text) :
    removingPercentEncoding text = some text := by
  rw [removingPercentEncoding, percentBytes_plain h]
  change (utf8Encode text).utf8Decode?.map Array.toList = some text
  rw [utf8Decode?_utf8Encode]
  simp

/-- A letter at the end that is no digit of an escape is left as it is. -/
theorem percentBytes_concat (hpercent : c ≠ '%') (hhex : hexValue c = none) (text : List Char)
    {bytes : List UInt8} (h : percentBytes (text ++ [c]) = some bytes) :
    ∃ front, bytes = front ++ String.utf8EncodeChar c := by
  induction text using percentBytes.induct generalizing bytes with
  | case1 =>
    rw [nil_append, percentBytes_cons hpercent] at h
    exact ⟨[], by simpa [percentBytes] using h.symm⟩
  | case2 high low rest ih =>
    simp only [cons_append, percentBytes, bind_eq_some_iff, map_eq_some_iff] at h
    obtain ⟨a, -, b, -, bytes', hbytes, rfl⟩ := h
    obtain ⟨front, rfl⟩ := ih hbytes
    exact ⟨_ :: front, rfl⟩
  | case3 rest hrest =>
    -- an escape with fewer than two digits: the letter would be its second
    match rest, hrest with
    | [], _ => simp [percentBytes] at h
    | [high], _ => simp [percentBytes, hhex] at h
    | high :: low :: rest, hrest => exact absurd rfl (hrest high low rest rfl)
  | case4 c' rest hrest hne ih =>
    rw [cons_append, percentBytes_cons hne, map_eq_some_iff] at h
    obtain ⟨bytes', hbytes, rfl⟩ := h
    obtain ⟨front, rfl⟩ := ih hbytes
    exact ⟨String.utf8EncodeChar c' ++ front, (append_assoc ..).symm⟩

/-- Only an ASCII letter ends in an ASCII byte. -/
theorem eq_of_getLast?_utf8EncodeChar {d : Char} (hc : c.toNat < 128)
    (h : (String.utf8EncodeChar d).getLast? = some (UInt8.ofNat c.toNat)) : d = c := by
  -- every byte of a longer encoding has its top bit set
  have hlong : ∀ v : ℕ, UInt8.ofNat (v % 64 + 128) ≠ UInt8.ofNat c.toNat := by
    intro v heq
    have hnat := congrArg UInt8.toNat heq
    simp only [UInt8.toNat_ofNat'] at hnat
    omega
  rw [String.utf8EncodeChar] at h
  split at h
  · have hbyte : UInt8.ofNat d.val.toNat = UInt8.ofNat c.toNat := some.inj h
    have hnat := congrArg UInt8.toNat hbyte
    simp only [UInt8.toNat_ofNat'] at hnat
    have hval : d.toNat = c.toNat := by
      change d.val.toNat = c.toNat
      omega
    exact Char.toNat_inj.mp hval
  · exfalso
    split at h
    · exact hlong _ (some.inj h)
    · split at h <;> exact hlong _ (some.inj h)

/-- The last letter of a text is still its last letter behind `removingPercentEncoding`. -/
theorem removingPercentEncoding_concat (hascii : c.toNat < 128) (hpercent : c ≠ '%')
    (hhex : hexValue c = none) {decoded : List Char}
    (h : removingPercentEncoding (text ++ [c]) = some decoded) :
    ∃ front, decoded = front ++ [c] := by
  rw [removingPercentEncoding, bind_eq_some_iff] at h
  obtain ⟨bytes, hbytes, hdecode⟩ := h
  obtain ⟨front, rfl⟩ := percentBytes_concat hpercent hhex text hbytes
  obtain ⟨chars, hchars, rfl⟩ := map_eq_some_iff.mp hdecode
  have hencode : chars.toList.flatMap String.utf8EncodeChar = front ++ String.utf8EncodeChar c := by
    have hsome : (toByteArray (front ++ String.utf8EncodeChar c)).utf8Decode?.isSome := by
      rw [hchars]
      rfl
    have hget := ByteArray.utf8Encode_get_utf8Decode? (h := hsome)
    rw [get_of_eq_some hsome hchars] at hget
    exact toByteArray_inj.mp hget
  have hlast : (front ++ String.utf8EncodeChar c).getLast? = some (UInt8.ofNat c.toNat) := by
    rw [String.utf8EncodeChar, if_pos (show c.val.toNat ≤ 0x7f from Nat.le_of_lt_succ hascii)]
    exact getLast?_concat
  rcases eq_nil_or_concat' chars.toList with hnil | ⟨init, d, hconcat⟩
  · rw [hnil] at hencode
    rw [← hencode] at hlast
    cases hlast
  · rw [hconcat, flatMap_append] at hencode
    rw [← hencode, flatMap_singleton, getLast?_append_of_ne_nil _
      (ne_nil_of_length_pos (by rw [String.length_utf8EncodeChar]; exact d.utf8Size_pos))]
      at hlast
    exact ⟨init, by rw [hconcat, eq_of_getLast?_utf8EncodeChar hascii hlast]⟩

end Bootbox.Lib.PathNames
