import Mathlib.Data.List.Basic

/-!
The header of a gzip member: ten fixed bytes, the fourth of which says which fields
follow, each of a length that it tells itself.

A field is given twice, by the bytes that encode it and by the length that a reader
finds. The two agree, and a reader that finds no length has come to the end of the
bytes within a field, never to anything else.
-/

namespace Bootbox.Lib.Gzip

open List Option

variable {bytes : List UInt8} {n : ℕ}

inductive Field
  /-- Two bytes of length, the low one first, and so many bytes. -/
  | extra
  /-- Bytes up to a zero. -/
  | text
  /-- Two bytes. -/
  | crc

namespace Field

inductive Encodes : Field → List UInt8 → Prop
  | extra (lo hi : UInt8) (data : List UInt8) (h : data.length = lo.toNat + 256 * hi.toNat) :
      Encodes .extra (lo :: hi :: data)
  | text (data : List UInt8) (h : 0 ∉ data) : Encodes .text (data ++ [0])
  | crc (a b : UInt8) : Encodes .crc [a, b]

def textLength? : List UInt8 → Option ℕ
  | [] => none
  | b :: rest => if b = 0 then some 1 else (textLength? rest).map (· + 1)

def length? : Field → List UInt8 → Option ℕ
  | .extra, lo :: hi :: rest =>
    let n := lo.toNat + 256 * hi.toNat
    if n ≤ rest.length then some (n + 2) else none
  | .extra, _ => none
  | .text, bytes => textLength? bytes
  | .crc, _ :: _ :: _ => some 2
  | .crc, _ => none

theorem textLength?_append {data : List UInt8} (h : 0 ∉ data) (rest : List UInt8) :
    textLength? (data ++ [0] ++ rest) = some (data.length + 1) := by
  induction data with
  | nil => rfl
  | cons b data ih =>
    obtain ⟨hb, hdata⟩ := not_or.mp (mt mem_cons.mpr h)
    rw [cons_append, cons_append, textLength?, if_neg (Ne.symm hb), ih hdata]
    rfl

theorem textLength?_eq_none (h : textLength? bytes = none) : 0 ∉ bytes := by
  induction bytes with
  | nil => exact not_mem_nil
  | cons b rest ih =>
    rw [textLength?] at h
    split at h
    · cases h
    · rename_i hb
      exact mt mem_cons.mp (not_or.mpr ⟨Ne.symm hb, ih (map_eq_none_iff.mp h)⟩)

theorem textLength?_eq_some (h : textLength? bytes = some n) :
    ∃ data rest, bytes = data ++ [0] ++ rest ∧ 0 ∉ data ∧ n = data.length + 1 := by
  induction bytes generalizing n with
  | nil => cases h
  | cons b bytes ih =>
    rw [textLength?] at h
    split at h
    · rename_i hb
      cases h
      exact ⟨[], bytes, by rw [hb]; rfl, not_mem_nil, rfl⟩
    · rename_i hb
      obtain ⟨m, hm, rfl⟩ := map_eq_some_iff.mp h
      obtain ⟨data, rest, rfl, hdata, rfl⟩ := ih hm
      exact ⟨b :: data, rest, rfl, mt mem_cons.mp (not_or.mpr ⟨Ne.symm hb, hdata⟩), rfl⟩

variable {f : Field}

theorem length?_of_encodes (h : f.Encodes bytes) (rest : List UInt8) :
    f.length? (bytes ++ rest) = some bytes.length := by
  cases h with
  | extra lo hi data h =>
    have hle : lo.toNat + 256 * hi.toNat ≤ (data ++ rest).length := by
      rw [length_append]
      omega
    rw [cons_append, cons_append, length?, if_pos hle, ← h]
    rfl
  | text data h => rw [length?, textLength?_append h, length_append, length_singleton]
  | crc a b => rfl

theorem encodes_of_length? (h : f.length? bytes = some n) :
    f.Encodes (bytes.take n) ∧ n ≤ bytes.length := by
  cases f with
  | extra =>
    match bytes, h with
    | lo :: hi :: rest, h =>
      change (if _ then _ else _) = _ at h
      split at h
      · rename_i hle
        cases h
        refine ⟨.extra lo hi _ ?_, Nat.add_le_add_right hle 2⟩
        rw [length_take, Nat.min_eq_left hle]
      · cases h
    | [_], h => cases h
    | [], h => cases h
  | text =>
    obtain ⟨data, rest, rfl, hdata, rfl⟩ := textLength?_eq_some h
    have hlen : data.length + 1 = (data ++ [0]).length := by
      rw [length_append, length_singleton]
    rw [hlen, take_left]
    refine ⟨.text data hdata, ?_⟩
    rw [@length_append _ (data ++ [0])]
    exact Nat.le_add_right _ _
  | crc =>
    match bytes, h with
    | a :: b :: rest, h =>
      cases h
      exact ⟨.crc a b, Nat.le_add_left 2 rest.length⟩
    | [_], h => cases h
    | [], h => cases h

/-- The fields other than texts have at least two bytes. -/
theorem length?_of_short (hf : f ≠ .text) (h : bytes.length < 2) : f.length? bytes = none := by
  match f, bytes, hf, h with
  | .extra, [], _, _ => rfl
  | .extra, [_], _, _ => rfl
  | .crc, [], _, _ => rfl
  | .crc, [_], _, _ => rfl

/-- Where the reader finds nothing the bytes end within a field. -/
theorem ends_of_length? (h : f.length? bytes = none) :
    ∃ more, more ≠ [] ∧ f.Encodes (bytes ++ more) := by
  cases f with
  | extra =>
    match bytes, h with
    | lo :: hi :: rest, h =>
      change (if _ then _ else _) = _ at h
      split at h
      · cases h
      · rename_i hlt
        refine ⟨replicate (lo.toNat + 256 * hi.toNat - rest.length) 0, fun hnil => ?_,
          .extra lo hi _ ?_⟩
        · have hzero := congrArg length hnil
          rw [length_replicate, length_nil] at hzero
          omega
        · change (rest ++ _).length = _
          rw [length_append, length_replicate]
          omega
    | [lo], h => exact ⟨0 :: replicate lo.toNat 0, cons_ne_nil _ _, .extra lo 0 _ (by simp)⟩
    | [], h => exact ⟨[0, 0], cons_ne_nil _ _, .extra 0 0 [] rfl⟩
  | text => exact ⟨[0], cons_ne_nil _ _, .text bytes (textLength?_eq_none h)⟩
  | crc =>
    match bytes, h with
    | _ :: _ :: _, h => cases h
    | [a], h => exact ⟨[0], cons_ne_nil _ _, .crc a 0⟩
    | [], h => exact ⟨[0, 0], cons_ne_nil _ _, .crc 0 0⟩

end Field

/-! ### Fields in a row -/

inductive Encodes : List Field → List UInt8 → Prop
  | nil : Encodes [] []
  | cons {f : Field} {fs : List Field} {bytes more : List UInt8} (h : f.Encodes bytes)
      (hs : Encodes fs more) : Encodes (f :: fs) (bytes ++ more)

def length? : List Field → List UInt8 → Option ℕ
  | [], _ => some 0
  | f :: fs, bytes => (f.length? bytes).bind fun n => (length? fs (bytes.drop n)).map (n + ·)

theorem length?_append (fs gs : List Field) (bytes : List UInt8) :
    length? (fs ++ gs) bytes =
      (length? fs bytes).bind fun n => (length? gs (bytes.drop n)).map (n + ·) := by
  induction fs generalizing bytes with
  | nil => simp [length?]
  | cons f fs ih =>
    rw [List.cons_append, length?, length?]
    cases f.length? bytes with
    | none => rfl
    | some n =>
      rw [Option.bind_some, Option.bind_some, ih]
      cases length? fs (bytes.drop n) with
      | none => rfl
      | some m =>
        rw [Option.bind_some, Option.map_some, Option.bind_some, List.drop_drop, Option.map_map]
        congr 1
        funext k
        exact (Nat.add_assoc n m k).symm

variable {fs : List Field}

theorem length?_of_encodes (h : Encodes fs bytes) (rest : List UInt8) :
    length? fs (bytes ++ rest) = some bytes.length := by
  induction h with
  | nil => rfl
  | cons h hs ih =>
    rw [length?, append_assoc, Field.length?_of_encodes h, bind_some, drop_left,
      ih, map_some, length_append]

theorem encodes_of_length? (h : length? fs bytes = some n) :
    Encodes fs (bytes.take n) ∧ n ≤ bytes.length := by
  induction fs generalizing bytes n with
  | nil =>
    cases h
    exact ⟨.nil, Nat.zero_le _⟩
  | cons f fs ih =>
    obtain ⟨k, hk, hrest⟩ := bind_eq_some_iff.mp h
    obtain ⟨m, hm, rfl⟩ := map_eq_some_iff.mp hrest
    obtain ⟨hfirst, hle⟩ := Field.encodes_of_length? hk
    obtain ⟨hmore, hle'⟩ := ih hm
    rw [length_drop] at hle'
    rw [take_add]
    exact ⟨.cons hfirst hmore, by omega⟩

theorem exists_encodes (fs : List Field) : ∃ bytes, Encodes fs bytes := by
  induction fs with
  | nil => exact ⟨[], .nil⟩
  | cons f fs ih =>
    obtain ⟨more, hmore⟩ := ih
    cases f with
    | extra => exact ⟨_, .cons (.extra 0 0 [] rfl) hmore⟩
    | text => exact ⟨_, .cons (.text [] not_mem_nil) hmore⟩
    | crc => exact ⟨_, .cons (.crc 0 0) hmore⟩

theorem ends_of_length? (h : length? fs bytes = none) :
    ∃ more, more ≠ [] ∧ Encodes fs (bytes ++ more) := by
  induction fs generalizing bytes with
  | nil => cases h
  | cons f fs ih =>
    rw [length?] at h
    cases hf : f.length? bytes with
    | none =>
      obtain ⟨more, hne, hfirst⟩ := Field.ends_of_length? hf
      obtain ⟨others, hothers⟩ := exists_encodes fs
      refine ⟨more ++ others, fun hnil => hne (append_eq_nil_iff.mp hnil).1, ?_⟩
      rw [← append_assoc]
      exact .cons hfirst hothers
    | some n =>
      rw [hf, bind_some, map_eq_none_iff] at h
      obtain ⟨more, hne, hmore⟩ := ih h
      refine ⟨more, hne, ?_⟩
      rw [← take_append_drop n bytes, append_assoc]
      exact .cons (Field.encodes_of_length? hf).1 hmore

/-! ### The header -/

def magic : List UInt8 := [0x1f, 0x8b, 0x08]

def fieldsOf (flg : UInt8) : List Field :=
  (if flg &&& 0x04 ≠ 0 then [.extra] else []) ++ (if flg &&& 0x08 ≠ 0 then [.text] else []) ++
    (if flg &&& 0x10 ≠ 0 then [.text] else []) ++ (if flg &&& 0x02 ≠ 0 then [.crc] else [])

/-- A header: the magic, the flags, six bytes of time, level and system, and the fields. -/
inductive IsHeader : List UInt8 → Prop
  | mk (flg : UInt8) (fixed fields : List UInt8) (hfixed : fixed.length = 6)
      (hfields : Encodes (fieldsOf flg) fields) : IsHeader (magic ++ flg :: (fixed ++ fields))

def EndsInHeader (bytes : List UInt8) : Prop := ∃ more, more ≠ [] ∧ IsHeader (bytes ++ more)

def WrongMagic (bytes : List UInt8) : Prop := ¬ bytes <+: magic ∧ ¬ magic <+: bytes

def headerLength? (bytes : List UInt8) : Option ℕ :=
  if magic <+: bytes ∧ 10 ≤ bytes.length then
    (length? (fieldsOf (bytes.getD 3 0)) (bytes.drop 10)).map (10 + ·)
  else none

theorem exists_isHeader (flg : UInt8) {fixed : List UInt8} (h : fixed.length < 6) :
    ∃ more, more ≠ [] ∧ IsHeader (magic ++ flg :: (fixed ++ more)) := by
  obtain ⟨fields, hfields⟩ := exists_encodes (fieldsOf flg)
  refine ⟨replicate (6 - fixed.length) 0 ++ fields, fun hnil => ?_, ?_⟩
  · have hzero := congrArg length (append_eq_nil_iff.mp hnil).1
    rw [length_replicate, length_nil] at hzero
    omega
  · rw [← append_assoc]
    refine .mk flg _ fields ?_ hfields
    rw [length_append, length_replicate]
    omega

theorem eq_of_magic (hmagic : magic <+: bytes) (hlen : 10 ≤ bytes.length) :
    ∃ flg fixed rest, fixed.length = 6 ∧ bytes = magic ++ flg :: (fixed ++ rest) := by
  obtain ⟨rest, rfl⟩ := hmagic
  match rest, hlen with
  | flg :: rest, hlen =>
    refine ⟨flg, rest.take 6, rest.drop 6, ?_, by rw [take_append_drop]⟩
    rw [length_take]
    rw [length_append, length_cons] at hlen
    change 10 ≤ 3 + _ at hlen
    omega

theorem headerLength?_append (flg : UInt8) {fixed : List UInt8} (hfixed : fixed.length = 6)
    (rest : List UInt8) :
    headerLength? (magic ++ flg :: (fixed ++ rest)) =
      (length? (fieldsOf flg) rest).map (10 + ·) := by
  have hdrop : (magic ++ flg :: (fixed ++ rest)).drop 10 = rest := by
    change (fixed ++ rest).drop 6 = rest
    rw [← hfixed, drop_left]
  have hcond : magic <+: magic ++ flg :: (fixed ++ rest) ∧
      10 ≤ (magic ++ flg :: (fixed ++ rest)).length := by
    refine ⟨prefix_append _ _, ?_⟩
    change 10 ≤ (fixed ++ rest).length + 1 + 1 + 1 + 1
    rw [length_append]
    omega
  rw [headerLength?, if_pos hcond, hdrop]
  rfl

theorem headerLength?_of_isHeader {header : List UInt8} (h : IsHeader header) (body : List UInt8) :
    headerLength? (header ++ body) = some header.length := by
  obtain ⟨flg, fixed, fields, hfixed, hfields⟩ := h
  have hlen : (magic ++ flg :: (fixed ++ fields)).length = 10 + fields.length := by
    simp [magic, hfixed]
    omega
  rw [append_assoc, cons_append, append_assoc, headerLength?_append flg hfixed,
    length?_of_encodes hfields, hlen]
  rfl

theorem magic_of_headerLength? (h : headerLength? bytes = some n) :
    magic <+: bytes ∧ 10 ≤ bytes.length := by
  rw [headerLength?] at h
  split at h
  case isTrue hcond => exact hcond
  case isFalse => cases h

theorem isHeader_of_headerLength? (h : headerLength? bytes = some n) :
    IsHeader (bytes.take n) ∧ n ≤ bytes.length := by
  obtain ⟨hmagic, hlen⟩ := magic_of_headerLength? h
  obtain ⟨flg, fixed, rest, hfixed, rfl⟩ := eq_of_magic hmagic hlen
  rw [headerLength?_append flg hfixed] at h
  obtain ⟨m, hm, rfl⟩ := map_eq_some_iff.mp h
  obtain ⟨hfields, hle⟩ := encodes_of_length? hm
  have htake : (magic ++ flg :: (fixed ++ rest)).take (10 + m) =
      magic ++ flg :: (fixed ++ rest.take m) := by
    have hsix : (fixed ++ rest).take (6 + m) = fixed ++ rest.take m := by
      rw [take_append, hfixed, Nat.add_sub_cancel_left,
        take_of_length_le (by rw [hfixed]; exact Nat.le_add_right 6 m)]
    rw [← hsix, show 10 + m = (6 + m) + 1 + 1 + 1 + 1 by omega]
    rfl
  refine ⟨htake ▸ .mk flg fixed _ hfixed hfields, ?_⟩
  simp [magic, hfixed]
  omega

/-- The reader finds no header exactly when the magic is wrong or the bytes end in the header. -/
theorem headerLength?_eq_none_iff (bytes : List UInt8) :
    headerLength? bytes = none ↔ WrongMagic bytes ∨ EndsInHeader bytes := by
  constructor
  · intro h
    by_cases hmagic : magic <+: bytes
    · refine .inr ?_
      by_cases hlen : 10 ≤ bytes.length
      · obtain ⟨flg, fixed, rest, hfixed, rfl⟩ := eq_of_magic hmagic hlen
        rw [headerLength?_append flg hfixed, map_eq_none_iff] at h
        obtain ⟨more, hne, hmore⟩ := ends_of_length? h
        refine ⟨more, hne, ?_⟩
        rw [append_assoc, cons_append, append_assoc]
        exact .mk flg fixed _ hfixed hmore
      · obtain ⟨rest, rfl⟩ := hmagic
        match rest, hlen with
        | [], _ =>
          obtain ⟨more, -, hmore⟩ := exists_isHeader 0 (show ([] : List UInt8).length < 6 by decide)
          exact ⟨0 :: more, cons_ne_nil _ _, hmore⟩
        | flg :: fixed, hlen =>
          have hfixed : fixed.length < 6 := by
            rw [length_append, length_cons] at hlen
            change ¬ 10 ≤ 3 + _ at hlen
            omega
          obtain ⟨more, hne, hmore⟩ := exists_isHeader flg hfixed
          refine ⟨more, hne, ?_⟩
          rw [append_assoc, cons_append]
          exact hmore
    · by_cases hstart : bytes <+: magic
      · obtain ⟨rest, hrest⟩ := hstart
        obtain ⟨more, -, hmore⟩ := exists_isHeader 0 (show ([] : List UInt8).length < 6 by decide)
        refine .inr ⟨rest ++ 0 :: more, by simp, ?_⟩
        rw [← append_assoc, hrest]
        exact hmore
      · exact .inl ⟨hstart, hmagic⟩
  · intro h
    by_contra hsome
    obtain ⟨n, hn⟩ := ne_none_iff_exists'.mp hsome
    obtain ⟨hheader, hle⟩ := isHeader_of_headerLength? hn
    rcases h with ⟨-, hmagic⟩ | ⟨more, hne, hmore⟩
    · exact hmagic (magic_of_headerLength? hn).1
    · -- the header that is there would go on behind it
      have hshort := headerLength?_of_isHeader hheader (bytes.drop n ++ more)
      rw [← append_assoc, take_append_drop] at hshort
      have hlong := headerLength?_of_isHeader hmore []
      rw [append_nil, hshort, some.injEq, length_append, length_take, Nat.min_eq_left hle] at hlong
      have hpos := length_pos_iff.mpr hne
      omega

end Bootbox.Lib.Gzip
