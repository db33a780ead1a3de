import Bootbox.Host.Axml
import Bootbox.Lib.AxmlFormat
import Mathlib.Data.List.Induction

/-!
The manifest parser on files in the format it is for. Strings and string pools are read
back in both encodings, and a document is read tag by tag (`parse_tight`), if its tags
have their attributes where the parser looks for them: right behind the fields of the
tag, twenty bytes each.
-/

namespace Bootbox.Host.Axml

open Lib.ByteMemory Lib.ByteRecord Lib.Unicode Lib.AxmlFormat List Option

variable {d : List UInt8} {p : Pool} {i size : ℕ} {e : Element}

/-! ### Strings -/

theorem getElem?_append_cons (pre rest : List UInt8) (b : UInt8) :
    (pre ++ b :: rest)[pre.length]? = some b := by
  rw [getElem?_append_right (Nat.le_refl _), Nat.sub_self, getElem?_cons_zero]

theorem skipLen_append {n : ℕ} {len : List UInt8} (h : ByteLen n len) (pre rest : List UInt8) :
    skipLen (pre ++ (len ++ rest)) pre.length = some (n, (pre ++ len).length) := by
  rw [skipLen]
  cases h with
  | short hn =>
    have hval : (UInt8.ofNat n).toNat = n := UInt8.toNat_ofNat_of_lt' (show n < 256 by omega)
    have hbit : ¬ (UInt8.ofNat n).toNat &&& 0x80 ≠ 0 := by
      rw [and_0x80, hval]
      omega
    rw [singleton_append, getElem?_append_cons, bind_eq_bind, bind_some,
      if_neg hbit, hval, length_append]
    rfl
  | long hn =>
    have hval : (UInt8.ofNat (0x80 + n / 0x100)).toNat = 0x80 + n / 0x100 :=
      UInt8.toNat_ofNat_of_lt' (show 0x80 + n / 0x100 < 256 by omega)
    have hlow : (UInt8.ofNat (n % 0x100)).toNat = n % 0x100 :=
      UInt8.toNat_ofNat_of_lt' (show n % 0x100 < 256 by omega)
    have hbit : (UInt8.ofNat (0x80 + n / 0x100)).toNat &&& 0x80 ≠ 0 := by
      rw [and_0x80, hval]
      omega
    have hsecond : (pre ++ UInt8.ofNat (0x80 + n / 0x100) ::
        (UInt8.ofNat (n % 0x100) :: rest))[pre.length + 1]? = some (UInt8.ofNat (n % 0x100)) := by
      rw [getElem?_append_right (Nat.le_add_right _ 1), Nat.add_sub_cancel_left]
      rfl
    have hlen : (0x80 + n / 0x100 &&& 0x7f) <<< 8 ||| n % 0x100 = n := by
      rw [show 0x7f = 2 ^ 7 - 1 from rfl, Nat.and_two_pow_sub_one_eq_mod,
        ← Nat.shiftLeft_add_eq_or_of_lt (show n % 0x100 < 2 ^ 8 by omega), Nat.shiftLeft_eq]
      omega
    rw [cons_append, singleton_append, getElem?_append_cons, bind_eq_bind,
      bind_some, if_pos hbit, hsecond, bind_some, hval, hlow, hlen, length_append]
    rfl

theorem exists_unit {p v : ℕ} (hp : p + 2 ≤ d.length) (hv : field d p 2 = v) :
    ∃ b₀ b₁, d[p]? = some b₀ ∧ d[p + 1]? = some b₁ ∧ b₀.toNat ||| b₁.toNat <<< 8 = v := by
  obtain ⟨b₀, b₁, h₀, h₁, -⟩ := take_drop_two hp
  refine ⟨b₀, b₁, h₀, h₁, ?_⟩
  have hread := u16?_eq d p
  rw [u16?, if_pos hp, h₀, h₁, hv] at hread
  exact some.inj hread

theorem unitLen_append {n : ℕ} {len : List UInt8} (h : UnitLen n len) (pre rest : List UInt8) :
    unitLen (pre ++ (len ++ rest)) pre.length = some (n, (pre ++ len).length) := by
  rw [unitLen]
  cases h with
  | short hn =>
    obtain ⟨b₀, b₁, h₀, h₁, hval⟩ := exists_unit
      (d := pre ++ (encode [(2, n)] ++ rest)) (p := pre.length)
      (by simp [width]) (field_at 0 rfl rfl rfl (show n < 256 ^ 2 by omega))
    have hbit : ¬ n &&& 0x8000 ≠ 0 := by
      rw [show 0x8000 = 2 ^ 15 from rfl, and_two_pow_ne_zero (by omega)]
      omega
    simp only [h₀, h₁, bind_eq_bind, bind_some, hval]
    rw [if_neg hbit, length_append, length_encode]
    rfl
  | long hn =>
    obtain ⟨b₀, b₁, h₀, h₁, hhigh⟩ := exists_unit
      (d := pre ++ (encode [(2, 0x8000 + n / 0x10000), (2, n % 0x10000)] ++ rest))
      (p := pre.length) (by simp only [length_append, length_encode]; simp [width]; omega)
      (field_at 0 rfl rfl rfl (show 0x8000 + n / 0x10000 < 256 ^ 2 by omega))
    obtain ⟨b₂, b₃, h₂, h₃, hlow⟩ := exists_unit
      (d := pre ++ (encode [(2, 0x8000 + n / 0x10000), (2, n % 0x10000)] ++ rest))
      (p := pre.length + 2) (by simp only [length_append, length_encode]; simp [width]; omega)
      (field_at 1 rfl rfl rfl (show n % 0x10000 < 256 ^ 2 by omega))
    have hbit : 0x8000 + n / 0x10000 &&& 0x8000 ≠ 0 := by
      rw [show 0x8000 = 2 ^ 15 from rfl, and_two_pow_ne_zero (by omega)]
      omega
    have hlen : (0x8000 + n / 0x10000 &&& 0x7fff) <<< 16 ||| n % 0x10000 = n := by
      rw [show 0x7fff = 2 ^ 15 - 1 from rfl, Nat.and_two_pow_sub_one_eq_mod,
        ← Nat.shiftLeft_add_eq_or_of_lt (show n % 0x10000 < 2 ^ 16 by omega), Nat.shiftLeft_eq]
      omega
    simp only [h₀, h₁, h₂, h₃, bind_eq_bind, bind_some, hhigh, hlow, hlen]
    rw [if_pos hbit, length_append, length_encode]
    rfl

theorem textAt_append {decode : List UInt8 → Option String} {bytes : List UInt8} {s : String}
    (h : decode bytes = some s) (pre rest : List UInt8) :
    textAt decode (pre ++ (bytes ++ rest)) pre.length bytes.length = some s := by
  have hfits : pre.length + bytes.length ≤ (pre ++ (bytes ++ rest)).length := by
    rw [length_append, length_append]
    omega
  rw [textAt, if_pos hfits, slice?_eq pre bytes rest rfl rfl rfl, bind_eq_bind, bind_some, h]
  rfl

theorem stringAt_stored {s : String} {isUTF8 : Bool} {bs : List UInt8} (h : Stored s isUTF8 bs)
    (pre rest : List UInt8) : stringAt isUTF8 (pre ++ (bs ++ rest)) pre.length = some s := by
  cases h with
  | @utf8 units bytes hunits hbytes =>
    have htext := textAt_append (utf8Text?_eq_some.mpr (rfl : utf8 s = utf8 s))
      (pre ++ units ++ bytes) ([0] ++ rest)
    have hcount := skipLen_append hunits pre (bytes ++ (utf8 s ++ [0]) ++ rest)
    have hbyteLen := skipLen_append hbytes (pre ++ units) (utf8 s ++ [0] ++ rest)
    simp only [append_assoc] at htext hcount hbyteLen ⊢
    rw [stringAt, if_pos rfl, hcount, bind_eq_bind, bind_some]
    dsimp only
    rw [hbyteLen, bind_some]
    exact htext
  | @utf16 units hunits =>
    have htext := textAt_append (utf16Text?_utf16 s) (pre ++ units) ([0, 0] ++ rest)
    have hlen := unitLen_append hunits pre (utf16 s ++ [0, 0] ++ rest)
    rw [length_utf16, Nat.mul_comm] at htext
    simp only [append_assoc] at htext hlen ⊢
    rw [stringAt, if_neg Bool.false_ne_true, hlen, bind_eq_bind, bind_some]
    exact htext

/-! ### The string pool -/

theorem mapM_range {α : Type*} {f : ℕ → Option α} (xs : List α)
    (h : ∀ i (hi : i < xs.length), f i = some xs[i]) : (range xs.length).mapM f = some xs := by
  induction xs using reverseRecOn with
  | nil => rfl
  | append_singleton xs x ih =>
    have hlast : f xs.length = some x := by
      rw [h xs.length (by simp), getElem_concat_length rfl]
    have hinit : (range xs.length).mapM f = some xs := by
      refine ih fun i hi => ?_
      rw [h i (by simp; omega), getElem_append_left hi]
    rw [length_append, length_singleton, range_succ, mapM_append, hinit, mapM_cons, hlast]
    rfl

theorem field_offsets (p : Pool) (pre rest : List UInt8) (hi : i < p.entries.length) :
    field (pre ++ (p.bytes ++ rest)) (pre.length + 28 + i * 4) 4 = p.entries[i].2 := by
  have hd : pre ++ (p.bytes ++ rest) =
      (pre ++ encode p.header) ++ (encode p.offsets ++ (p.body ++ rest)) := by
    simp only [Pool.bytes, append_assoc]
  have hlen : (pre ++ encode p.header).length = pre.length + 28 := by
    rw [length_append, length_encode]
    rfl
  have hget : p.offsets[i]? = some (4, p.entries[i].2) := by
    simp [Pool.offsets, getElem?_eq_getElem hi]
  have hwidth : width (p.offsets.take i) = i * 4 := by
    rw [Pool.offsets, ← map_take, width_map, length_take, length_map,
      Nat.min_eq_left (Nat.le_of_lt hi)]
  rw [← hwidth]
  exact field_at i hd hlen hget (p.offset_lt _ (getElem_mem hi))

theorem stringAt_entry (p : Pool) (pre rest : List UInt8) {e : String × ℕ} (he : e ∈ p.entries) :
    stringAt (p.flags &&& 0x100 ≠ 0) (pre ++ (p.bytes ++ rest))
      (pre.length + (28 + p.entries.length * 4 + p.between) + e.2) = some e.1 := by
  obtain ⟨bs, hbs, hat⟩ := p.stored e he
  obtain ⟨a, b, hbody, ha⟩ := exists_append_of_drop hat hbs.ne_nil
  have hread :=
    stringAt_stored hbs (pre ++ (encode p.header ++ (encode p.offsets ++ a))) (b ++ rest)
  have hlen : (pre ++ (encode p.header ++ (encode p.offsets ++ a))).length =
      pre.length + (28 + p.entries.length * 4 + p.between) + e.2 := by
    simp only [length_append, length_encode, p.width_offsets, ha]
    rw [show width p.header = 28 from rfl]
    omega
  rw [hlen] at hread
  rw [Pool.bytes, hbody]
  simpa only [append_assoc] using hread

theorem parseStringPool_bytes (p : Pool) (pre rest : List UInt8) :
    parseStringPool (pre ++ (p.bytes ++ rest)) pre.length = some p.strings := by
  have hd : pre ++ (p.bytes ++ rest) =
      pre ++ (encode p.header ++ (encode p.offsets ++ p.body ++ rest)) := by
    rw [Pool.bytes, append_assoc]
  have hstart := p.start_lt
  have hcount : field (pre ++ (p.bytes ++ rest)) (pre.length + 8) 4 = p.entries.length :=
    field_at 3 hd rfl rfl (by omega)
  have hflags : field (pre ++ (p.bytes ++ rest)) (pre.length + 16) 4 = p.flags :=
    field_at 5 hd rfl rfl p.flags_lt
  have hstrings : field (pre ++ (p.bytes ++ rest)) (pre.length + 20) 4 =
      28 + p.entries.length * 4 + p.between := field_at 6 hd rfl rfl p.start_lt
  rw [parseStringPool_eq, hcount, hflags, hstrings]
  have hlen : p.entries.length = p.strings.length := (length_map _).symm
  rw [hlen]
  refine mapM_range p.strings fun i hi => ?_
  rw [← hlen, field_offsets p pre rest (hlen ▸ hi), stringAt_entry p pre rest (getElem_mem _)]
  exact congrArg some (getElem_map Prod.fst).symm

/-! ### Tags -/

def textOf (p : Pool) : Value → String
  | .text index _ _ => p.string index
  | .int _ _ => ""

def attrOf (p : Pool) (a : Attribute) : String × String × ℕ :=
  (p.string a.name, textOf p a.value, a.value.data)

theorem raw_spec {a : Attribute} (h : a.Fits p size) :
    a.value.raw < 256 ^ 4 ∧ a.value.data < 256 ^ 4 ∧
      (if a.value.raw ≠ 0xFFFFFFFF then str p.strings a.value.raw else "") =
        textOf p a.value := by
  have hstart := p.start_lt
  cases hvalue : a.value with
  | text index typed data =>
    obtain ⟨hindex, hdata⟩ := h.text index typed data hvalue
    refine ⟨?_, hdata, if_pos ?_⟩ <;> simp only [Value.raw] <;> omega
  | int kind n =>
    refine ⟨?_, ?_, if_neg fun hne => hne rfl⟩
    · change 0xFFFFFFFF < 256 ^ 4
      decide
    · simp only [Value.data]
      omega

theorem readAttrs_step {a : Attribute} (h : a.Fits p size) {pre rest : List UInt8}
    (hd : d = pre ++ (encode a.fields ++ rest)) {base : ℕ} (hpre : pre.length = base + i * 20)
    (n : ℕ) (attrs : Attrs) :
    readAttrs d p.strings base (n + 1) i attrs =
      readAttrs d p.strings base n (i + 1) (attrOf p a :: attrs) := by
  obtain ⟨hraw, hdata, htext⟩ := raw_spec h
  have hstart := p.start_lt
  have hname := h.name
  have hnameI : field d (base + i * 20 + 4) 4 = a.name := field_at 1 hd hpre rfl (by omega)
  have hrawValue : field d (base + i * 20 + 8) 4 = a.value.raw := field_at 2 hd hpre rfl hraw
  have htypedVal : field d (base + i * 20 + 16) 4 = a.value.data := field_at 4 hd hpre rfl hdata
  have hfits : base + i * 20 + 20 ≤ d.length := by
    rw [hd, length_append, length_append, length_encode, hpre]
    rw [show width a.fields = 20 from rfl]
    omega
  rw [readAttrs]
  simp only [u32?_eq, bind_eq_bind, bind_some, hnameI, hrawValue, htypedVal, htext]
  rw [if_pos hfits]
  rfl

theorem readAttrs_flatMap (as : List Attribute) (h : ∀ a ∈ as, a.Fits p 20) (pre rest : List UInt8)
    {base : ℕ} (hpre : pre.length = base + i * 20) (attrs : Attrs) :
    readAttrs (pre ++ (as.flatMap Attribute.bytes ++ rest)) p.strings base as.length i attrs =
      some ((as.map (attrOf p)).reverse ++ attrs) := by
  induction as generalizing pre i attrs with
  | nil => rfl
  | cons a as ih =>
    have ha := h a mem_cons_self
    have hfiller : a.filler = [] := length_eq_zero_iff.mp (by have := ha.filler; omega)
    have hbytes : a.bytes = encode a.fields := by
      rw [Attribute.bytes, hfiller, append_nil]
    have hlen : (pre ++ encode a.fields).length = base + (i + 1) * 20 := by
      rw [length_append, length_encode, hpre, show width a.fields = 20 from rfl]
      omega
    have hrest := ih (fun b hb => h b (mem_cons_of_mem _ hb)) (pre ++ encode a.fields) hlen
      (attrOf p a :: attrs)
    rw [flatMap_cons, hbytes, append_assoc, length_cons, readAttrs_step ha rfl hpre]
    rw [append_assoc] at hrest
    rw [hrest, map_cons, reverse_cons, append_assoc, singleton_append]

/-- The name and the number of attributes of a tag are found; where the attributes are
sought does not depend on it. -/
theorem parseStartTag_bytes (h : e.Fits p) (pre rest : List UInt8) (r : Result) :
    parseStartTag (pre ++ (e.bytes ++ rest)) p.strings pre.length r =
      (readAttrs (pre ++ (e.bytes ++ rest)) p.strings (pre.length + 36) e.attributes.length 0
        []).map fun attrs => enter (p.string e.name) attrs r := by
  have hd : pre ++ (e.bytes ++ rest) = pre ++ (encode e.header ++
      (e.gap ++ e.attributes.flatMap Attribute.bytes ++ rest)) := by
    rw [Element.bytes, append_assoc]
  have hstart := p.start_lt
  have hname := h.name
  have hnameIdx : field (pre ++ (e.bytes ++ rest)) (pre.length + 20) 4 = e.name :=
    field_at 6 hd rfl rfl (by omega)
  have hcount : field (pre ++ (e.bytes ++ rest)) (pre.length + 28) 2 = e.attributes.length :=
    field_at 9 hd rfl rfl h.count_lt
  rw [parseStartTag]
  simp only [u16?_eq, u32?_eq, bind_eq_bind, bind_some, hnameIdx, hcount]
  cases readAttrs (pre ++ (e.bytes ++ rest)) p.strings (pre.length + 36)
    e.attributes.length 0 [] <;>
    rfl

def attrsOf (p : Pool) (e : Element) : Attrs := (e.attributes.map (attrOf p)).reverse

theorem parseStartTag_tight (h : e.Fits p) (hstart : e.attributeStart = 20)
    (hsize : e.attributeSize = 20) (pre rest : List UInt8) (r : Result) :
    parseStartTag (pre ++ (e.bytes ++ rest)) p.strings pre.length r =
      some (enter (p.string e.name) (attrsOf p e) r) := by
  have hgap : e.gap = [] := length_eq_zero_iff.mp (by have := h.gap; omega)
  have hlen : (pre ++ encode e.header).length = pre.length + 36 + 0 * 20 := by
    rw [length_append, length_encode]
    rfl
  have hattrs := readAttrs_flatMap e.attributes (fun a ha => hsize ▸ h.attributes a ha)
    (pre ++ encode e.header) rest hlen []
  have hd : pre ++ (e.bytes ++ rest) =
      (pre ++ encode e.header) ++ (e.attributes.flatMap Attribute.bytes ++ rest) := by
    simp only [Element.bytes, hgap, nil_append, append_assoc]
  rw [parseStartTag_bytes h, hd, hattrs, append_nil]
  rfl

/-! ### Documents -/

theorem parseChunks_step {pos type : ℕ} (hpos : pos + 8 ≤ d.length) (htype : field d pos 2 = type)
    (hsize : field d (pos + 4) 4 = size) (hpositive : 0 < size) (strings : List String)
    (r : Result) : parseChunks d pos strings r =
      (parseChunk d pos type strings r).bind fun x => parseChunks d (pos + size) x.1 x.2 := by
  subst htype hsize
  rw [parseChunks, dif_pos hpos]
  simp only [u16?_eq, u32?_eq, bind_eq_bind, bind_some]
  rw [dif_neg (Nat.not_le.mpr hpositive)]

def collect (p : Pool) (es : List Element) (r : Result) : Result :=
  es.foldl (fun r e => enter (p.string e.name) (attrsOf p e) r) r

theorem parseChunks_element (h : e.Fits p) (pre rest : List UInt8) (r : Result) :
    parseChunks (pre ++ (e.bytes ++ rest)) pre.length p.strings r =
      (parseStartTag (pre ++ (e.bytes ++ rest)) p.strings pre.length r).bind
        (parseChunks (pre ++ (e.bytes ++ rest)) (pre ++ e.bytes).length p.strings) := by
  have hd : pre ++ (e.bytes ++ rest) = pre ++ (encode e.header ++
      (e.gap ++ e.attributes.flatMap Attribute.bytes ++ rest)) := by
    rw [Element.bytes, append_assoc]
  have hpositive : 0 < e.size := by
    rw [Element.size]
    omega
  have hpos : pre.length + 8 ≤ (pre ++ (e.bytes ++ rest)).length := by
    rw [length_append, length_append, e.length_bytes, Element.size]
    omega
  rw [parseChunks_step hpos (field_at 0 hd rfl rfl (by decide))
    (field_at 2 hd rfl rfl h.size_lt) hpositive, parseChunk, if_neg (by decide), if_pos rfl,
    length_append, e.length_bytes]
  cases parseStartTag (pre ++ (e.bytes ++ rest)) p.strings pre.length r <;> rfl

theorem parseChunks_other {type headerSize : ℕ} {body : List UInt8}
    (h : (Chunk.other type headerSize body).Fits p) (pre rest : List UInt8) (strings : List String)
    (r : Result) :
    parseChunks (pre ++ ((Chunk.other type headerSize body).bytes ++ rest)) pre.length strings r =
      parseChunks (pre ++ ((Chunk.other type headerSize body).bytes ++ rest))
        (pre ++ (Chunk.other type headerSize body).bytes).length strings r := by
  obtain ⟨htype, hpool, htag, hsize⟩ := h
  have hd : pre ++ ((Chunk.other type headerSize body).bytes ++ rest) =
      pre ++ (encode [(2, type), (2, headerSize), (4, 8 + body.length)] ++ (body ++ rest)) := by
    rw [Chunk.bytes, append_assoc]
  have hlen : (Chunk.other type headerSize body).bytes.length = 8 + body.length := by
    rw [Chunk.bytes, length_append, length_encode]
    rfl
  have hpos : pre.length + 8 ≤
      (pre ++ ((Chunk.other type headerSize body).bytes ++ rest)).length := by
    rw [length_append, length_append, hlen]
    omega
  rw [parseChunks_step hpos (field_at 0 hd rfl rfl htype) (field_at 2 hd rfl rfl hsize)
    (by omega), parseChunk, if_neg hpool, if_neg htag, bind_some, length_append, hlen]

theorem parseChunks_flatMap (cs : List Chunk) (hfits : ∀ c ∈ cs, c.Fits p)
    (htight : ∀ e ∈ cs.filterMap Chunk.element?, e.attributeStart = 20 ∧ e.attributeSize = 20)
    (pre : List UInt8) (r : Result) :
    parseChunks (pre ++ cs.flatMap Chunk.bytes) pre.length p.strings r =
      some (collect p (cs.filterMap Chunk.element?) r) := by
  induction cs generalizing pre r with
  | nil =>
    rw [parseChunks, dif_neg]
    · rfl
    · rw [flatMap_nil, append_nil]
      omega
  | cons c cs ih =>
    have hrest := ih (fun c hc => hfits c (mem_cons_of_mem _ hc))
    have hfit := hfits c mem_cons_self
    rw [flatMap_cons]
    cases c with
    | element e =>
      obtain ⟨hstart, hsize⟩ := htight e (by simp [Chunk.element?])
      have hnext := hrest (fun e' he' => htight e' (by simp [Chunk.element?, he']))
        (pre ++ e.bytes)
      rw [append_assoc] at hnext
      rw [Chunk.bytes, parseChunks_element hfit, parseStartTag_tight hfit hstart hsize,
        bind_some, hnext]
      rfl
    | other type headerSize body =>
      have hnext := hrest (fun e' he' => htight e' he')
        (pre ++ (Chunk.other type headerSize body).bytes)
      rw [append_assoc] at hnext
      rw [parseChunks_other hfit, hnext]
      rfl

theorem parse_bytes (D : Document) :
    parse D.bytes = parseChunks D.bytes (encode D.header ++ D.pool.bytes).length
      D.pool.strings {} := by
  have hheader : (encode D.header).length = 8 := by
    rw [length_encode]
    rfl
  have hdoc : D.bytes = [] ++ (encode D.header ++ D.content) := rfl
  have hd : D.bytes = encode D.header ++ (D.pool.bytes ++ D.chunks.flatMap Chunk.bytes) := rfl
  have hd' : D.bytes = encode D.header ++ (encode D.pool.header ++
      (encode D.pool.offsets ++ D.pool.body ++ D.chunks.flatMap Chunk.bytes)) := by
    rw [hd, Pool.bytes, append_assoc]
  have hlen : D.bytes.length = 8 + D.pool.bytes.length + (D.chunks.flatMap Chunk.bytes).length := by
    rw [hd, length_append, length_append, hheader, Nat.add_assoc]
  have hpool := D.pool.length_bytes
  have htype : field D.bytes 0 2 = 0x0003 := field_at 0 hdoc rfl rfl (by decide)
  have hchunk : field D.bytes 8 2 = 0x0001 := field_at 0 hd' hheader rfl (by decide)
  have hsize : field D.bytes (8 + 4) 4 = 28 + D.pool.entries.length * 4 + D.pool.body.length :=
    field_at 2 hd' hheader rfl D.pool.size_lt
  have hstrings : parseStringPool D.bytes 8 = some D.pool.strings := by
    rw [hd, ← hheader]
    exact parseStringPool_bytes D.pool _ _
  rw [parse]
  simp only [u16?_eq, bind_eq_bind, bind_some, htype]
  rw [if_pos ⟨by omega, trivial⟩,
    parseChunks_step (by omega) hchunk hsize (by omega), parseChunk, if_pos rfl, hstrings,
    length_append, hheader, hpool]
  rfl

theorem parse_tight (D : Document)
    (h : ∀ e ∈ D.tags, e.attributeStart = 20 ∧ e.attributeSize = 20) :
    parse D.bytes = some (collect D.pool D.tags {}) := by
  have hd : D.bytes = (encode D.header ++ D.pool.bytes) ++ D.chunks.flatMap Chunk.bytes := by
    rw [Document.bytes, Document.content, append_assoc]
  rw [parse_bytes, hd]
  exact parseChunks_flatMap D.chunks D.fits h _ _

end Bootbox.Host.Axml
