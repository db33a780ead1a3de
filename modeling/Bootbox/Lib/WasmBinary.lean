import Bootbox.Lib.Leb128

/-!
Decoding a WebAssembly module section by section.

A decoder takes bytes from the front of its input and hands the rest on. `Reads p bs x`
says that `p` takes exactly `bs`, whatever follows, and finds `x`; sequences and vectors of
readable parts are readable. A section announces the number of its bytes and a vector the
number of its entries: the entries have to fill the section exactly.
-/

namespace Bootbox.Lib.WasmBinary

variable {v k : ℕ}

abbrev Byte := BitVec 8

abbrev Decoder (α : Type) := StateT (List Byte) Option α

variable {α β : Type}

/-- The decoder takes exactly these bytes and finds this value. -/
def Reads (p : Decoder α) (bs : List Byte) (x : α) : Prop :=
  ∀ rest, p.run (bs ++ rest) = some (x, rest)

def byte : Decoder Byte := fun
  | [] => none
  | b :: bs => some (b, bs)

def expect (b : Byte) : Decoder Unit := do
  let c ← byte
  if c = b then pure () else failure

/-- An unsigned number of at most `k` groups of seven bits. -/
def groups : ℕ → Decoder ℕ
  | 0 => failure
  | k + 1 => do
      let b ← byte
      if b.toNat < 128 then pure b.toNat
      else do
        let v ← groups k
        pure (b.toNat - 128 + 128 * v)

def u32 : Decoder ℕ := do
  let v ← groups 5
  if v < 2 ^ 32 then pure v else failure

/-- A signed number of at most `k` groups: bit 6 of the last one is its sign. -/
def signedGroups : ℕ → Decoder ℤ
  | 0 => failure
  | k + 1 => do
      let b ← byte
      if b.toNat < 64 then pure b.toNat
      else if b.toNat < 128 then pure (b.toNat - 128)
      else do
        let v ← signedGroups k
        pure (b.toNat - 128 + 128 * v)

/-- A signed number of `n` bits. -/
def signed (n : ℕ) : Decoder ℤ := do
  let v ← signedGroups ((n + 6) / 7)
  if -2 ^ (n - 1) ≤ v ∧ v < 2 ^ (n - 1) then pure v else failure

/-- The next `n` bytes. -/
def takeBytes (n : ℕ) : Decoder (List Byte) := fun bs =>
  if n ≤ bs.length then some (bs.take n, bs.drop n) else none

def times (p : Decoder α) : ℕ → Decoder (List α)
  | 0 => pure []
  | n + 1 => do
      let x ← p
      let xs ← times p n
      pure (x :: xs)

def vec (p : Decoder α) : Decoder (List α) := do
  let n ← u32
  times p n

/-- A part that announces its size and is decoded by itself, to its end. -/
def sized (p : Decoder α) : Decoder α := do
  let n ← u32
  let content ← takeBytes n
  match p.run content with
  | some (x, []) => pure x
  | _ => failure

def sectionOf (id : Byte) (p : Decoder α) : Decoder α := do
  expect id
  sized p

inductive ValType
  | i32 | i64 | f32 | f64 | v128
  deriving DecidableEq

structure FuncType where
  params : List ValType
  results : List ValType
  deriving DecidableEq

/-- What is imported: a function of a type, a table of functions, a shared memory. -/
inductive ImportDesc
  | func (typeIdx : ℕ)
  | table (min : ℕ)
  | sharedMemory (min max : ℕ)
  deriving DecidableEq

def ImportDesc.isFunc : ImportDesc → Bool
  | .func _ => true
  | _ => false

structure Import where
  moduleName : List Byte
  name : List Byte
  desc : ImportDesc
  deriving DecidableEq

structure Global where
  type : ValType
  init : Byte
  deriving DecidableEq

structure Export where
  name : List Byte
  funcIdx : ℕ
  deriving DecidableEq

/-- A function: its locals and the bytes of its instructions. -/
structure Body where
  locals : List (ℕ × ValType)
  code : List Byte
  deriving DecidableEq

structure Module where
  types : List FuncType
  imports : List Import
  funcs : List ℕ
  globals : List Global
  exports : List Export
  bodies : List Body
  deriving DecidableEq

/-- The indices of a module are in range, and every function has a body. -/
structure Module.WellFormed (m : Module) : Prop where
  imports_lt : ∀ i ∈ m.imports, ∀ t, i.desc = .func t → t < m.types.length
  funcs_lt : ∀ t ∈ m.funcs, t < m.types.length
  exports_lt : ∀ e ∈ m.exports, e.funcIdx <
    (m.imports.filter fun i => i.desc.isFunc).length + m.funcs.length
  bodies_length : m.bodies.length = m.funcs.length

def valType : Decoder ValType := do
  match (← byte).toNat with
  | 0x7f => pure .i32
  | 0x7e => pure .i64
  | 0x7d => pure .f32
  | 0x7c => pure .f64
  | 0x7b => pure .v128
  | _ => failure

def ValType.code : ValType → Byte
  | .i32 => 0x7f#8
  | .i64 => 0x7e#8
  | .f32 => 0x7d#8
  | .f64 => 0x7c#8
  | .v128 => 0x7b#8

def funcType : Decoder FuncType := do
  expect 0x60#8
  let params ← vec valType
  let results ← vec valType
  pure ⟨params, results⟩

def name : Decoder (List Byte) := vec byte

def importDesc : Decoder ImportDesc := do
  match (← byte).toNat with
  | 0 => .func <$> u32
  | 1 => do
      expect 0x70#8
      expect 0x00#8
      .table <$> u32
  | 2 => do
      expect 0x03#8
      let min ← u32
      .sharedMemory min <$> u32
  | _ => failure

def importEntry : Decoder Import := do
  let moduleName ← name
  let entry ← name
  let desc ← importDesc
  pure ⟨moduleName, entry, desc⟩

def globalEntry : Decoder Global := do
  let type ← valType
  expect 0x01#8
  expect 0x42#8
  let init ← byte
  expect 0x0b#8
  if init.toNat < 128 then pure ⟨type, init⟩ else failure

def exportEntry : Decoder Export := do
  let entry ← name
  expect 0x00#8
  let funcIdx ← u32
  pure ⟨entry, funcIdx⟩

def localGroup : Decoder (ℕ × ValType) := do
  let n ← u32
  let type ← valType
  pure (n, type)

/-- A function body, to the end of its bytes: the instructions end with `end`. -/
def body : Decoder Body := do
  let locals ← vec localGroup
  let code ← get
  set ([] : List Byte)
  if code.getLast? = some 0x0b#8 then pure ⟨locals, code⟩ else failure

def preamble : List Byte := [0x00#8, 0x61#8, 0x73#8, 0x6d#8, 0x01#8, 0x00#8, 0x00#8, 0x00#8]

def typeSection : Decoder (List FuncType) := sectionOf 0x01#8 (vec funcType)

def importSection : Decoder (List Import) := sectionOf 0x02#8 (vec importEntry)

def funcSection : Decoder (List ℕ) := sectionOf 0x03#8 (vec u32)

def globalSection : Decoder (List Global) := sectionOf 0x06#8 (vec globalEntry)

def exportSection : Decoder (List Export) := sectionOf 0x07#8 (vec exportEntry)

def codeSection : Decoder (List Body) := sectionOf 0x0a#8 (vec (sized body))

def laterSections (types : List FuncType) (imports : List Import) : Decoder Module := do
  let funcs ← funcSection
  let globals ← globalSection
  let exports ← exportSection
  let bodies ← codeSection
  pure ⟨types, imports, funcs, globals, exports, bodies⟩

/-- A module with a type, import, function, global, export and code section. -/
def wasmModule : Decoder Module := do
  preamble.forM expect
  let types ← typeSection
  let imports ← importSection
  laterSections types imports

/-- The module a byte string is, when nothing follows it. -/
def decode (bs : List Byte) : Option Module :=
  match wasmModule.run bs with
  | some (m, []) => some m
  | _ => none

/-! ### What is read -/

variable {p : Decoder α} {q : α → Decoder β} {bs cs : List Byte} {x : α} {y : β}

theorem reads_pure (x : α) : Reads (pure x) [] x := fun _ => rfl

theorem reads_byte (b : Byte) : Reads byte [b] b := fun _ => rfl

theorem reads_expect (b : Byte) : Reads (expect b) [b] () := by
  intro rest
  change (if b = b then pure () else failure : Decoder Unit).run rest = _
  rw [if_pos rfl]
  rfl

theorem Reads.run_bind (hp : Reads p bs x) (rest : List Byte) :
    (p >>= q).run (bs ++ rest) = (q x).run rest := by
  rw [StateT.run_bind, hp rest]
  rfl

theorem Reads.bind (hp : Reads p bs x) (hq : Reads (q x) cs y) :
    Reads (p >>= q) (bs ++ cs) y := by
  intro rest
  rw [List.append_assoc, hp.run_bind, hq rest]

variable {b : Byte}

/-- A part of one byte. -/
theorem Reads.cons (hp : Reads p [b] x) (hq : Reads (q x) cs y) : Reads (p >>= q) (b :: cs) y :=
  hp.bind hq

theorem Reads.map {f : α → β} (hp : Reads p bs x) : Reads (f <$> p) bs (f x) := by
  intro rest
  rw [StateT.run_map, hp rest]
  rfl

theorem Reads.times {ι : Type} (is : List ι) (enc : ι → List Byte) (val : ι → α)
    (h : ∀ i ∈ is, Reads p (enc i) (val i)) :
    Reads (times p is.length) (is.flatMap enc) (is.map val) := by
  induction is with
  | nil => exact reads_pure _
  | cons i is ih =>
    have hi := h i List.mem_cons_self
    have his := ih fun j hj => h j (List.mem_cons_of_mem _ hj)
    have hnil : Reads (pure (val i :: is.map val)) [] (val i :: is.map val) := reads_pure _
    have htail := his.bind (q := fun xs => pure (val i :: xs)) hnil
    rw [List.append_nil] at htail
    exact hi.bind htail

theorem reads_takeBytes (bs : List Byte) : Reads (takeBytes bs.length) bs bs := by
  intro rest
  simp [takeBytes, StateT.run]

variable {ns : List Byte}

theorem Reads.vec {ι : Type} (is : List ι) (enc : ι → List Byte) (val : ι → α)
    (hn : Reads u32 ns is.length) (h : ∀ i ∈ is, Reads p (enc i) (val i)) :
    Reads (vec p) (ns ++ is.flatMap enc) (is.map val) :=
  hn.bind (Reads.times is enc val h)

theorem Reads.sized (hn : Reads u32 ns bs.length) (h : p.run bs = some (x, [])) :
    Reads (sized p) (ns ++ bs) x := by
  refine hn.bind ?_
  have hb : Reads (takeBytes bs.length >>= fun content =>
      match p.run content with
      | some (x, []) => pure x
      | _ => failure) (bs ++ []) x := by
    refine (reads_takeBytes bs).bind ?_
    rw [h]
    exact reads_pure x
  simpa using hb

theorem Reads.sectionOf (id : Byte) (hn : Reads u32 ns bs.length) (h : p.run bs = some (x, [])) :
    Reads (sectionOf id p) ([id] ++ (ns ++ bs)) x := by
  have hs : Reads (WasmBinary.sized p) (ns ++ bs) x := hn.sized h
  exact (reads_expect id).bind hs

/-- A section that was decoded: its bytes were, by themselves. -/
theorem run_sectionOf_eq_some {id : Byte} {rest rest' : List Byte} (hn : Reads u32 ns bs.length)
    (h : (sectionOf id p).run ([id] ++ (ns ++ bs) ++ rest) = some (x, rest')) :
    p.run bs = some (x, []) := by
  rw [List.append_assoc, sectionOf, (reads_expect id).run_bind, List.append_assoc, sized,
    hn.run_bind, (reads_takeBytes bs).run_bind] at h
  split at h
  · cases h
    assumption
  · cases h

theorem Reads.run_self (hp : Reads p bs x) : p.run bs = some (x, []) := by
  simpa using hp []

theorem times_add (p : Decoder α) (m n : ℕ) :
    times p (m + n) = (do
      let xs ← times p m
      let ys ← times p n
      pure (xs ++ ys)) := by
  induction m with
  | zero => simp [times]
  | succ m ih =>
    rw [Nat.succ_add, times, times, ih]
    simp

/-! ### Numbers -/

theorem toNat_ofNat_lt (h : v < 256) : (BitVec.ofNat 8 v).toNat = v := by
  rw [BitVec.toNat_ofNat]
  omega

theorem run_groups_last (hb : b.toNat < 128) (rest : List Byte) :
    (groups (k + 1)).run (b :: rest) = some (b.toNat, rest) := by
  change ((byte >>= fun b => if b.toNat < 128 then pure b.toNat else
    groups k >>= fun v => pure (b.toNat - 128 + 128 * v)) : Decoder ℕ).run ([b] ++ rest) = _
  rw [(reads_byte b).run_bind, if_pos hb]
  rfl

theorem run_groups_more (hb : 128 ≤ b.toNat) (rest : List Byte) :
    (groups (k + 1)).run (b :: rest) =
      ((groups k).run rest).map fun r => (b.toNat - 128 + 128 * r.1, r.2) := by
  change ((byte >>= fun b => if b.toNat < 128 then pure b.toNat else
    groups k >>= fun v => pure (b.toNat - 128 + 128 * v)) : Decoder ℕ).run ([b] ++ rest) = _
  rw [(reads_byte b).run_bind, if_neg (by omega), StateT.run_bind]
  cases (groups k).run rest <;> rfl

theorem reads_groups_last (hb : b.toNat < 128) : Reads (groups (k + 1)) [b] b.toNat :=
  fun rest => run_groups_last hb rest

theorem reads_groups_more (hb : 128 ≤ b.toNat) (h : Reads (groups k) bs v) :
    Reads (groups (k + 1)) (b :: bs) (b.toNat - 128 + 128 * v) := by
  intro rest
  rw [List.cons_append, run_groups_more hb, h rest]
  rfl

theorem reads_u32 (h : Reads (groups 5) bs v) (hv : v < 2 ^ 32) : Reads u32 bs v := by
  have hu : Reads u32 (bs ++ []) v := by
    refine h.bind ?_
    rw [if_pos hv]
    exact reads_pure v
  simpa using hu

theorem reads_u32_byte (hb : b.toNat < 128) : Reads u32 [b] b.toNat :=
  reads_u32 (reads_groups_last hb) (by omega)

theorem reads_groups_fill (h : v < 128 ^ (k + 1)) :
    Reads (groups (k + 1)) (Leb128.fill (Leb128.blank k) v) v := by
  induction k generalizing v with
  | zero =>
    have hv : v < 128 := by simpa using h
    have hb : (0x00#8 ||| BitVec.ofNat 8 (v % 128)).toNat = v := by
      rw [Leb128.toNat_or_last _ (by omega)]
      omega
    have hl := reads_groups_last (k := 0) (b := 0x00#8 ||| BitVec.ofNat 8 (v % 128)) (by omega)
    rw [hb] at hl
    simpa [Leb128.blank, Leb128.fill] using hl
  | succ k ih =>
    have hb := Leb128.toNat_or_continuation (v % 128) (by omega)
    have hrest := @ih (v / 128) (by rw [pow_succ] at h; omega)
    have hm := reads_groups_more (b := 0x80#8 ||| BitVec.ofNat 8 (v % 128)) (by omega) hrest
    rwa [hb, show 128 + v % 128 - 128 + 128 * (v / 128) = v by omega,
      ← Leb128.fill_blank_succ] at hm

theorem reads_u32_fill (h : v < 2 ^ 32) : Reads u32 (Leb128.fill (Leb128.blank 4) v) v :=
  reads_u32 (reads_groups_fill (h.trans (by norm_num))) h

variable {x : ℤ}

theorem reads_signedGroups_last (hx : -64 ≤ x ∧ x < 64) (hb : (b.toNat : ℤ) = x % 128) :
    Reads (signedGroups (k + 1)) [b] x := by
  intro rest
  rw [signedGroups, (reads_byte b).run_bind]
  by_cases hneg : x < 0
  · rw [if_neg (by omega), if_pos (by omega), show (b.toNat - 128 : ℤ) = x by omega]
    rfl
  · rw [if_pos (by omega), show (b.toNat : ℤ) = x by omega]
    rfl

theorem reads_signedGroups_more (hb : (b.toNat : ℤ) = 128 + x % 128)
    (h : Reads (signedGroups k) bs (x / 128)) : Reads (signedGroups (k + 1)) (b :: bs) x := by
  intro rest
  rw [signedGroups, ← List.singleton_append, List.append_assoc, (reads_byte b).run_bind,
    if_neg (by omega), if_neg (by omega), h.run_bind,
    show (b.toNat - 128 + 128 * (x / 128) : ℤ) = x by omega]
  rfl

theorem reads_signedGroups_fill (j : ℕ) (h : v < 64 * 128 ^ k) :
    Reads (signedGroups (j + k + 1)) (Leb128.fill (Leb128.blank k) v) v := by
  induction k generalizing v with
  | zero =>
    have hb := Leb128.toNat_or_last (v % 128) (by omega)
    have hl := reads_signedGroups_last (k := j) (x := v)
      (b := 0x00#8 ||| BitVec.ofNat 8 (v % 128)) (by omega) (by omega)
    simpa [Leb128.blank, Leb128.fill] using hl
  | succ k ih =>
    have hb := Leb128.toNat_or_continuation (v % 128) (by omega)
    have hrest := @ih (v / 128) (by rw [pow_succ] at h; omega)
    rw [Int.natCast_div] at hrest
    rw [Leb128.fill_blank_succ]
    exact reads_signedGroups_more (by omega) hrest

theorem reads_signed {n : ℕ} (h : Reads (signedGroups ((n + 6) / 7)) bs x)
    (hx : -2 ^ (n - 1) ≤ x ∧ x < 2 ^ (n - 1)) : Reads (signed n) bs x := by
  have hs : Reads (signed n) (bs ++ []) x := by
    refine h.bind ?_
    rw [if_pos hx]
    exact reads_pure x
  simpa using hs

theorem reads_signed_fill (h : v < 2 ^ 32) : Reads (signed 64) (Leb128.fill (Leb128.blank 4) v) v :=
  reads_signed (reads_signedGroups_fill 5 (by omega)) (by omega)

end Bootbox.Lib.WasmBinary
