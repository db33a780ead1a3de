import Bootbox.Lib.ByteMemory

/-!
`REP MOVS` and `REP STOS` as `translate.c` generates them, and the helper of
`mem_helper.c` that runs many iterations in one call.

Guest memory is reached through the softmmu. A page that `tlb_vaddr_to_host`
hands out is plain RAM at a host address, and an element inside it is a plain
load or store there. Everything else (devices, unmapped or watched pages, code
pages under write tracking, elements across two pages) is the slow path, which
may do anything to the machine's memory and to what lies behind it, or fault.
-/

namespace Bootbox.RepString

open Lib ByteMemory

/-- Element sizes `MO_8`, `MO_16`, `MO_32`, `MO_64`, by their shift. -/
abbrev MemOp := Fin 4

def MemOp.size (ot : MemOp) : ℕ := 1 <<< ot.val

inductive AFlag
  | mo16 | mo32 | mo64
  deriving DecidableEq

inductive Seg
  | es | cs | ss | ds | fs | gs
  deriving DecidableEq

inductive MMUAccessType
  | dataLoad | dataStore

def targetPageSize : ℕ := 4096

/-- What the translator knows of the instruction. -/
structure DisasContext where
  aflag : AFlag
  code64 : Bool
  addseg : Bool
  override : Option Seg
  memIndex : Fin 256
  jmpOpt : Bool
  useIcount : Bool
  repbulkOn : Bool

def DisasContext.repzOpt (s : DisasContext) : Bool := !s.jmpOpt && !s.useIcount

/-- The registers a string instruction uses. `df` is `1` or `-1`. -/
@[ext] structure Env where
  rax : BitVec 64
  rcx : BitVec 64
  rsi : BitVec 64
  rdi : BitVec 64
  df : BitVec 32
  segBase : Seg → BitVec 64

/-- The memory system. `σ` is all that lies behind it: TLB, page tables, devices. To ask for a
host page changes nothing here; that `tlb_vaddr_to_host` fills the TLB and sets the accessed
and dirty bits of the guest's page tables is left out. -/
structure Softmmu (σ : Type*) where
  /-- The host address of a page that may be accessed directly. -/
  hostPage : σ → Fin 256 → ℕ → MMUAccessType → Option ℕ
  slowLoad : σ → Bytes → Fin 256 → BitVec 64 → MemOp → Option (BitVec 64) × σ × Bytes
  slowStore : σ → Bytes → Fin 256 → BitVec 64 → MemOp → BitVec 64 → Option Unit × σ × Bytes

@[ext] structure Machine (σ : Type*) where
  env : Env
  ram : Bytes
  soft : σ

variable {σ : Type*} (mmu : Softmmu σ) (s : DisasContext)

def tlbVaddrToHost (soft : σ) (va : BitVec 64) (access : MMUAccessType) (mmuIdx : Fin 256) :
    Option ℕ :=
  (mmu.hostPage soft mmuIdx (va.toNat / targetPageSize) access).map
    (· + va.toNat % targetPageSize)

/-- The host address of an element that lies in one directly accessible page. -/
def directHost (soft : σ) (va : BitVec 64) (access : MMUAccessType) (mmuIdx : Fin 256)
    (ot : MemOp) : Option ℕ :=
  if va.toNat % targetPageSize + ot.size ≤ targetPageSize then
    tlbVaddrToHost mmu soft va access mmuIdx
  else none

/-! ### Registers and addresses -/

/-- `gen_extu`. -/
def AFlag.extu : AFlag → BitVec 64 → BitVec 64
  | .mo16, x => (x.setWidth 16).setWidth 64
  | .mo32, x => (x.setWidth 32).setWidth 64
  | .mo64, x => x

/-- `gen_op_mov_reg_v`: the register after `t0` is written to its low part. -/
def AFlag.movRegV : AFlag → BitVec 64 → BitVec 64 → BitVec 64
  | .mo16, reg, t0 => (reg &&& ~~~0xffff#64) ||| (t0 &&& 0xffff#64)
  | .mo32, _, t0 => (t0.setWidth 32).setWidth 64
  | .mo64, _, t0 => t0

def genLeaVSeg (env : Env) (a0 : BitVec 64) (defSeg : Seg) (ovrSeg : Option Seg) : BitVec 64 :=
  match s.aflag with
  | .mo64 =>
    match ovrSeg with
    | none => a0
    | some seg => a0 + env.segBase seg
  | .mo32 =>
    match ovrSeg.or (if s.addseg then some defSeg else none) with
    | none => AFlag.mo32.extu a0
    | some seg =>
      if s.code64 then AFlag.mo32.extu a0 + env.segBase seg
      else AFlag.mo32.extu (a0 + env.segBase seg)
  | .mo16 =>
    match ovrSeg.or (if s.addseg then some defSeg else none) with
    | none => AFlag.mo16.extu a0
    | some seg =>
      if s.code64 then AFlag.mo32.extu (AFlag.mo16.extu a0) + env.segBase seg
      else AFlag.mo32.extu (AFlag.mo16.extu a0 + env.segBase seg)

def genStringMovlA0ESI (env : Env) : BitVec 64 := genLeaVSeg s env env.rsi .ds s.override

def genStringMovlA0EDI (env : Env) : BitVec 64 := genLeaVSeg s env env.rdi .es none

/-- `gen_op_movl_T0_Dshift`. -/
def Env.dshift (env : Env) (ot : MemOp) : BitVec 64 := env.df.signExtend 64 <<< ot.val

/-- The count as `gen_op_jz_ecx` tests it. -/
def ecx (env : Env) : ℕ := (s.aflag.extu env.rcx).toNat

/-! ### One iteration -/

def genOpLdV (m : Machine σ) (va : BitVec 64) (ot : MemOp) : Option (BitVec 64) × Machine σ :=
  match directHost mmu m.soft va .dataLoad s.memIndex ot with
  | some h => (some (BitVec.ofNat 64 (leNat (load m.ram h ot.size))), m)
  | none =>
    let r := mmu.slowLoad m.soft m.ram s.memIndex va ot
    (r.1, { m with soft := r.2.1, ram := r.2.2 })

def genOpStV (m : Machine σ) (va : BitVec 64) (ot : MemOp) (t0 : BitVec 64) :
    Option Unit × Machine σ :=
  match directHost mmu m.soft va .dataStore s.memIndex ot with
  | some h => (some (), { m with ram := store m.ram h (leBytes ot.size t0.toNat) })
  | none =>
    let r := mmu.slowStore m.soft m.ram s.memIndex va ot t0
    (r.1, { m with soft := r.2.1, ram := r.2.2 })

/-- `gen_stos`. A fault leaves the registers as they are. -/
def genStos (ot : MemOp) (m : Machine σ) : Except (Machine σ) (Machine σ) :=
  match genOpStV mmu s m (genStringMovlA0EDI s m.env) ot m.env.rax with
  | (none, m) => .error m
  | (some _, m) =>
    let t0 := m.env.dshift ot
    .ok { m with env.rdi := s.aflag.movRegV m.env.rdi (m.env.rdi + t0) }

def genMovs (ot : MemOp) (m : Machine σ) : Except (Machine σ) (Machine σ) :=
  match genOpLdV mmu s m (genStringMovlA0ESI s m.env) ot with
  | (none, m) => .error m
  | (some t0, m) =>
    match genOpStV mmu s m (genStringMovlA0EDI s m.env) ot t0 with
    | (none, m) => .error m
    | (some _, m) =>
      let t0 := m.env.dshift ot
      .ok { m with
        env.rsi := s.aflag.movRegV m.env.rsi (m.env.rsi + t0)
        env.rdi := s.aflag.movRegV m.env.rdi (m.env.rdi + t0) }

/-- The string operation followed by the decrement of the count. -/
def iteration (movs : Bool) (ot : MemOp) (m : Machine σ) : Except (Machine σ) (Machine σ) :=
  match if movs then genMovs mmu s ot m else genStos mmu s ot m with
  | .error m => .error m
  | .ok m => .ok { m with env.rcx := s.aflag.movRegV m.env.rcx (m.env.rcx - 1#64) }

/-! ### The helper -/

def repBulkFill (ram : Bytes) (d : ℕ) (v : BitVec 64) (ot : MemOp) (n : ℕ) : Bytes :=
  let rep8 := v.toNat % 256 * 0x0101010101010101
  if v.toNat % 256 ^ ot.size = rep8 % 256 ^ ot.size then
    memset ram d (UInt8.ofNat (v.toNat % 256)) (n <<< ot.val)
  else fillElems ram d (leBytes ot.size v.toNat) n

/-- The fields of the helper's `info` word. -/
structure RepInfo where
  ot : MemOp
  aflag64 : Bool
  movs : Bool
  code64 : Bool
  mmuIdx : Fin 256
  deriving DecidableEq

/-- The word `gen_rep_bulk` passes. -/
def packInfo (ot : MemOp) (movs : Bool) : ℕ :=
  let aflag := match s.aflag with
    | .mo16 => 1
    | .mo32 => 2
    | .mo64 => 3
  ot.val ||| aflag <<< 2 ||| movs.toNat <<< 4 ||| s.code64.toNat <<< 5 ||| s.memIndex.val <<< 8

/-- The fields as `helper_rep_bulk` reads them. -/
def unpackInfo (info : ℕ) : RepInfo where
  ot := Fin.ofNat 4 (info &&& 3)
  aflag64 := (info >>> 2) &&& 3 = 3
  movs := info.testBit 4
  code64 := info.testBit 5
  mmuIdx := Fin.ofNat 256 ((info >>> 8) &&& 0xff)

def RepInfo.amask (info : RepInfo) : BitVec 64 :=
  if info.aflag64 then BitVec.allOnes 64 else 0xffffffff#64

/-- The number of elements before an offset register or a linear address wraps,
at most `cnt`. -/
def repLimit (info : RepInfo) (env : Env) (dst src : BitVec 64) (cnt : ℕ) : ℕ :=
  let room (x : BitVec 64) := (0x100000000 - x.toNat % 0x100000000) >>> info.ot.val
  if info.aflag64 then cnt
  else
    let lim := min cnt (room env.rdi)
    let lim := if info.movs then min lim (room env.rsi) else lim
    if info.code64 then lim
    else
      let lim := min lim (room dst)
      if info.movs then min lim (room src) else lim

/-- The elements left on the page of `va`. -/
def pageRoom (va : BitVec 64) (ot : MemOp) : ℕ :=
  (targetPageSize - va.toNat % targetPageSize) >>> ot.val

/-- The elements of a copy before a destination ahead of the source meets what the
copy itself has written. -/
def cutOverlap (hs hd n : ℕ) (ot : MemOp) : ℕ :=
  if hs < hd ∧ hd < hs + n <<< ot.val then min n ((hd - hs) >>> ot.val) else n

/-- One pass of the helper's loop: the elements it takes and the memory after
them, or nothing where the loop breaks. -/
def repBulkChunk (info : RepInfo) (soft : σ) (rax : BitVec 64) (room : ℕ) (dst src : BitVec 64)
    (ram : Bytes) : Option (ℕ × Bytes) :=
  let n := min room (pageRoom dst info.ot)
  let n := if info.movs then min n (pageRoom src info.ot) else n
  if n = 0 then none
  else if info.movs then
    match tlbVaddrToHost mmu soft src .dataLoad info.mmuIdx with
    | none => none
    | some hs =>
      match tlbVaddrToHost mmu soft dst .dataStore info.mmuIdx with
      | none => none
      | some hd =>
        let n := cutOverlap hs hd n info.ot
        if n = 0 then none else some (n, memmove ram hd hs (n <<< info.ot.val))
  else
    match tlbVaddrToHost mmu soft dst .dataStore info.mmuIdx with
    | none => none
    | some hd => some (n, repBulkFill ram hd rax info.ot n)

def repBulkLoop (info : RepInfo) (soft : σ) (rax : BitVec 64) (lim : ℕ) :
    ℕ → BitVec 64 → BitVec 64 → ℕ → Bytes → ℕ × Bytes
  | 0, _, _, done, ram => (done, ram)
  | chunks + 1, dst, src, done, ram =>
    if done < lim then
      match repBulkChunk mmu info soft rax (lim - done) dst src ram with
      | none => (done, ram)
      | some (n, ram) =>
        let bytes := BitVec.ofNat 64 (n <<< info.ot.val)
        repBulkLoop info soft rax lim chunks (dst + bytes)
          (if info.movs then src + bytes else src) (done + n) ram
    else (done, ram)

def helperRepBulk (m : Machine σ) (dst src : BitVec 64) (word : ℕ) : Machine σ :=
  let info := unpackInfo word
  let cnt := (m.env.rcx &&& info.amask).toNat
  if m.env.df ≠ 1#32 ∨ cnt = 0 then m
  else
    let lim := repLimit info m.env dst src cnt
    let (done, ram) := repBulkLoop mmu info m.soft m.env.rax lim 64 dst src 0 m.ram
    if done = 0 then { m with ram := ram }
    else
      let bytes := BitVec.ofNat 64 (done <<< info.ot.val)
      { m with
        ram := ram
        env.rcx := (m.env.rcx - BitVec.ofNat 64 done) &&& info.amask
        env.rdi := (m.env.rdi + bytes) &&& info.amask
        env.rsi := if info.movs then (m.env.rsi + bytes) &&& info.amask else m.env.rsi }

/-- Whether `gen_rep_bulk` emits the call. -/
def bulkEmitted : Bool := s.aflag ≠ .mo16 && s.jmpOpt && !s.useIcount && s.repbulkOn

/-- `gen_rep_bulk`, where it emits the call. -/
def genRepBulk (movs : Bool) (ot : MemOp) (m : Machine σ) : Machine σ :=
  if bulkEmitted s then
    helperRepBulk mmu m (genStringMovlA0EDI s m.env)
      (if movs then genStringMovlA0ESI s m.env else 0) (packInfo s ot movs)
  else m

end Bootbox.RepString
