import Bootbox.Lib.WasmBinary
import Bootbox.Tcg.CallLayout
import Mathlib.Data.Nat.Digits.Defs

/-!
The module `tcg_gen_code` assembles around a translation block's function.

Sizes and counts are left blank in the fixed parts and filled in from buffers that grow
apart: the function's bytes, the types of the helpers it calls, and the helpers
themselves. `module_decodes_iff` reads the result back section by section. An import's type
is written as one raw byte, which stops being an LEB128 number at 128.
-/

namespace Bootbox.Tcg.WasmModule

open Lib WasmBinary

/-! ### The per-block tables -/

/-- What is called: a helper function, or the slow path of a guest load or store. -/
inductive HelperKind
  | call (info : HelperInfo)
  | qemuLd
  | qemuSt (mo64 : Bool)

/-- How a value of a type is passed: 128-bit values by the address of a buffer. -/
def passedAs : TypeCode → ValType
  | .i32 | .s32 | .ptr | .i128 => .i32
  | .i64 | .s64 => .i64

def passedParams (info : HelperInfo) : List ValType :=
  (if info.ret = some .i128 then [.i32] else []) ++ info.args.map passedAs

def passedResults (info : HelperInfo) : List ValType :=
  match info.ret with
  | none | some .i128 => []
  | some t => [passedAs t]

def HelperKind.funcType : HelperKind → FuncType
  | .call info => ⟨passedParams info, passedResults info⟩
  | .qemuLd => ⟨[.i32, .i64, .i32, .i32], [.i64]⟩
  | .qemuSt mo64 => ⟨[.i32, .i64, if mo64 then .i64 else .i32, .i32, .i32], []⟩

def genResultType : Option TypeCode → List Byte
  | none | some .i128 => [0x00#8]
  | some t => [0x01#8, (passedAs t).code]

/-- `gen_func_type`: one byte is reserved for the number of parameters and filled in
after them. -/
def genFuncType (info : HelperInfo) : List Byte :=
  let buf := (if info.ret = some .i128 then [0x7f#8] else []) ++
    info.args.map fun t => (passedAs t).code
  0x60#8 :: Leb128.fill [0x00#8] buf.length ++ buf ++ genResultType info.ret

def genFuncTypeQemuLd : List Byte :=
  [0x60#8, 0x04#8, 0x7f#8, 0x7e#8, 0x7f#8, 0x7f#8, 0x01#8, 0x7e#8]

def genFuncTypeQemuSt (mo64 : Bool) : List Byte :=
  [0x60#8, 0x05#8, 0x7f#8, 0x7e#8, if mo64 then 0x7e#8 else 0x7f#8, 0x7f#8, 0x7f#8, 0x00#8]

def HelperKind.genType : HelperKind → List Byte
  | .call info => genFuncType info
  | .qemuLd => genFuncTypeQemuLd
  | .qemuSt mo64 => genFuncTypeQemuSt mo64

def subBufMax : ℕ := 100000

/-- `WASM_NUM_HELPER_FUNCS_MAX`. -/
def numHelperFuncsMax : ℕ := 200

/-- `WASM_HELPER_TYPE_MAX_BYTES`. -/
def helperTypeMaxBytes : ℕ := 16

/-- `WASM_HELPER_ADDED_TYPES_SECTION_MAX`. -/
def helperAddedTypesSectionMax : ℕ := (numHelperFuncsMax + 1) * helperTypeMaxBytes

/-- `target_helper_funcs`, `target_helper_types` and `sub_buf`, each up to where it is
filled. -/
structure Tables where
  helperFuncs : List ℕ
  helperTypes : List Byte
  subBuf : List Byte

def Tables.init : Tables := ⟨[], [], []⟩

/-- `tcg_sub_out8` for every byte; an over-full buffer abandons the block. -/
def subOut (bs : List Byte) (t : Tables) : Option Tables :=
  if t.subBuf.length + bs.length ≤ subBufMax then some { t with subBuf := t.subBuf ++ bs }
  else none

/-- The loop of `tcg_wasm_out_leb128_uint32_t` and `write_uint32_leb128`: at most `k`
groups of seven bits. -/
def lebGroups : ℕ → ℕ → List Byte
  | 0, _ => []
  | k + 1, v =>
    if v / 128 = 0 then [BitVec.ofNat 8 (v % 128)]
    else (BitVec.ofNat 8 (v % 128) ||| 0x80#8) :: lebGroups k (v / 128)

def writeUint32Leb128 (v : ℕ) : List Byte := lebGroups 5 v

def getWasmHelperIdx (t : Tables) (helper : ℕ) : Option ℕ := t.helperFuncs.findIdx? (· = helper)

variable (kinds : ℕ → HelperKind)

/-- The index of a helper, which is registered with its type when it is new:
`wasm_register_helper_alloc_num`, `wasm_register_helper` and the type's bytes at
`wasm_get_helper_types_begin`. -/
def helperIdx (helper : ℕ) (t : Tables) : Option (ℕ × Tables) :=
  match getWasmHelperIdx t helper with
  | some i => some (i, t)
  | none =>
    if numHelperFuncsMax ≤ t.helperFuncs.length then none
    else if helperAddedTypesSectionMax < t.helperTypes.length + helperTypeMaxBytes then none
    else some (t.helperFuncs.length,
      { t with
        helperFuncs := t.helperFuncs ++ [helper]
        helperTypes := t.helperTypes ++ (kinds helper).genType })

/-- `tcg_wasm_out_op_call`. -/
def opCall (i : ℕ) : List Byte := 0x10#8 :: writeUint32Leb128 i

/-- What the ops of a block put into the function: a call of a helper, or other
instructions. -/
inductive Out
  | code (bs : List Byte)
  | call (helper : ℕ)

def emit : Out → Tables → Option Tables
  | .code bs, t => subOut bs t
  | .call helper, t => do
      let (i, t) ← helperIdx kinds helper t
      subOut (opCall i) t

def emitAll : List Out → Tables → Option Tables
  | [], t => some t
  | o :: os, t => do emitAll os (← emit kinds o t)

def funcEnd : List Byte := [0x0b#8, 0x0b#8, 0x00#8, 0x0b#8]

def genTables (outs : List Out) : Option Tables := do
  subOut funcEnd (← emitAll kinds outs .init)

/-! ### The fixed parts -/

def modHeaderA : List Byte :=
  [0x00#8, 0x61#8, 0x73#8, 0x6d#8,
   0x01#8, 0x00#8, 0x00#8, 0x00#8,
   0x01#8, 0x80#8, 0x80#8, 0x80#8, 0x80#8, 0x00#8,
   0x80#8, 0x80#8, 0x80#8, 0x80#8, 0x00#8,
   0x60#8,
   0x01#8, 0x7f#8,
   0x01#8, 0x7f#8]

def modHeaderB : List Byte :=
  [0x02#8, 0x80#8, 0x80#8, 0x80#8, 0x80#8, 0x00#8,
   0x80#8, 0x80#8, 0x80#8, 0x80#8, 0x00#8,
   0x03#8, 0x65#8, 0x6e#8, 0x76#8,
   0x06#8, 0x62#8, 0x75#8, 0x66#8, 0x66#8, 0x65#8, 0x72#8,
   0x02#8, 0x03#8, 0x00#8, 0x80#8, 0x80#8, 0x80#8, 0x80#8, 0x00#8,
   0x03#8, 0x65#8, 0x6e#8, 0x76#8,
   0x05#8, 0x74#8, 0x61#8, 0x62#8, 0x6c#8, 0x65#8,
   0x01#8, 0x70#8, 0x00#8, 0x00#8]

/-- `WASM_HEADER_B_NONFUNC_IMPORTS`: the memory and the function table. -/
def nonfuncImports : ℕ := 2

def modGlobal : List Byte := [0x7e#8, 0x01#8, 0x42#8, 0x00#8, 0x0b#8]

def modHeaderC : List Byte :=
  [0x03#8, 0x02#8, 0x01#8, 0x00#8,
   0x06#8, 0x7e#8,
   0x19#8] ++ (List.replicate 25 modGlobal).flatten ++
  [0x07#8, 0x0d#8,
   0x01#8,
   0x05#8, 0x73#8, 0x74#8, 0x61#8, 0x72#8, 0x74#8,
   0x00#8, 0x80#8, 0x80#8, 0x80#8, 0x80#8, 0x00#8]

/-- `mod_header_d_sizes`, with which `mod_header_d` begins too. -/
def modHeaderDSizes : List Byte :=
  [0x0a#8, 0x80#8, 0x80#8, 0x80#8, 0x80#8, 0x00#8,
   0x80#8, 0x80#8, 0x80#8, 0x80#8, 0x00#8,
   0x80#8, 0x80#8, 0x80#8, 0x80#8, 0x00#8]

/-- `mod_header_d` after the sizes: the locals and the prologue. -/
def modHeaderDLocalsGlobals : List Byte := [0x02#8, 0x02#8, 0x7f#8, 0x05#8, 0x7e#8]

def modHeaderDPrologueGlobals : List Byte :=
  [0x20#8, 0x00#8, 0x28#8, 0x00#8, 0x10#8, 0x41#8, 0x00#8, 0x47#8, 0x04#8, 0x40#8,
   0x23#8, 0x0e#8, 0x50#8, 0x04#8, 0x40#8,
   0x20#8, 0x00#8, 0x28#8, 0x00#8, 0x00#8, 0xad#8, 0x24#8, 0x0e#8,
   0x20#8, 0x00#8, 0x28#8, 0x00#8, 0x04#8, 0xad#8, 0x24#8, 0x0f#8, 0x0b#8,
   0x20#8, 0x00#8, 0x41#8, 0x00#8, 0x36#8, 0x00#8, 0x10#8,
   0x42#8, 0x00#8, 0x24#8, 0x10#8, 0x0b#8,
   0x03#8, 0x40#8, 0x23#8, 0x10#8, 0x50#8, 0x04#8, 0x40#8]

def modHeaderDLocals : List Byte := [0x02#8, 0x02#8, 0x7f#8, 0x16#8, 0x7e#8]

def modHeaderDLocalsFp : List Byte :=
  [0x05#8, 0x02#8, 0x7f#8, 0x16#8, 0x7e#8, 0x03#8, 0x7d#8, 0x03#8, 0x7c#8, 0x03#8, 0x7b#8]

def modHeaderDLocA : List Byte :=
  [0x20#8, 0x00#8, 0x28#8, 0x00#8, 0x00#8, 0xad#8, 0x21#8, 0x16#8,
   0x20#8, 0x00#8, 0x28#8, 0x00#8, 0x04#8, 0xad#8, 0x21#8, 0x17#8,
   0x20#8, 0x00#8, 0x28#8, 0x00#8, 0x10#8, 0x04#8, 0x40#8,
   0x20#8, 0x00#8, 0x41#8, 0x00#8, 0x36#8, 0x00#8, 0x10#8, 0x05#8]

/-- The chain-resume check up to the operand that names the block. -/
def modHeaderDLocChainTest : List Byte := [0x20#8, 0x00#8, 0x28#8, 0x00#8, 0x08#8, 0x41#8]

/-- The chain-resume check behind that operand, up to the hand-off. -/
def modHeaderDLocChainSlot : List Byte :=
  [0x47#8, 0x04#8, 0x40#8, 0x20#8, 0x00#8,
   0x20#8, 0x00#8, 0x28#8, 0x00#8, 0x08#8, 0x20#8, 0x00#8, 0x28#8, 0x00#8, 0x20#8,
   0x6a#8, 0x28#8, 0x00#8, 0x00#8, 0x22#8, 0x01#8,
   0x45#8, 0x04#8, 0x40#8, 0x00#8, 0x0b#8,
   0x20#8, 0x01#8, 0x28#8, 0x00#8, 0x00#8, 0x20#8, 0x00#8, 0x28#8, 0x00#8, 0x08#8,
   0x47#8, 0x04#8, 0x40#8, 0x00#8, 0x0b#8,
   0x20#8, 0x01#8, 0x28#8, 0x00#8, 0x04#8]

/-- `return_call_indirect`, or `call_indirect` and `return` for nested chaining. -/
def modHeaderDLocChainJump (nested : Bool) : List Byte :=
  (if nested then [0x11#8, 0x00#8, 0x00#8, 0x0f#8] else [0x13#8, 0x00#8, 0x00#8]) ++ [0x0b#8]

def modHeaderDLocB : List Byte :=
  [0x23#8, 0x10#8, 0x21#8, 0x18#8] ++
  ((List.range 14).flatMap fun r =>
    [0x23#8, BitVec.ofNat 8 r, 0x21#8, BitVec.ofNat 8 (8 + r)]) ++
  [0x0b#8, 0x03#8, 0x40#8, 0x20#8, 0x18#8, 0x50#8, 0x04#8, 0x40#8]

/-- `wasm_reg_locals`, `wasm_fp_locals`, `wasm_tail_chain` and `wasm_chain_nested`. -/
structure Mode where
  regLocals : Bool
  fpLocals : Bool
  tailChain : Bool
  chainNested : Bool

/-- The block's address as a signed LEB128 number of five bytes. -/
def thisTbLeb (v : BitVec 32) : List Byte :=
  ((List.range 4).map fun i => ((v.sshiftRight (7 * i)).setWidth 8 &&& 0x7f#8) ||| 0x80#8) ++
    [(v.sshiftRight 28).setWidth 8 &&& 0x7f#8]

def headerDLocals (mode : Mode) : List Byte :=
  if mode.regLocals then
    if mode.fpLocals then modHeaderDLocalsFp else modHeaderDLocals
  else modHeaderDLocalsGlobals

def headerDPrologue (mode : Mode) (thisTb : BitVec 32) : List Byte :=
  if mode.regLocals then
    modHeaderDLocA ++
    (if mode.tailChain then
      modHeaderDLocChainTest ++ thisTbLeb thisTb ++ modHeaderDLocChainSlot ++
        modHeaderDLocChainJump mode.chainNested
    else []) ++ modHeaderDLocB
  else modHeaderDPrologueGlobals

def wasmWriteHeaderD (mode : Mode) (thisTb : BitVec 32) : List Byte :=
  modHeaderDSizes ++ headerDLocals mode ++ headerDPrologue mode thisTb

/-- `fill_uint32_leb128` at an offset. -/
def fillAt (pos v : ℕ) (bs : List Byte) : List Byte := bs.take pos ++ Leb128.fill (bs.drop pos) v

def writeWasmTypeSectionSize (header : List Byte) (added numHelperFuncs : ℕ) : List Byte :=
  fillAt 14 (numHelperFuncs + 1) (fillAt 9 (added + 10) header)

/-- `write_wasm_import_section_size`, then `write_wasm_memory_size`. -/
def writeWasmImportSectionSize (header : List Byte) (added numImportedFuncs : ℕ) : List Byte :=
  fillAt 25 ((2 ^ 32 - 1) / 65536)
    (fillAt 6 (numImportedFuncs + nonfuncImports) (fillAt 1 (header.length - 6 + added) header))

def writeWasmExportSectionSize (header : List Byte) (startidx : ℕ) : List Byte :=
  fillAt 142 startidx header

def writeWasmCodeSize (header : List Byte) (bodySize codeNums : ℕ) : List Byte :=
  let codeSize := bodySize + header.length - 6
  fillAt 11 (codeSize - 10) (fillAt 6 codeNums (fillAt 1 codeSize header))

/-- `snprintf("%d")`. -/
def decimal (i : ℕ) : List Byte := (Nat.toDigits 10 i).map fun c => BitVec.ofNat 8 c.toNat

def helperName : List Byte := [0x68#8, 0x65#8, 0x6c#8, 0x70#8, 0x65#8, 0x72#8]

/-- `tcg_out_import_entry`: the type is one byte. -/
def tcgOutImportEntry (i typeidx : ℕ) : List Byte :=
  0x06#8 :: helperName ++ writeUint32Leb128 (decimal i).length ++ decimal i ++
    [0x00#8, BitVec.ofNat 8 typeidx]

def helperImports (n : ℕ) : List Byte := (List.range n).flatMap fun i => tcgOutImportEntry i (i + 1)

def assemble (mode : Mode) (thisTb : BitVec 32) (t : Tables) : List Byte :=
  let n := t.helperFuncs.length
  writeWasmTypeSectionSize modHeaderA t.helperTypes.length n ++ t.helperTypes ++
  writeWasmImportSectionSize modHeaderB (helperImports n).length n ++ helperImports n ++
  writeWasmExportSectionSize modHeaderC n ++
  writeWasmCodeSize (wasmWriteHeaderD mode thisTb) t.subBuf.length 1 ++ t.subBuf

end Bootbox.Tcg.WasmModule
