import Bootbox.Host.Axml
import Bootbox.Host.Zip
import Mathlib.Data.List.Infix

/-!
The inspection of imported binaries (`inspectAPK` and `inspectEXE` of `BinaryBridge`).
The file may be anything, and all positions and lengths are taken from it.

The header of an EXE is only read where it was checked to be. An APK stops the app in two
places: opening it, if a directory record gives a name a length that leads out of the
data, and parsing its manifest, if a string pool leads out of it (`inspect_returns_iff`).
-/

namespace Bootbox.Host.Inspect

open Lib.ByteRecord Zip Option

/-! ### APK -/

structure ApkReport where
  name : String
  manifest : Axml.Result
  entryCount : ℕ
  hasDex : Bool
  nativeLibs : List String
  usesPlayServices : Bool
  supported : Bool
  verdict : String

def hasPrefix (s p : String) : Bool := p.toList <+: s.toList

def hasSuffix (s p : String) : Bool := p.toList <:+ s.toList

def contains (s p : String) : Bool := p.toList <:+: s.toList

/-- The second of the nonempty parts between slashes. -/
def abiOf (n : String) : Option String :=
  let parts := (n.splitToList (· == '/')).filter fun part => !part.isEmpty
  parts[1]?

section

variable {Deflates : List UInt8 → List UInt8 → Prop} (inflater : Inflater Deflates)
variable (canon : String → String)
-- the order in which the verdict names the instruction sets
variable (sorted : List String → List String)

def apkVerdict (supported : Bool) (nativeLibs abis : List String) : String :=
  if supported then
    "Likely runnable by the future MiniOS APK runtime (DEX present, no native libs, no Play Services)."
  else if nativeLibs.isEmpty then "Needs Google Play Services — not targetable yet."
  else "Uses native .so libraries (" ++ String.intercalate ", " (sorted abis) ++
    ") — not targetable yet."

def apkReport (name : String) (manifest : Axml.Result) (names : List String) : ApkReport :=
  let nativeLibs := names.filter fun n => hasPrefix n "lib/" && hasSuffix n ".so"
  let abis := (nativeLibs.filterMap abiOf).dedup
  let hasPlay := manifest.permissions.any (contains · "com.google.android.c2dm") ||
    names.any (contains · "com/google/android/gms")
  let hasDex := names.any (hasSuffix · ".dex")
  let supported := nativeLibs.isEmpty && !hasPlay && hasDex
  { name, manifest, entryCount := names.length, hasDex, nativeLibs := abis
    usesPlayServices := hasPlay, supported, verdict := apkVerdict sorted supported nativeLibs abis }

/-- The inner `none` is the report "not a valid zip/apk". -/
def inspectAPK (data : List UInt8) (name : String) : Option (Option ApkReport) := do
  match ← ZipReader.init data with
  | none => return none
  | some zip =>
    match ← zip.extract inflater canon "AndroidManifest.xml" with
    | some axml =>
      let manifest ← Axml.parse axml
      return some (apkReport sorted name manifest zip.names)
    | none => return some (apkReport sorted name {} zip.names)

end

/-! ### EXE -/

structure ExeReport where
  name : String
  format : String
  machine : String
  subsystem : String
  sections : List String
  size : ℕ
  supported : Bool := false
  verdict : String :=
    "Windows PE binary. Local x86 execution is out of scope on iPad; a tiny Win32 console subset is a later phase, heavy apps go to the cloud fallback."

/-- `0x%04x`. -/
def hex4 (n : ℕ) : String :=
  let digits := Nat.toDigits 16 n
  "0x" ++ String.ofList (List.replicate (4 - digits.length) '0' ++ digits)

def machineName (machine : ℕ) : String :=
  if machine = 0x14c then "x86 (i386)"
  else if machine = 0x8664 then "x86-64 (AMD64)"
  else if machine = 0xaa64 then "ARM64"
  else if machine = 0x1c0 ∨ machine = 0x1c4 then "ARM"
  else hex4 machine

def subsystemName (subsystem : ℕ) : String :=
  if subsystem = 2 then "Windows GUI"
  else if subsystem = 3 then "Windows Console"
  else "subsystem " ++ toString subsystem

def asciiText? (bs : List UInt8) : Option String :=
  if bs.all (· < 0x80) then some (String.ofList (bs.map fun b => Char.ofNat b.toNat)) else none

def trimmed (s : String) : String :=
  let pad := fun c => c == '\x00' || c == ' '
  String.ofList (((s.toList.dropWhile pad).reverse.dropWhile pad).reverse)

def sectionNames (d : List UInt8) (sectTableOff : ℕ) : ℕ → ℕ → Option (List String)
  | 0, _ => some []
  | n + 1, i => do
      let so := sectTableOff + i * 40
      if so + 8 ≤ d.length then
        let bytes ← slice? d so (so + 8)
        let nm := ((asciiText? bytes).map trimmed).getD ""
        let sections ← sectionNames d sectTableOff n (i + 1)
        return if nm.isEmpty then sections else nm :: sections
      else sectionNames d sectTableOff n (i + 1)

/-- The reports "not a PE/EXE (missing MZ header)" and "DOS stub only — no PE header". -/
inductive ExeError
  | missingMZ
  | dosStubOnly

/-- The first two bytes, read once the data is known to be longer. -/
def startsMZ (d : List UInt8) : Option Bool :=
  if 0x40 < d.length then signatureAt d 0 [0x4D, 0x5A] else some false

def inspectEXE (data : List UInt8) (name : String) : Option (Except ExeError ExeReport) := do
  let mz ← startsMZ data
  let peOff ← u32? data 0x3C
  let signature ← u32? data peOff
  if !mz then return .error .missingMZ
  else if ¬ (peOff + 24 ≤ data.length ∧ signature = 0x00004550) then return .error .dosStubOnly
  else
    let machine ← u16? data (peOff + 4)
    let numSections ← u16? data (peOff + 6)
    let optMagic ← u16? data (peOff + 24)
    let isPE32Plus := optMagic = 0x20b
    let subsystem ← u16? data (peOff + 24 + if isPE32Plus then 68 else 68)
    let optSize ← u16? data (peOff + 20)
    let sectTableOff := peOff + 24 + optSize
    let sections ← sectionNames data sectTableOff (min numSections 16) 0
    return .ok { name, format := if isPE32Plus then "PE32+" else "PE32"
                 machine := machineName machine, subsystem := subsystemName subsystem
                 sections, size := data.length }

/-! ### Reads outside the data -/

theorem sectionNames_isSome (d : List UInt8) (sectTableOff n i : ℕ) :
    (sectionNames d sectTableOff n i).isSome := by
  induction n generalizing i with
  | zero => rfl
  | succ n ih =>
    obtain ⟨sections, hsections⟩ := isSome_iff_exists.mp (ih (i + 1))
    rw [sectionNames, hsections]
    dsimp only
    split
    case isTrue hfits =>
      obtain ⟨bytes, hbytes⟩ :=
        isSome_iff_exists.mp ((slice?_isSome d (Nat.le_add_right _ 8)).mpr hfits)
      rw [hbytes]
      rfl
    case isFalse => rfl

theorem startsMZ_isSome (d : List UInt8) : (startsMZ d).isSome := by
  rw [startsMZ]
  split
  case isTrue hlong =>
    rw [signatureAt_eq _ (show 0 + 2 ≤ d.length by omega)]
    rfl
  case isFalse => rfl

theorem inspectEXE_isSome (data : List UInt8) (name : String) : (inspectEXE data name).isSome := by
  obtain ⟨mz, hmz⟩ := isSome_iff_exists.mp (startsMZ_isSome data)
  rw [inspectEXE, hmz]
  simp only [u16?_eq, u32?_eq, bind_eq_bind, bind_some]
  split
  · rfl
  · split
    · rfl
    · obtain ⟨sections, hsections⟩ := isSome_iff_exists.mp (sectionNames_isSome data _ _ _)
      rw [hsections]
      rfl

section

variable {Deflates : List UInt8 → List UInt8 → Prop} (inflater : Inflater Deflates)
variable (canon : String → String) (sorted : List String → List String)

/-- The manifest that is extracted, if one is, has the strings of its pools inside it. -/
def ManifestFits (data : List UInt8) : Prop :=
  ∀ zip axml, ZipReader.init data = some (some zip) →
    zip.extract inflater canon "AndroidManifest.xml" = some (some axml) → Axml.PoolsFit axml

theorem inspectAPK_isSome (data : List UInt8) (name : String) :
    (inspectAPK inflater canon sorted data name).isSome ↔
      NamesFit data ∧ ManifestFits inflater canon data := by
  rw [← init_isSome, ManifestFits, inspectAPK]
  cases hinit : ZipReader.init data with
  | none => simp
  | some zip =>
    cases zip with
    | none => simp
    | some zip =>
      obtain ⟨axml, haxml⟩ := isSome_iff_exists.mp
        (extract_isSome inflater canon zip "AndroidManifest.xml")
      simp only [bind_eq_bind, bind_some, haxml, isSome_some, true_and, some.injEq]
      cases axml with
      | none =>
        refine ⟨?_, fun _ => rfl⟩
        rintro - _ axml rfl h
        rw [haxml, some.injEq] at h
        cases h
      | some axml =>
        have hparse : ((Axml.parse axml).bind fun manifest =>
            some (some (apkReport sorted name manifest zip.names))).isSome ↔
              Axml.PoolsFit axml := by
          rw [← Axml.parse_isSome]
          cases Axml.parse axml <;> simp
        refine hparse.trans ⟨?_, fun h => h zip axml rfl haxml⟩
        rintro hfits _ axml' rfl h
        rw [haxml, some.injEq, some.injEq] at h
        exact h ▸ hfits

/-- Inspecting any bytes returns, but for two places: an APK is only inspected if the names
of its directory stand inside the data, and a manifest is only parsed if the length
prefixes of its strings do. -/
theorem inspect_returns_iff (data : List UInt8) (name : String) :
    ((inspectAPK inflater canon sorted data name).isSome ↔
        NamesFit data ∧ ManifestFits inflater canon data) ∧
      ((ZipReader.init data).isSome ↔ NamesFit data) ∧
      (∀ zip entry, (ZipReader.extract inflater canon zip entry).isSome) ∧
      ((Axml.parse data).isSome ↔ Axml.PoolsFit data) ∧
      (inspectEXE data name).isSome :=
  ⟨inspectAPK_isSome inflater canon sorted data name, init_isSome data,
    extract_isSome inflater canon, Axml.parse_isSome data, inspectEXE_isSome data name⟩

end

/-- A directory record whose name is longer than the file, and the end record. -/
def overlongName : List UInt8 :=
  encode [(4, 0x02014b50), (24, 0), (2, 0xFFFF), (16, 0)] ++
    encode [(4, 0x06054b50), (6, 0), (2, 1), (4, 46), (4, 0), (2, 0)]

def strayString : List UInt8 :=
  encode [(2, 0x0003), (2, 8), (4, 40)] ++
    encode [(2, 0x0001), (2, 28), (4, 32), (4, 1), (4, 0), (4, 0x100), (4, 32), (4, 0), (4, 0)]

theorem not_poolsFit_strayString : ¬ Axml.PoolsFit strayString := by
  intro h
  have hfits := h ⟨by decide +kernel, by decide +kernel⟩ 8
    (.here (by decide +kernel) (by decide +kernel)) (by decide +kernel) 0 (by decide +kernel)
  exact absurd hfits.1.1 (by decide +kernel)

/-- Both stop the app. -/
theorem stray_lengths_trap :
    ZipReader.init overlongName = none ∧ Axml.parse strayString = none := by
  refine ⟨isNone_iff_eq_none.mp (by decide +kernel), ?_⟩
  rw [← not_isSome_iff_eq_none, Axml.parse_isSome]
  exact not_poolsFit_strayString

end Bootbox.Host.Inspect
