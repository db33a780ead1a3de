import Mathlib.Data.Int.Notation
import Mathlib.Data.Nat.Notation
import Mathlib.Logic.Function.Basic

/-!
The firmware Setup (`renderSetup`): a screen of settings over two configuration files and a
native setting, which is asked for on entry and answered later.

Values in the files are taken to be of the kinds the screen writes. `steps_ok_iff` says for every
sequence of the user's actions at which of them the screen does what it should.
-/

namespace Bootbox.Emulator.FirmwareSetup

open Option Function

inductive Key
  | ram | cores | bootOrder | vtx | htt | secureBoot | bootMode | fastBoot | sataMode | usbLegacy
  | numlock | memRemap | netInternet | resumeState | nx | tpm | txt | bgRun | isa
  deriving DecidableEq

inductive BootOrder
  | cdHd | hdCd | cd
  deriving DecidableEq

inductive BootMode
  | uefi | legacy

inductive SataMode
  | ahci | ide

inductive BgRun
  | about30s | off

inductive Isa
  | sse3 | avx2

/-- A setting is a number, a choice or a toggle. -/
abbrev Val : Key → Type
  | .ram | .cores => ℤ
  | .bootOrder => BootOrder
  | .bootMode => BootMode
  | .sataMode => SataMode
  | .bgRun => BgRun
  | .isa => Isa
  | _ => Bool

abbrev Settings := (k : Key) → Val k

/-- `DEF`. -/
def defaults : Settings
  | .ram => (256 : ℤ)
  | .cores => (2 : ℤ)
  | .bootOrder => BootOrder.cdHd
  | .bootMode => BootMode.uefi
  | .sataMode => SataMode.ahci
  | .bgRun => BgRun.about30s
  | .isa => Isa.sse3
  | .vtx | .fastBoot | .usbLegacy | .numlock | .netInternet | .resumeState | .nx => true
  | .htt | .secureBoot | .memRemap | .tpm | .txt => false

def clamp (v lo hi : ℤ) : ℤ := max lo (min hi v)

/-- A press on a setting; only the two numbers have a button for less. -/
def edited (more : Bool) : (k : Key) → Val k → Val k
  | .ram, v => clamp (Int.add v (if more then 128 else -128)) 64 3584
  | .cores, v => clamp (Int.add v (if more then 1 else -1)) 1 8
  | .bootOrder, BootOrder.cdHd => BootOrder.hdCd
  | .bootOrder, BootOrder.hdCd => BootOrder.cd
  | .bootOrder, BootOrder.cd => BootOrder.cdHd
  | .bootMode, BootMode.uefi => BootMode.legacy
  | .bootMode, BootMode.legacy => BootMode.uefi
  | .sataMode, SataMode.ahci => SataMode.ide
  | .sataMode, SataMode.ide => SataMode.ahci
  | .bgRun, BgRun.about30s => BgRun.off
  | .bgRun, BgRun.off => BgRun.about30s
  | .isa, Isa.sse3 => Isa.avx2
  | .isa, Isa.avx2 => Isa.sse3
  | .vtx, v | .fastBoot, v | .usbLegacy, v | .numlock, v | .netInternet, v | .resumeState, v
  | .nx, v | .htt, v | .secureBoot, v | .memRemap, v | .tpm, v | .txt, v => Bool.not v

/-! ### The stores -/

inductive Relay
  | off
  | custom (url : String)
  deriving DecidableEq

structure Stores where
  /-- `/Apps/.bios.json`. -/
  bios : (k : Key) → Option (Val k)
  otherBios : String → Option String
  /-- `/Apps/.emulator.json`. -/
  netRelay : Option Relay
  resumeState : Option Bool
  cores64 : Option ℤ
  otherEmulator : String → Option String
  /-- `BootboxBackgroundGraceSeconds`. -/
  grace : ℕ

def Stores.shown (st : Stores) : Settings :=
  update (update (fun k => (st.bios k).getD (defaults k))
    .netInternet (st.netRelay != some .off)) .resumeState (st.resumeState != some false)

/-- `BG_SEC`. -/
def bgSec : BgRun → ℕ
  | .about30s => 30
  | .off => 0

def bgLabel (sec : ℕ) : BgRun := if sec = 0 then .off else .about30s

/-- The keys that `persist` hands to `writeCfg`. -/
def persisted : List Key :=
  [.ram, .bootOrder, .vtx, .htt, .secureBoot, .bootMode, .fastBoot, .sataMode, .usbLegacy, .numlock,
    .memRemap, .netInternet, .resumeState, .nx, .tpm, .txt, .bgRun, .isa]

def Stores.persist (st : Stores) (s : Settings) : Stores where
  bios k := if k ∈ persisted then some (s k) else st.bios k
  otherBios := st.otherBios
  netRelay := match (s .netInternet : Bool) with
    | true => if st.netRelay = some .off then none else st.netRelay
    | false => some .off
  resumeState := some (s .resumeState)
  cores64 := st.cores64
  otherEmulator := st.otherEmulator
  grace := bgSec (s .bgRun)

/-! ### Booting -/

/-- `GUESTS`. -/
inductive Guest
  | custom | x64pw | x64pwd | android64

structure System where
  guest : Guest
  ram : Option ℤ
  fixedRam : Bool

structure Args where
  ram : ℤ
  bootOrder : BootOrder
  cores : Option ℤ
  deriving DecidableEq

/-- A number that is there and not zero: what JavaScript takes on the left of `||`. -/
def truthy (n : Option ℤ) : Option ℤ := n.filter (· ≠ 0)

/-- What `systemToArgs` takes from the firmware's configuration. -/
def systemToArgs (sys : System) (cfg : (k : Key) → Option (Val k)) : Args where
  ram := if sys.fixedRam then sys.ram.getD 256
    else max (getD (cfg .ram) (0 : ℤ)) (sys.ram.getD 256)
  bootOrder := getD (cfg .bootOrder) BootOrder.cdHd
  cores := truthy (cfg .cores)

/-- The options of `coresSel`: every other value falls back to 2. -/
def coreOptions : List ℤ := [1, 2, 4, 6, 8]

def selectCores (n : ℤ) : ℤ := if n ∈ coreOptions then n else 2

/-- The count that the emulator boots with: the argument's, else the one remembered, else the
guest's. Android has four cores, and the 32-bit guests have no count. -/
def smp (guest : Guest) (cores cores64 : Option ℤ) : Option ℤ :=
  match guest with
  | .custom => none
  | .x64pw | .x64pwd => some (clamp (selectCores (((truthy cores).or (truthy cores64)).getD 2)) 1 8)
  | .android64 =>
    some (clamp (selectCores ((((truthy cores).or (truthy cores64)).or (some 4)).getD 2)) 4 4)

/-- What a boot of a system gets from a configuration: memory, order and cores. -/
def Stores.boot (st : Stores) (sys : System) (cfg : (k : Key) → Option (Val k)) :
    ℤ × BootOrder × Option ℤ :=
  let args := systemToArgs sys cfg
  (args.ram, args.bootOrder, smp sys.guest args.cores st.cores64)

/-! ### The screen -/

structure Screen where
  s : Settings
  /-- The settings the user has changed on this screen. -/
  touched : Key → Prop
  /-- The answer to come. -/
  reply : Option ℕ

structure State where
  stores : Stores
  screen : Option Screen

inductive Event
  | enter
  | edit (k : Key) (more : Bool)
  | loadDefaults
  | save
  | discard
  | bootOverride (sys : System)
  | reply

def Screen.answered (sc : Screen) : Screen :=
  match sc.reply with
  | none => sc
  | some sec => { sc with s := update sc.s .bgRun (bgLabel sec), reply := none }

def State.step (x : State) : Event → State
  | .enter => { x with screen := some ⟨x.stores.shown, fun _ => False, some x.stores.grace⟩ }
  | .edit k more => { x with screen := x.screen.map fun sc =>
      { sc with s := update sc.s k (edited more k (sc.s k))
                touched := fun k' => k' = k ∨ sc.touched k' } }
  | .loadDefaults => { x with screen := x.screen.map fun sc =>
      { sc with s := defaults, touched := fun _ => True } }
  | .save | .bootOverride _ => match x.screen with
    | none => x
    | some sc => ⟨x.stores.persist sc.s, none⟩
  | .discard => { x with screen := none }
  | .reply => { x with screen := x.screen.map Screen.answered }

/-! ### What it should do -/

/-- What a save of the settings `s` owes the user. -/
structure SaveOk (st : Stores) (s : Settings) : Prop where
  /-- They are shown again on the next entry, before the reply and after it. -/
  shown : ∀ x : State, x.stores = st.persist s → ∀ sc ∈ (x.step .enter).screen,
    sc.s = s ∧ sc.answered.s = s
  /-- The menu boots as the boot override does. -/
  boots : ∀ sys, (st.persist s).boot sys (st.persist s).bios =
    (st.persist s).boot sys fun k => some (s k)
  others : (st.persist s).otherBios = st.otherBios ∧
    (st.persist s).otherEmulator = st.otherEmulator
  /-- The internet may be turned on again by a later save. -/
  relay : ∀ url t, st.netRelay = some (.custom url) → t .netInternet = true →
    ((st.persist s).persist t).netRelay = some (.custom url)

def Ok (x : State) : Event → Prop
  | .save | .bootOverride _ => ∀ sc ∈ x.screen, SaveOk x.stores sc.s
  | .reply => (x.step .reply).stores = x.stores ∧
      ∀ sc ∈ x.screen, ∀ k, sc.touched k → sc.answered.s k = sc.s k
  | e => (x.step e).stores = x.stores

/-- A save that the slips do not touch. The number of cores is not saved: the next entry shows the
one in the file or 2, and if there is none the emulator boots with the one it remembers. A relay is
forgotten when the internet is turned off. -/
structure SaveSpared (st : Stores) (s : Settings) : Prop where
  cores : (st.bios .cores).getD (2 : ℤ) = (s .cores : ℤ)
  remembered : st.bios .cores = none → ∀ n ∈ st.cores64, n ∈ coreOptions → n = 2
  relay : s .netInternet = false → ∀ url, st.netRelay ≠ some (.custom url)

/-- A reply is taken whatever the user has chosen. -/
def Spared (x : State) : Event → Prop
  | .save | .bootOverride _ => ∀ sc ∈ x.screen, SaveSpared x.stores sc.s
  | .reply => ∀ sc ∈ x.screen, sc.touched .bgRun → ∀ sec ∈ sc.reply, sc.s .bgRun = bgLabel sec
  | _ => True

/-- A property of every step of a sequence of events. -/
def Along (P : State → Event → Prop) : State → List Event → Prop
  | _, [] => True
  | x, e :: es => P x e ∧ Along P (x.step e) es

theorem mem_persisted {k : Key} (h : k ≠ .cores) : k ∈ persisted := by
  cases k <;> first | exact absurd rfl h | decide

theorem bgLabel_bgSec (b : BgRun) : bgLabel (bgSec b) = b := by
  cases b <;> rfl

section Save

variable (st : Stores) (s : Settings)

theorem bios_persist {k : Key} (h : k ≠ .cores) : (st.persist s).bios k = some (s k) :=
  if_pos (mem_persisted h)

theorem netRelay_persist :
    ((st.persist s).netRelay != some .off : Bool) = (s .netInternet : Bool) := by
  unfold Stores.persist
  dsimp only
  split
  case h_1 hon =>
    rw [hon]
    split <;> simp_all
  case h_2 hoff => exact hoff.symm

theorem shown_persist {k : Key} (h : k ≠ .cores) : (st.persist s).shown k = s k := by
  unfold Stores.shown
  rcases eq_or_ne k .resumeState with rfl | hresume
  · rw [update_self]
    change ((some (s .resumeState : Bool) != some false) : Bool) = _
    cases (s .resumeState : Bool) <;> rfl
  rw [update_of_ne hresume]
  rcases eq_or_ne k .netInternet with rfl | hnet
  · rw [update_self]
    exact netRelay_persist st s
  · rw [update_of_ne hnet, bios_persist st s h, getD_some]

theorem clamp_selectCores (n : ℤ) : clamp (selectCores n) 1 8 = selectCores n := by
  have hmem : selectCores n ∈ coreOptions := by
    rw [selectCores]
    split
    case isTrue hn => exact hn
    case isFalse => decide
  simp only [coreOptions, List.mem_cons, List.not_mem_nil, or_false] at hmem
  rcases hmem with h | h | h | h | h <;> rw [h] <;> decide

/-- Without a count in the file, the menu's Linux boots are those of an override with two cores
exactly when the emulator remembers no other count. -/
theorem smp_none_iff (cores64 : Option ℤ) :
    smp .x64pw none cores64 = smp .x64pw (some 2) cores64 ↔
      ∀ n ∈ cores64, n ∈ coreOptions → n = 2 := by
  have htwo : smp .x64pw (some 2) cores64 = some 2 := by
    cases cores64 <;> rfl
  rw [htwo]
  cases cores64 with
  | none => exact iff_of_true rfl (by simp)
  | some n =>
    rcases eq_or_ne n 0 with rfl | hzero
    · exact iff_of_true rfl (by simp [coreOptions])
    · have hsmp : smp .x64pw none (some n) = some (selectCores n) := by
        simp [smp, truthy, Option.filter, hzero, clamp_selectCores]
      rw [hsmp, Option.some.injEq, selectCores]
      split <;> simp [*]

theorem saveOk_iff : SaveOk st s ↔ SaveSpared st s := by
  constructor
  · intro h
    have hshown : (st.bios .cores).getD (2 : ℤ) = (s .cores : ℤ) :=
      congrFun (h.shown ⟨_, none⟩ rfl _ rfl).1 .cores
    refine ⟨hshown, fun hnone => ?_, fun hoff url hurl => ?_⟩
    · have hboots := congrArg (·.2.2) (h.boots ⟨.x64pw, none, false⟩)
      change smp .x64pw (truthy (st.bios .cores)) st.cores64 =
        smp .x64pw (truthy (some (s .cores))) st.cores64 at hboots
      rw [← hshown, hnone] at hboots
      exact (smp_none_iff st.cores64).mp hboots
    · have hlost := h.relay url defaults hurl rfl
      simp only [Stores.persist, hoff] at hlost
      cases hlost
  · intro h
    have hshown : (st.persist s).shown = s := by
      funext k
      rcases eq_or_ne k .cores with rfl | hk
      · exact h.cores
      · exact shown_persist st s hk
    refine ⟨?_, fun sys => ?_, ⟨rfl, rfl⟩, fun url t hurl ht => ?_⟩
    · rintro x hx _ ⟨⟩
      refine ⟨hx ▸ hshown, ?_⟩
      change update x.stores.shown .bgRun (bgLabel x.stores.grace) = s
      rw [hx, hshown]
      change update s .bgRun (bgLabel (bgSec (s .bgRun))) = s
      rw [bgLabel_bgSec, update_eq_self]
    · have hcores : smp sys.guest (truthy (st.bios .cores)) st.cores64 =
          smp sys.guest (truthy (some (s .cores))) st.cores64 := by
        rw [← h.cores]
        cases hbios : st.bios .cores with
        | some n => rfl
        | none =>
          have hlinux := (smp_none_iff st.cores64).mpr (h.remembered hbios)
          cases sys.guest with
          | custom => rfl
          | x64pw | x64pwd => exact hlinux
          | android64 => exact congrArg some (by simp only [clamp]; omega)
      simp only [Stores.boot, systemToArgs, bios_persist st s (k := .ram) (by decide),
        bios_persist st s (k := .bootOrder) (by decide)]
      exact congrArg (fun n => (_, _, n)) hcores
    · have hon : (s .netInternet : Bool) = true := by
        rw [← Bool.not_eq_false]
        exact fun hoff => h.relay hoff url hurl
      simp [Stores.persist, ht, hon, hurl]

end Save

theorem ok_iff (x : State) (e : Event) : Ok x e ↔ Spared x e := by
  cases e with
  | save | bootOverride => exact forall₂_congr fun sc _ => saveOk_iff x.stores sc.s
  | reply =>
    refine ⟨fun h sc hsc htouched sec hsec => ?_, fun h => ⟨rfl, fun sc hsc k htouched => ?_⟩⟩
    · have hkept := h.2 sc hsc .bgRun htouched
      rw [Screen.answered, hsec] at hkept
      rw [← hkept]
      exact update_self Key.bgRun (bgLabel sec) sc.s
    · unfold Screen.answered
      split
      case h_1 => rfl
      case h_2 sec hsec =>
        rcases eq_or_ne k .bgRun with rfl | hk
        · rw [h sc hsc htouched sec hsec]
          exact update_self Key.bgRun (bgLabel sec) sc.s
        · exact update_of_ne hk ..
  | enter | edit | loadDefaults | discard => exact iff_of_true rfl trivial

/-- Every step of a sequence is as it should be exactly when every step is spared the three
slips. -/
theorem steps_ok_iff (x : State) (es : List Event) : Along Ok x es ↔ Along Spared x es := by
  induction es generalizing x with
  | nil => exact Iff.rfl
  | cons e es ih => exact and_congr (ok_iff x e) (ih _)

/-- A device on which nothing has been saved but a relay of the user's own. -/
def fresh : State :=
  ⟨⟨fun _ => none, fun _ => none, some (.custom "wss://relay.widgetry.org/"), none, none,
    fun _ => none, 30⟩, none⟩

/-- On a device on which no cores have been chosen, Setup saves more memory as it should. -/
theorem memory_saved : Along Ok fresh [.enter, .edit .ram true, .save, .enter, .reply] := by
  refine (steps_ok_iff _ _).mpr ⟨trivial, trivial, ?_, trivial, ?_, trivial⟩
  · rintro _ ⟨⟩
    exact ⟨rfl, fun _ _ hn => (nomatch hn), fun hoff => (nomatch hoff)⟩
  · rintro _ ⟨⟩ htouched
    exact htouched.elim

/-- One core is chosen and saved: two are shown again, and a boot from the menu has two cores where
a boot override has one. -/
theorem cores_not_saved :
    let shown := (fresh.step .enter).step (.edit .cores false)
    let saved := shown.step .save
    ¬Along Ok fresh [.enter, .edit .cores false, .save] ∧
      shown.screen.map (·.s .cores) = some (1 : ℤ) ∧
      (saved.step .enter).screen.map (·.s .cores) = some (2 : ℤ) ∧
      (saved.stores.boot ⟨.x64pw, none, false⟩ saved.stores.bios).2.2 = some 2 ∧
      ∀ sc ∈ shown.screen,
        (saved.stores.boot ⟨.x64pw, none, false⟩ fun k => some (sc.s k)).2.2 = some 1 := by
  refine ⟨fun h => ?_, by decide, by decide, by decide, ?_⟩
  · exact nomatch ((h.2.2.1 _ rfl).boots ⟨.x64pw, none, false⟩)
  · rintro _ ⟨⟩
    decide

end Bootbox.Emulator.FirmwareSetup
