import Bootbox.LazyPack.Refinement
import Bootbox.RepString.Loop
import Bootbox.Tcg.CallWrapper
import Bootbox.Tcg.GuestAccessWasm
import Bootbox.Tcg.Resume
import Bootbox.System.CpuTicks
import Bootbox.Vfs.Disk
import Bootbox.Tcg.LebWriters
import Bootbox.Tcg.GenTables
import Bootbox.Tcg.InstanceTable
import Bootbox.Tcg.Regen
import Bootbox.Tcg.TciRoundTrip
import Bootbox.Tcg.PlainAgree
import Bootbox.Tcg.Atomic16
import Bootbox.Adb.Exit
import Bootbox.Host.Upload
import Bootbox.Host.Gunzip
import Bootbox.Host.Download
import Bootbox.Host.Inspect
import Bootbox.Host.Manifest
import Bootbox.Android.PackageStream
import Bootbox.Vfs.Effects
import Bootbox.Vfs.CommandPrompt
import Bootbox.Desktop.WindowManager
import Bootbox.Host.FileRequests
import Bootbox.Panel.SaveFile
import Bootbox.Viewer.DirectTouch
import Bootbox.Vfs.FileExplorer
import Bootbox.Dex.Run
import Bootbox.Emulator.SafeLevel
import Bootbox.Emulator.FirmwareSetup
