import Ps2Ripper.Imaging.Archive
import Ps2Ripper.Imaging.DeadSector
import Ps2Ripper.Imaging.DvdCoverage
import Ps2Ripper.Optical.TocSpec
import Ps2Ripper.Optical.TrackChoice
import Ps2Ripper.Core.Concurrency
import Ps2Ripper.Core.Retry
import Ps2Ripper.Core.Cancellation
import Ps2Ripper.Windows.BlockStream
import Ps2Ripper.Windows.VolumeLock
import Ps2Ripper.Windows.RawDisk
import Ps2Ripper.Ui.MainWindow
import Ps2Ripper.Windows.StorageApi
import Ps2Ripper.Windows.SafetyCheck
import Ps2Ripper.Windows.DriveLayout
import Ps2Ripper.Storage.BootRegions
import Ps2Ripper.Ps2.CnfGrammar
import Ps2Ripper.Ps2.SafeNames
import Ps2Ripper.Imaging.Conversion
import Ps2Ripper.Imaging.Ownership
import Ps2Ripper.Imaging.ReadBudget
import Ps2Ripper.Imaging.ShortWrites
import Ps2Ripper.Core.Retained
import Ps2Ripper.Storage.SectorCache
import Ps2Ripper.Storage.ImageFile
import Ps2Ripper.Binary.Bits
import Ps2Ripper.Binary.Runs
import Ps2Ripper.Storage.ChainFile
import Ps2Ripper.Storage.UpcaseTable
import Ps2Ripper.Storage.VhdFormat
