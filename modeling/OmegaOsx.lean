import OmegaOsx.MlsDisk.CryptoChainRuns
import OmegaOsx.MlsDisk.JournalCrash
import OmegaOsx.MlsDisk.CompactPolicy
import OmegaOsx.MlsDisk.AppendBuf
import OmegaOsx.MlsDisk.SSTableRoundTrip
import OmegaOsx.MlsDisk.RawLogReclaim
import OmegaOsx.MlsDisk.RawLogContents
import OmegaOsx.MlsDisk.BlockAllocRecovery
import OmegaOsx.RangeLock.Refinement
import OmegaOsx.FrameAllocator.Alignment
import OmegaOsx.RingBuffer.Fifo
import OmegaOsx.Exfat.Rename
import OmegaOsx.Exfat.Direct
import OmegaOsx.Exfat.Timestamp
import OmegaOsx.PageTable.Refinement
import OmegaOsx.Ext2.XattrReload
import OmegaOsx.Ext2.InodeSync
import OmegaOsx.Ext2.InodeDesc
import OmegaOsx.Credentials.Identity
import OmegaOsx.Semaphore.Atomic
import OmegaOsx.Dentries.Coherence
import OmegaOsx.Dentries.RenameCheck
import OmegaOsx.RwMutex.Exclusion
import OmegaOsx.Rcu.Monitor
import OmegaOsx.Sched.Fair
import OmegaOsx.Vm.Vmo
