import Byze.DifficultyTransition
import Byze.TailMalleability
import Byze.AcceptedBlocks
import Byze.MinerLimits
import Byze.InitialBlockDownload
import Byze.HeadersSyncSound
import Byze.CompactBlocks
import Byze.Wallet.OwnRoot
import Byze.Wallet.LockedSigning
import Byze.Wallet.Restore
import Byze.RandomX
import Byze.SteadyRetarget
import Byze.KeyIo
import Byze.BumpFees
import Byze.BlockInvalidation
import Byze.Wallet.CleanSigning
import Byze.MerklePath
import Byze.Wallet.KeyRecords
import Byze.Wallet.Bip39
import Byze.DustThreshold
import Byze.DisconnectBlock
import Byze.CoinsStack
import Byze.MiningWork
import Byze.Wallet.Sealing
import Byze.SequenceLocks
import Byze.CompactWork
import Byze.VersionBits
import Byze.Base58
import Byze.Bech32Repair
import Byze.CheckQueue
import Byze.FeeFrac
import Byze.TrucPolicy
import Byze.Asmap
import Byze.FixLinearization
import Byze.Integers
import Byze.ScriptNumber
