import GrinDotnet.Lib.BestSubset
import GrinDotnet.Lib.BigEndian
import GrinDotnet.Lib.Cancellation
import GrinDotnet.Lib.Covering
import GrinDotnet.Lib.Dictionary
import GrinDotnet.Lib.ExactSum
import GrinDotnet.Lib.Outcome
import GrinDotnet.Lib.Run
import GrinDotnet.Lib.Pool
import GrinDotnet.Lib.RingSignature
import GrinDotnet.Lib.Ownership
import GrinDotnet.Lib.StableSort
import GrinDotnet.Lib.Word64
import GrinDotnet.Lib.ZeroFilled
import GrinDotnet.Common.Errors
import GrinDotnet.Common.HexUtil
import GrinDotnet.Common.HexStrings
import GrinDotnet.Secp.Native
import GrinDotnet.Secp.Pedersen
import GrinDotnet.Secp.Pairs
import GrinDotnet.Keychain.ExtendedKey
import GrinDotnet.Keychain.Keychain
import GrinDotnet.Keychain.PairKeychain
import GrinDotnet.Keychain.DerivationPath
import GrinDotnet.Keychain.KeyRecovery
import GrinDotnet.Keychain.ConcurrentLookup
import GrinDotnet.Core.Consensus
import GrinDotnet.Core.Ser
import GrinDotnet.Core.Transaction
import GrinDotnet.Core.Committed
import GrinDotnet.Core.Conservation
import GrinDotnet.Common.Linq
import GrinDotnet.Core.BlockHeader
import GrinDotnet.Core.Block
import GrinDotnet.Core.Difficulty
import GrinDotnet.Core.TotalDifficulty
import GrinDotnet.Core.KernelChecks
import GrinDotnet.Core.BlockSupply
import GrinDotnet.Core.BlockWeight
import GrinDotnet.Core.CutThrough
import GrinDotnet.Core.BlockBuilding
import GrinDotnet.Core.Build
import GrinDotnet.Core.BuildPlan
import GrinDotnet.Core.KernelMessage
import GrinDotnet.Core.Wire
import GrinDotnet.Core.BlockWire
import GrinDotnet.Core.Compaction
import GrinDotnet.Core.Merge
import GrinDotnet.Core.ConstructionOrder
import GrinDotnet.Core.Layout
import GrinDotnet.Core.LengthPrefix
import GrinDotnet.Core.WireOrder
import GrinDotnet.Core.Truncation
import GrinDotnet.Wallet.WalletData
import GrinDotnet.Wallet.WalletSeed
import GrinDotnet.Wallet.Selection
import GrinDotnet.Wallet.BestSelection
import GrinDotnet.Wallet.Economical
import GrinDotnet.Wallet.World
import GrinDotnet.Wallet.FileUpdate
import GrinDotnet.Wallet.Checker
import GrinDotnet.Wallet.Sender
import GrinDotnet.Wallet.Info
import GrinDotnet.Wallet.Burn
import GrinDotnet.Wallet.Receiver
import GrinDotnet.Wallet.Exchange
import GrinDotnet.Wallet.CoinbaseRebuild
import GrinDotnet.Wallet.Rejection
import GrinDotnet.Wallet.Credit
import GrinDotnet.Wallet.LockRelease
import GrinDotnet.Wallet.Serializable
import GrinDotnet.Wallet.SendSteps
import GrinDotnet.Wallet.NotEnoughFunds
import GrinDotnet.Wallet.ConcurrentRefresh
import GrinDotnet.Wallet.RefreshFrame
import GrinDotnet.Wallet.DoubleSelection
import GrinDotnet.Wallet.Finality
import GrinDotnet.Wallet.Server
import GrinDotnet.Wallet.ConcurrentRequests
import GrinDotnet.Wallet.Posted
import GrinDotnet.Wallet.Settlement
import GrinDotnet.Wallet.Traces
import GrinDotnet.Wallet.Operations
import GrinDotnet.Wallet.KeyReuse
import GrinDotnet.Wallet.Tracking
import GrinDotnet.Secp.Curve
import GrinDotnet.Secp.RangeproofParams
import GrinDotnet.Lib.FlagBytes
import GrinDotnet.Secp.Rangeproof
import GrinDotnet.Secp.Rewind
import GrinDotnet.Secp.Der
import GrinDotnet.Secp.Ecdsa
import GrinDotnet.Secp.Accumulator
import GrinDotnet.Secp.Scalar
import GrinDotnet.Lib.PostOrder
import GrinDotnet.Mmr.Navigation
import GrinDotnet.Lib.MountainRange
import GrinDotnet.Mmr.MountainRange
import GrinDotnet.Mmr.PruneList
