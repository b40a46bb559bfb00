import NoLimitCoin.Compact
import NoLimitCoin.Download
import NoLimitCoin.ImportFile
import NoLimitCoin.SignatureChecks
import NoLimitCoin.BlockHeights
import NoLimitCoin.StakeReward
import NoLimitCoin.Alert
import NoLimitCoin.TxMessage
import NoLimitCoin.StakeModifier
import NoLimitCoin.Trial
import NoLimitCoin.Eviction
import NoLimitCoin.CanonicalSignature
import NoLimitCoin.WalletCache
import NoLimitCoin.AddressGroupings
import NoLimitCoin.DataStream
import NoLimitCoin.ListSinceBlock
import NoLimitCoin.KeyBirth
import NoLimitCoin.LoadWallet
import NoLimitCoin.Balances
import NoLimitCoin.SupportingOrder
import NoLimitCoin.AddrFileSafe
import NoLimitCoin.WildcardMatch
import NoLimitCoin.MedianTime
import NoLimitCoin.TimeOffset
import NoLimitCoin.NetBase
import NoLimitCoin.WalletDump
import NoLimitCoin.RawTransactionMerge
import NoLimitCoin.Reaccept
import NoLimitCoin.MruSet
import NoLimitCoin.FindAndDelete
import NoLimitCoin.BaseUintHex
import NoLimitCoin.LockedPages
import NoLimitCoin.ChainLedger
import NoLimitCoin.BlockTemplate
