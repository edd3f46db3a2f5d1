import KmushiCoin.Evo.InternalIds
import KmushiCoin.Evo.Banned
import KmushiCoin.Evo.Reconnect
import KmushiCoin.Masternode.BlockPayees
import KmushiCoin.Masternode.Winners
import KmushiCoin.Masternode.DoublePayment
import KmushiCoin.Staking.StakeInput
import KmushiCoin.Chain.Work
import KmushiCoin.Mempool.Indexes
import KmushiCoin.Coins.Compressor
import KmushiCoin.Db.Iterator
import KmushiCoin.Budget.ForgedVotes
import KmushiCoin.Budget.Winning
import KmushiCoin.Validation.UniqueIds
import KmushiCoin.Script.SignatureBinding
import KmushiCoin.Mining.Limits
import KmushiCoin.Masternode.Announcements
import KmushiCoin.Masternode.BestHeight
import KmushiCoin.Wallet.NoteData
import KmushiCoin.Coins.IncrementalTree
import KmushiCoin.Wallet.CoinStake
import KmushiCoin.Primitives.Numbers
