import EthereumAI.Common.Math
import EthereumAI.Common.Types
import EthereumAI.Evm.Instructions
import EthereumAI.Lib.Journal
import EthereumAI.Lib.PrefixMap
import EthereumAI.State.Object
import EthereumAI.State.StateDB
import EthereumAI.State.View
import EthereumAI.State.Revert
import EthereumAI.State.Mutators
import EthereumAI.State.Snapshot
import EthereumAI.Rlp.Encode
import EthereumAI.Rlp.Stream
import EthereumAI.Rlp.Decode
import EthereumAI.Rlp.Raw
import EthereumAI.Trie.Encoding
import EthereumAI.Trie.Node
import EthereumAI.Trie.Proof
import EthereumAI.Rlp.Item
import EthereumAI.Trie.Database
import EthereumAI.Trie.Hasher
import EthereumAI.Trie.Trie
import EthereumAI.Trie.Semantics
import EthereumAI.Trie.Lookup
import EthereumAI.Trie.Insert
import EthereumAI.Trie.Delete
import EthereumAI.Trie.Canonical
import EthereumAI.Trie.Runs
import EthereumAI.Trie.HashCache
import EthereumAI.Trie.Codec
import EthereumAI.Trie.Commit
import EthereumAI.Lib.Addressed
import EthereumAI.Trie.ProofComplete
import EthereumAI.Lib.ByteBits
import EthereumAI.Evm.Analysis
import EthereumAI.Evm.MemoryGas
import EthereumAI.Core.BlockChain
import EthereumAI.Eaiash.Algorithm
import EthereumAI.Netutil.Net
import EthereumAI.Discover.Table
import EthereumAI.Abi.Argument
import EthereumAI.Clique.Snapshot
import EthereumAI.Clique.Voting
import EthereumAI.Evm.CallGas
import EthereumAI.State.Ledger
import EthereumAI.State.Growth
import EthereumAI.Evm.Calls
import EthereumAI.Core.StateTransition
import EthereumAI.Rlp.Buffer
import EthereumAI.Evm.ReadOnly
import EthereumAI.Lib.Heap
import EthereumAI.Types.Transaction
import EthereumAI.Lib.AListValues
import EthereumAI.Core.TxList
import EthereumAI.Core.TxPricedList
import EthereumAI.Core.TxPool
import EthereumAI.Les.FlowControl
import EthereumAI.Lib.SortSearch
import EthereumAI.Enr.Record
import EthereumAI.Common.Compress
import EthereumAI.Common.Hexutil
import EthereumAI.Trie.CacheGen
import EthereumAI.Trie.Refcount
import EthereumAI.Rlp.InList
import EthereumAI.Rlp.RawValue
import EthereumAI.Enr.Decode
import EthereumAI.Eaiash.Difficulty
import EthereumAI.Lib.Nearest
import EthereumAI.Lib.BigEndian
import EthereumAI.Discover.Distinct
import EthereumAI.Discover.Closest
import EthereumAI.Core.StateProcessor
import EthereumAI.Types.Signing
import EthereumAI.State.Finalise
import EthereumAI.Les.ClientManager
import EthereumAI.Swarm.Chunker
import EthereumAI.Swarm.Pyramid
import EthereumAI.Bmt.Hasher
import EthereumAI.Lib.KeyStream
import EthereumAI.P2p.Rlpx
import EthereumAI.Crypto.Ecies
import EthereumAI.P2p.Handshake
import EthereumAI.P2p.Session
import EthereumAI.Evm.ModExp
import EthereumAI.Whisper.Message
import EthereumAI.Whisper.Envelope
import EthereumAI.Lib.Counter
import EthereumAI.Eai.Fetcher
import EthereumAI.Eai.Counters
import EthereumAI.Lib.Layout
import EthereumAI.P2p.Peer
import EthereumAI.Downloader.Ancestor
import EthereumAI.Core.ChainIndexer
import EthereumAI.Lib.GoList
import EthereumAI.P2p.Udp
import EthereumAI.Lib.Slice
import EthereumAI.Event.Feed
import EthereumAI.Event.Invariant
import EthereumAI.Event.Delivery
