import LimitOrderBook.Lib.Loop
import LimitOrderBook.Lib.Run
import LimitOrderBook.Lib.DList
import LimitOrderBook.Lib.FreeChain
import LimitOrderBook.Lib.WeakMemory
import LimitOrderBook.Lib.WordSet
import LimitOrderBook.Lib.Buckets
import LimitOrderBook.Lib.Sweep
import LimitOrderBook.Lib.Ring
import LimitOrderBook.Types
import LimitOrderBook.Order
import LimitOrderBook.LevelLists
import LimitOrderBook.Bitset
import LimitOrderBook.BitsetHistory
import LimitOrderBook.PriceLadder
import LimitOrderBook.PriceTicks
import LimitOrderBook.LadderCheck
import LimitOrderBook.MatchingEngine
import LimitOrderBook.Book
import LimitOrderBook.Layout
import LimitOrderBook.PoolAllocator
import LimitOrderBook.Edits
import LimitOrderBook.View
import LimitOrderBook.Matching
import LimitOrderBook.Calls
import LimitOrderBook.Runs
import LimitOrderBook.BookOrder
import LimitOrderBook.Quotes
import LimitOrderBook.Invariants
import LimitOrderBook.Greedy
import LimitOrderBook.RoundBound
import LimitOrderBook.PoolExhaustion
import LimitOrderBook.ReferenceEngine
import LimitOrderBook.ReferenceView
import LimitOrderBook.ReferenceCalls
import LimitOrderBook.ReferenceInvariants
import LimitOrderBook.Differential
import LimitOrderBook.TopOfBook
import LimitOrderBook.Ledger
import LimitOrderBook.Lifecycle
import LimitOrderBook.Conservation
import LimitOrderBook.OffLadder
import LimitOrderBook.Replay
import LimitOrderBook.Withdrawal
import LimitOrderBook.Mirror
import LimitOrderBook.Commuting
import LimitOrderBook.DuplicateIds
import LimitOrderBook.SpscQueue
import LimitOrderBook.SpscFifo
import LimitOrderBook.SpscObservers
import LimitOrderBook.SpscWeakMemory
import LimitOrderBook.SpscWeakFifo
import LimitOrderBook.SpscWeakObservers
import LimitOrderBook.OrderGateway
import LimitOrderBook.SequenceNumbers
import LimitOrderBook.RestingReport
import LimitOrderBook.FillOrKill
import LimitOrderBook.Priority
import LimitOrderBook.MarketData
import LimitOrderBook.LevelTotals
import LimitOrderBook.Slicing
import LimitOrderBook.MarketDataHandler
import LimitOrderBook.Pipeline
import LimitOrderBook.PipelineRuns
import LimitOrderBook.Balance
import LimitOrderBook.LimitPrices
import LimitOrderBook.Crossing
import LimitOrderBook.Relabel
import LimitOrderBook.Observation
import LimitOrderBook.PoolSize
import LimitOrderBook.Parking
import LimitOrderBook.Aggressive
import LimitOrderBook.ReferenceMemory
import LimitOrderBook.PartialFills
import LimitOrderBook.ReachableBooks
import LimitOrderBook.Lib.Queue
import LimitOrderBook.QueueOrder
import LimitOrderBook.CancelReplace
import LimitOrderBook.PoolClient
