import MiniTrader.OrderBook.Resting
import MiniTrader.OrderBook.Run
import MiniTrader.Lib.Relational
import MiniTrader.Lib.ReleaseAcquire
import MiniTrader.Lib.SharedRing
import MiniTrader.OrderBook.Parametric
import MiniTrader.OrderBook.Accounting
import MiniTrader.OrderBook.Queue
import MiniTrader.OrderBook.Fills
import MiniTrader.Lib.StableSort
import MiniTrader.OrderBook.Reach
import MiniTrader.OrderBook.MarketOrder
import MiniTrader.OrderBook.Crossing
import MiniTrader.OrderBook.Mirror
import MiniTrader.OrderBook.Exchange
import MiniTrader.OrderBook.Unseen
import MiniTrader.OrderBook.Reference
import MiniTrader.OrderBook.LimitPrice
import MiniTrader.OrderBook.LevelAccess
import MiniTrader.OrderBook.Reentrancy
import MiniTrader.Core.SPSCQueue
import MiniTrader.Core.SequentialQueue
import MiniTrader.Core.DevQueue
import MiniTrader.Core.QueueCalls
import MiniTrader.Core.QueueThreads
import MiniTrader.Risk.RiskGate
import MiniTrader.Risk.PositionLimit
import MiniTrader.Risk.Projection
import MiniTrader.Risk.OrderRate
import MiniTrader.Strategy.SpreadStrategy
import MiniTrader.Lib.Extraction
import MiniTrader.Network.CsvReplay
import MiniTrader.Network.CsvFile
import MiniTrader.Engine.Rules
import MiniTrader.Engine.Parametric
import MiniTrader.Engine.Measurement
import MiniTrader.Engine.Batches
import MiniTrader.Engine.RealtimeProgress
import MiniTrader.Engine.Unthrottled
import MiniTrader.Engine.RealtimeReplay
import MiniTrader.Engine.Grammar
import MiniTrader.Engine.Position
import MiniTrader.Engine.SelfTrade
import MiniTrader.Engine.Quotes
import MiniTrader.Engine.QuotedBook
import MiniTrader.Engine.RecvMode
import MiniTrader.Engine.DeadQuotes
import MiniTrader.Engine.Orphans
import MiniTrader.Engine.LevelRange
import MiniTrader.Engine.Inventory
import MiniTrader.Engine.Cash
import MiniTrader.Engine.CancelRatio
import MiniTrader.Engine.Nested
import MiniTrader.Engine.ActiveOrders
import MiniTrader.Engine.GhostEntries
import MiniTrader.Engine.Realtime
import MiniTrader.Engine.CancelPaths
import MiniTrader.Engine.StartStop
import MiniTrader.Engine.LatencySamples
import MiniTrader.Engine.PercentileOrder
import MiniTrader.Engine.QueueWait
import MiniTrader.OrderBook.Visits
import MiniTrader.OrderBook.Cancellable
import MiniTrader.OrderBook.LevelDepth
import MiniTrader.Engine.Depth
import MiniTrader.Engine.NaiveEngine
