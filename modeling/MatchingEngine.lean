import MatchingEngine.Lib.Loop
import MatchingEngine.Lib.HeapOrder
import MatchingEngine.Common
import MatchingEngine.Comparators
import MatchingEngine.BinaryHeap
import MatchingEngine.OrderQueue
import MatchingEngine.ContractEngine
import MatchingEngine.Contract.Book
import MatchingEngine.Contract.Loops
import MatchingEngine.Contract.Runs
import MatchingEngine.Lib.FairSplit
import MatchingEngine.Lib.Cursor
import MatchingEngine.Lib.Refinement
import MatchingEngine.BinaryHeap.Image
import MatchingEngine.BinaryHeap.Queue
import MatchingEngine.Lib.Registry
import MatchingEngine.Lib.Ring
import MatchingEngine.Lib.MarkToMarket
import MatchingEngine.Lib.Sweep
import MatchingEngine.Lib.LittleEndian
import MatchingEngine.Lib.TolerantLex
import MatchingEngine.Lib.Traverse
import MatchingEngine.Lib.PriorityQueue
import MatchingEngine.Lib.Parking
import MatchingEngine.Lib.ByteStream
import MatchingEngine.Contract.Twap
import MatchingEngine.Contract.Sound
import MatchingEngine.Contract.Volume
import MatchingEngine.Contract.Deals
import MatchingEngine.Contract.Pnl
import MatchingEngine.Contract.Position
import MatchingEngine.Contract.Conservation
import MatchingEngine.Contract.Release
import MatchingEngine.Contract.Turnover
import MatchingEngine.Contract.Limits
import MatchingEngine.Contract.Order
import MatchingEngine.Contract.Refused
import MatchingEngine.Contract.AllOrNothing
import MatchingEngine.Contract.BestFive
import MatchingEngine.Contract.FillLaw
import MatchingEngine.Contract.TradePrice
import MatchingEngine.Contract.Lots
import MatchingEngine.Contract.Reference
import MatchingEngine.Contract.Agreement
import MatchingEngine.Contract.Shift
import MatchingEngine.TradeEngine
import MatchingEngine.Trade.Instruments
import MatchingEngine.Trade.Probing
import MatchingEngine.Trade.Results
import MatchingEngine.Trade.Isolation
import MatchingEngine.Trade.Ledger
import MatchingEngine.Trade.Compaction
import MatchingEngine.Entrance
import MatchingEngine.Entrance.HandOff
import MatchingEngine.Entrance.Files
import MatchingEngine.Entrance.Calls
import MatchingEngine.Entrance.Progress
import MatchingEngine.Entrance.Framing
import MatchingEngine.Entrance.OrderLog
import MatchingEngine.Entrance.Header
import MatchingEngine.BaselineEntrance
import MatchingEngine.BaselineEntrance.Days
import MatchingEngine.BaselineEntrance.Drivers
import MatchingEngine.Net
import MatchingEngine.Net.Upload
import MatchingEngine.Lib.Fairness
import MatchingEngine.Entrance.Fair
import MatchingEngine.BaselineEntrance.Fair
import MatchingEngine.Lib.Rounding
import MatchingEngine.Lib.Binary64
import MatchingEngine.Lib.Layout
import MatchingEngine.Records
import MatchingEngine.Entrance.Reports
import MatchingEngine.BaselineTest
import MatchingEngine.Lib.Isolated
import MatchingEngine.Net.Server
import MatchingEngine.Net.Delivery
import MatchingEngine.Net.Unfinished
import MatchingEngine.Entrance.PathList
import MatchingEngine.BinaryHeap.Related
import MatchingEngine.Floating.Arithmetic
import MatchingEngine.Floating.Near
import MatchingEngine.Floating.Trades
import MatchingEngine.Floating.Limits
import MatchingEngine.Floating.Immediate
import MatchingEngine.Floating.Agreement
import MatchingEngine.Floating.TradeEngine
import MatchingEngine.FileComparator
import MatchingEngine.Floating.Report
