import Zap.Laws.Denote
import Zap.Laws.FieldMembers
import Zap.Laws.BufferedWriteSyncer
import Zap.Laws.FailedFlush
import Zap.Laws.Shutdown
import Zap.Laws.Delivery
import Zap.Laws.LazyWith
import Zap.Laws.Sampler
import Zap.Laws.CounterSteps
import Zap.Laws.IoCore
import Zap.Laws.LevelOf
import Zap.Laws.CheckedEntry
import Zap.Laws.Terminal
import Zap.Laws.UnwindingLoggers
import Zap.Laws.MemoryEncoder
import Zap.Laws.PooledEncoder
import Zap.Laws.WriteSyncer
import Zap.Laws.ZapioWriter
import Zap.Laws.SweetenFields
import Zap.Laws.Open
import Zap.Laws.Windows
import Zap.Laws.TimeLayout
import Zap.Laws.Spaced
import Zap.Laws.Zapslog
import Zap.Laws.LevelText
import Zap.Laws.HttpHandler
import Zap.Laws.Sink
import Zap.Laws.Complex
import Zap.Laws.ErrorArray
import Zap.Laws.Construction
import Zap.Laws.Primitive
import Zap.Laws.EncodeEntry
import Zap.Laws.FieldEquals
import Zap.Laws.Global
import Zap.Laws.Stacktrace
import Zap.Laws.Zapgrpc
import Zap.Laws.SharedSyncer
import Zap.Laws.Durable
import Zap.Laws.ConcurrentLines
import Zap.Laws.Observer
import Zap.Laws.WriteErrors
