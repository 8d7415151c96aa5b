import Shark.Lib.Bytes
import Shark.Lib.CExpr
import Shark.Lib.CText
import Shark.Lib.Cursor
import Shark.Lib.Double
import Shark.Lib.Framing
import Shark.Lib.HeapTree
import Shark.Lib.LuaPattern
import Shark.Lib.LuaString
import Shark.Lib.Merge
import Shark.Lib.Segment
import Shark.Lib.SortedKeys
import Shark.Core.End
import Shark.Core.Args
import Shark.Core.Heap
import Shark.Core.Timers
import Shark.Core.EventLoop
import Shark.Core.OnTime
import Shark.Core.PerfEnable
import Shark.Core.TableSort
import Shark.Core.Refs
import Shark.Core.Signals
import Shark.Core.SignalCalls
import Shark.Core.IoPoll
import Shark.Bpf.Kernel
import Shark.Bpf.Lua
import Shark.Bpf.Accessors
import Shark.Bpf.ScalarMap
import Shark.Bpf.LostUpdate
import Shark.Bpf.Absence
import Shark.Bpf.Decode
import Shark.Bpf.Traversal
import Shark.Bpf.TraversalEnd
import Shark.Bpf.CopyMap
import Shark.Bpf.StringKey
import Shark.Bpf.MapDecl
import Shark.Bpf.MapNames
import Shark.Bpf.DeclType
import Shark.Bpf.SizeExpr
import Shark.Bpf.Translate
import Shark.Bpf.Lines
import Shark.Bpf.Load
import Shark.Bpf.LoadTrace
import Shark.Bpf.Relocation
import Shark.Bpf.LoadResult
import Shark.Bpf.LoadSeq
import Shark.Bpf.LoadBounds
import Shark.Bpf.AttachTables
import Shark.Bpf.LoadRun
import Shark.Bpf.LoadComplete
import Shark.Bpf.SockAttach
import Shark.Bpf.Var
import Shark.Bpf.Globals
import Shark.Bpf.Hist
import Shark.Core.PrintHist
import Shark.Perf.Evlist
import Shark.Perf.ParseTime
import Shark.Perf.Consume
import Shark.Perf.Quiet
import Shark.Perf.Delivery
import Shark.Perf.Block
import Shark.Perf.Session
import Shark.Perf.Flush
import Shark.Perf.Once
import Shark.Perf.Stats
import Shark.Perf.Config
import Shark.Perf.Ctype
import Shark.Perf.FormatStruct
import Shark.Perf.RawField
import Shark.Perf.Callchain
import Shark.Cloud.GistPost
import Shark.Cloud.Senddata
import Shark.Cloud.Http
import Shark.Cloud.Message
import Shark.Cloud.Request
import Shark.Core.PollTimeout
