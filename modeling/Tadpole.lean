import Tadpole.Lib.Bits
import Tadpole.Lib.Chain
import Tadpole.Lib.OrderedMap
import Tadpole.Lib.Decimal
import Tadpole.Lib.Resp
import Tadpole.Lib.Mealy
import Tadpole.Lib.OnlyLast
import Tadpole.CString
import Tadpole.Numerals
import Tadpole.Sds
import Tadpole.SkipList
import Tadpole.SkipListShape
import Tadpole.SkipListDescent
import Tadpole.SkipListInsert
import Tadpole.SkipListReplace
import Tadpole.SkipListDelete
import Tadpole.SkipListMap
import Tadpole.SignalSave
import Tadpole.SkipListRuns
import Tadpole.SkipListScan
import Tadpole.SkipListCounter
import Tadpole.Commands
import Tadpole.Dispatch
import Tadpole.Reference
import Tadpole.Store
import Tadpole.FixedLengthRuns
import Tadpole.PutAtomicity
import Tadpole.VariableLength
import Tadpole.VariableScan
import Tadpole.Replies
import Tadpole.SaveDb
import Tadpole.LoadDb
import Tadpole.LoadInvariant
import Tadpole.Restart
import Tadpole.SavedFile
import Tadpole.Client
import Tadpole.InputLoop
import Tadpole.Framer
import Tadpole.FramerRefinement
import Tadpole.FramerRuns
import Tadpole.Connection
import Tadpole.Decoding
import Tadpole.Rejection
import Tadpole.BigArguments
import Tadpole.Assertions
import Tadpole.ArgumentLoop
import Tadpole.InlineCommands
import Tadpole.QuitLoop
import Tadpole.Quit
import Tadpole.QueryBuffer
import Tadpole.LoopTermination
import Tadpole.MemoryDiscipline
import Tadpole.Grammar
import Tadpole.SocketWrites
import Tadpole.SendLoop
import Tadpole.Dict
import Tadpole.DictInvariant
import Tadpole.DictUpdate
import Tadpole.DictRuns
import Tadpole.CommandTable
import Tadpole.LiveServer
import Tadpole.LiveRuns
import Tadpole.Interleaving
import Tadpole.Serving
import Tadpole.Quoting
import Tadpole.EventLoop
import Tadpole.MainLoop
import Tadpole.SdsBuffer
import Tadpole.SdsCalls
import Tadpole.SdsRuns
import Tadpole.ServerConfig
import Tadpole.Lifetimes
import Tadpole.HiredisReader
import Tadpole.HiredisClient
import Tadpole.ClientReplies
import Tadpole.Pipelines
import Tadpole.DictScan
import Tadpole.DictScanRuns
