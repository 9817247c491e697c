/-
QuickTrace — a model of the QuickTrace tracing library and of qttail.
-/
import QuickTrace.Lib.Mem
import QuickTrace.Lib.Layout
import QuickTrace.Lib.Result
import QuickTrace.Lib.Ascii
import QuickTrace.Lib.Files
import QuickTrace.Lib.Merge
import QuickTrace.Lib.Loop
import QuickTrace.Format.Value
import QuickTrace.Format.OStream
import QuickTrace.Format.MessageFormatter
import QuickTrace.Format.FormatKey
import QuickTrace.Ring.RingBuf
import QuickTrace.Ring.Encoding
import QuickTrace.Ring.Level
import QuickTrace.Ring.LevelTheorems
import QuickTrace.Ring.Unwrapped
import QuickTrace.Ring.LevelLog
import QuickTrace.Ring.TraceFile
import QuickTrace.Ring.TraceFileTheorems
import QuickTrace.Format.MessageFormatterTheorems
import QuickTrace.Format.RoundTrip
import QuickTrace.Format.Extent
import QuickTrace.Format.Codes
import QuickTrace.Format.Tokenizer
import QuickTrace.Format.TokenizerTheorems
import QuickTrace.Format.Tokenizable
import QuickTrace.Format.LengthAgreement
import QuickTrace.Format.Printf
import QuickTrace.Format.StreamFrame
import QuickTrace.Ring.PartialWrite
import QuickTrace.Tail.RingBuffer
import QuickTrace.Tail.Tail
import QuickTrace.Tail.RingBufferTheorems
import QuickTrace.Tail.Yields
import QuickTrace.Tail.CatOne
import QuickTrace.Tail.CatControl
import QuickTrace.Tail.CatMany
import QuickTrace.Tail.SilentStop
import QuickTrace.Tail.Laps
import QuickTrace.Tail.CatEnds
import QuickTrace.Tail.CatTermination
import QuickTrace.Tail.Disabled
import QuickTrace.Tail.Segment
import QuickTrace.Tail.LevelSegment
import QuickTrace.Tail.CatTheorems
import QuickTrace.Tail.HalfWritten
import QuickTrace.Tail.Standing
import QuickTrace.Tail.Follows
import QuickTrace.Tail.System
import QuickTrace.Tail.ExactlyOnce
import QuickTrace.Tail.CatLevels
import QuickTrace.Tail.Watch
import QuickTrace.Tail.TailControl
import QuickTrace.Tail.Watched
import QuickTrace.Dict.MsgDesc
import QuickTrace.Dict.MessageParser
import QuickTrace.Dict.RoundTrip
import QuickTrace.Dict.FailedWrite
import QuickTrace.Tail.Messages
import QuickTrace.Dict.QtFmtGeneric
import QuickTrace.Dict.QtFmtTheorems
import QuickTrace.Ctl.Qtctl
import QuickTrace.Ring.FileLayout
import QuickTrace.Handle.MsgIds
import QuickTrace.Handle.Threads
import QuickTrace.Handle.Lifetime
import QuickTrace.Handle.TraceFiles
import QuickTrace.Handle.SameProcess
import QuickTrace.Handle.Resize
import QuickTrace.Handle.Registry
import QuickTrace.Handle.Rotation
import QuickTrace.Handle.ForeverLog
import QuickTrace.Handle.ForeverLogTheorems
import QuickTrace.Format.WallClock
import QuickTrace.Dict.MappedParser
import QuickTrace.Dict.Mapping
import QuickTrace.Dict.StrangeName
import QuickTrace.Ctl.ParseLoops
import QuickTrace.Tail.Lookup
import QuickTrace.Tail.Recreate
import QuickTrace.Ring.BlockTimer
import QuickTrace.Ring.EventTimer
import QuickTrace.Lib.CString
import QuickTrace.Ctl.Levels
import QuickTrace.Handle.SizeString
import QuickTrace.Ring.StringLimit
import QuickTrace.Dict.QtFmtScan
import QuickTrace.Dict.QtFmtGrammar
import QuickTrace.Dict.DescBuffer
import QuickTrace.Ctl.Qtclear
import QuickTrace.Ring.GoMessage
import QuickTrace.Python.Trace
import QuickTrace.Python.LongString
import QuickTrace.Python.Module
import QuickTrace.Tail.RewindInside
import QuickTrace.Tail.EarlyClock
import QuickTrace.Tail.TailMany
import QuickTrace.Tail.TailManyTheorems
import QuickTrace.Tail.TailManyOrder
import QuickTrace.Tail.TailManyRounds
import QuickTrace.Tail.Unseen
import QuickTrace.Handle.Tailable
import QuickTrace.Tail.LiveTail
import QuickTrace.Tail.LiveTailTheorems
import QuickTrace.Tail.LiveTailRounds
import QuickTrace.Format.Spelled
import QuickTrace.Python.Matches
import QuickTrace.Tail.LineText
import QuickTrace.Lib.Ids
import QuickTrace.Handle.Program
import QuickTrace.Handle.ProgramTheorems
import QuickTrace.Handle.CInterface
import QuickTrace.Tail.InotifyEvents
import QuickTrace.Tail.WatchLoop
import QuickTrace.Tail.TailOne
