import TraceHarbor.Trace.MethodStackCorrect
import TraceHarbor.Trace.BeatLifecycle
import TraceHarbor.Trace.LooperMonitor
import TraceHarbor.Trace.TrimStack
import TraceHarbor.Trace.CopyData
import TraceHarbor.Trace.EvilMethodTracer
import TraceHarbor.Hprof.LeakChains
import TraceHarbor.Hprof.ReferenceReadBack
import TraceHarbor.Hprof.ClassDumpOrder
import TraceHarbor.Hooks.MetaResidue
import TraceHarbor.Hooks.TaggedPointers
import TraceHarbor.Backtrace.QuickenPacked
import TraceHarbor.Backtrace.QuickenInterface
import TraceHarbor.Backtrace.ExidxCorrect
import TraceHarbor.Backtrace.MergeFrameEntries
import TraceHarbor.Arsc.ResourceLookup
import TraceHarbor.Hprof.LookupMemo
import TraceHarbor.Hprof.SliceSafety
import TraceHarbor.IoCanary.DetectLoop
import TraceHarbor.Commons.ZipSlip
import TraceHarbor.Backtrace.QutFile
import TraceHarbor.Shrinker.ObfuscatedNames
import TraceHarbor.Lifecycle.ForegroundService
import TraceHarbor.Lifecycle.ForegroundFlag
import TraceHarbor.Lifecycle.ProcessUI
import TraceHarbor.Lifecycle.MultiSource
import TraceHarbor.Lifecycle.ProcessSubordinate
import TraceHarbor.SqliteLint.ReserveSql
import TraceHarbor.ResourceAnalyzer.LeakPaths
import TraceHarbor.HprofLib.Rewrite
import TraceHarbor.HprofLib.ShrinkPasses
import TraceHarbor.Backtrace.DwarfSectionDecoder
import TraceHarbor.Memguard.PagePool
import TraceHarbor.Hprof.StringValue
import TraceHarbor.Arsc.AndroidEntry
import TraceHarbor.Battery.JiffiesDiff
import TraceHarbor.Battery.WakeLock
import TraceHarbor.Report.FilePublisher
