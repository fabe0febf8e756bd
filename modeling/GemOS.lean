import GemOS.Lib.Ring
import GemOS.Lib.LinkedList
import GemOS.Lib.DoublyLinked
import GemOS.Lib.Blocks
import GemOS.Lib.FirstFit
import GemOS.Lib.Runs
import GemOS.Lib.Radix
import GemOS.Lib.RefCount
import GemOS.Lib.Pipes
import GemOS.MyDU.Links
import GemOS.MyDU.Failures
import GemOS.Mylib.SplitSizes
import GemOS.Mylib.Frees
import GemOS.Mylib.Payloads
import GemOS.Mylib.Joining
import GemOS.Tracer.BufferCreation
import GemOS.Tracer.MemRange
import GemOS.Tracer.RecordBounds
import GemOS.Tracer.Backtrace
import GemOS.Tracer.StraceLife
import GemOS.Tracer.FtraceEnabling
import GemOS.Tracer.BufferModes
import GemOS.Tracer.Observation
import GemOS.Tracer.StraceService
import GemOS.Vm.AreaRuns
import GemOS.Vm.AreaNeighbours
import GemOS.Vm.AreaCounts
import GemOS.Vm.Translations
import GemOS.Vm.MapEffects
import GemOS.Vm.AreaReuse
import GemOS.Vm.OutOfMemory
import GemOS.Vm.WriteBits
import GemOS.Vm.FrameCounts
import GemOS.Vm.ForkPages
import GemOS.Vm.FrameRuns
import GemOS.Vm.ProtectData
import GemOS.Vm.MapPlaces
import GemOS.Vm.UnmapResults
import GemOS.Vm.ProtectRanges
import GemOS.Vm.CopiedPages
import GemOS.Vm.SegmentCopy
import GemOS.Vm.ForkIsolation
import GemOS.Vm.FaultWritable
import GemOS.Vm.LengthBounds
import GemOS.Vm.Interference
