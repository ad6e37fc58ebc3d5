import EnvironmentCheck.SourceSteps
import EnvironmentCheck.VisibleTasks
import EnvironmentCheck.Dispatch
import EnvironmentCheck.TaskLedger
import EnvironmentCheck.Drain
import EnvironmentCheck.WakeUps
import EnvironmentCheck.TimedLoops
import EnvironmentCheck.LoopLifetimes
import EnvironmentCheck.ConcurrentMessageLoop
import EnvironmentCheck.WorkerWakeUps
import EnvironmentCheck.TaskExecution
import EnvironmentCheck.LoopOwnership
import EnvironmentCheck.MessageLoopImpl
import EnvironmentCheck.MessageLoopAndroid
import EnvironmentCheck.TaskGrades
import EnvironmentCheck.RegistrationOrder
import EnvironmentCheck.ThreadJoin
import EnvironmentCheck.ThreadLocal
import EnvironmentCheck.SharedPtr
import EnvironmentCheck.WaitableEvent
import EnvironmentCheck.AutoResetWaitableEvent
import EnvironmentCheck.ManualResetWaitableEvent
import EnvironmentCheck.Base64Decode
import EnvironmentCheck.QJniObjects
import EnvironmentCheck.Base64Encode
import EnvironmentCheck.Base64Bounds
import EnvironmentCheck.Library.BitQueue
import EnvironmentCheck.Base32
import EnvironmentCheck.Base32Codec
import EnvironmentCheck.AsciiTrie
import EnvironmentCheck.Library.Utf16
import EnvironmentCheck.StringConversion
import EnvironmentCheck.RefPtr
import EnvironmentCheck.RefPtrLedger
import EnvironmentCheck.RefPtrRuns
import EnvironmentCheck.ScopedJavaRef
import EnvironmentCheck.ScopedRefLedger
import EnvironmentCheck.ScopedRefRuns
import EnvironmentCheck.QtThread
import EnvironmentCheck.QtThreadRuns
import EnvironmentCheck.QtThreadTasks
import EnvironmentCheck.QtThreadStuck
import EnvironmentCheck.TaskRunnerChecker
import EnvironmentCheck.TaskRunner
import EnvironmentCheck.FlushTasks
import EnvironmentCheck.Timerfd
import EnvironmentCheck.CommandExecution
import EnvironmentCheck.Library.Leb128
import EnvironmentCheck.SnappyVarint
import EnvironmentCheck.Snappy
import EnvironmentCheck.SnappyCompress
import EnvironmentCheck.Base64Indices
import EnvironmentCheck.JniBase64
import EnvironmentCheck.Download
import EnvironmentCheck.CaseMapping
import EnvironmentCheck.Library.LineReading
import EnvironmentCheck.XposedJars
import EnvironmentCheck.DeviceLocale
import EnvironmentCheck.CommonFiles
import EnvironmentCheck.HookScan
import EnvironmentCheck.MultiOpen
import EnvironmentCheck.Library.Utf8Replacing
import EnvironmentCheck.CommandOutput
import EnvironmentCheck.Library.Numerals
import EnvironmentCheck.JavaText
import EnvironmentCheck.TracerPid
import EnvironmentCheck.TracerPidRuns
import EnvironmentCheck.Scanning
import EnvironmentCheck.Library.Fields
import EnvironmentCheck.MagicMount
import EnvironmentCheck.MountTable
import EnvironmentCheck.Library.LinkedList
import EnvironmentCheck.ReferencePool
import EnvironmentCheck.UniqueObject
import EnvironmentCheck.UniqueObjectLedger
import EnvironmentCheck.WakeLock
import EnvironmentCheck.TimespecConversion
import EnvironmentCheck.Library.Buffer
import EnvironmentCheck.Library.BackReference
import EnvironmentCheck.Library.LittleEndian
import EnvironmentCheck.SnappyMatch
import EnvironmentCheck.SnappyFormat
import EnvironmentCheck.SnappyEmit
import EnvironmentCheck.SnappyFragment
import EnvironmentCheck.SnappySource
import EnvironmentCheck.SnappyIncrementalCopy
import EnvironmentCheck.SnappyDecompressor
import EnvironmentCheck.SnappyWriter
import EnvironmentCheck.SnappyBranchless
import EnvironmentCheck.SnappyDecompress
import EnvironmentCheck.SnappyArrayWriter
import EnvironmentCheck.SnappyValidator
import EnvironmentCheck.SnappyRoundTrip
import EnvironmentCheck.SnappyInterfaces
import EnvironmentCheck.SnappyIOVecWriter
import EnvironmentCheck.SnappyScatteredWriter
import EnvironmentCheck.SnappySink
import EnvironmentCheck.RefPtrHandles
import EnvironmentCheck.WeakPtr
import EnvironmentCheck.WeakPtrRuns
import EnvironmentCheck.WeakPtrAnswers
import EnvironmentCheck.CountDownLatch
import EnvironmentCheck.SnappyPortable
