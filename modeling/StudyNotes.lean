import StudyNotes.Lib.Run
import StudyNotes.Lib.Text
import StudyNotes.Lib.LruCache
import StudyNotes.Lib.Fallible
import StudyNotes.Lib.Grouping
import StudyNotes.Lib.FileTree
import StudyNotes.Lib.Parcel
import StudyNotes.Lib.LineFill
import StudyNotes.Lib.PathResolution
import StudyNotes.Lib.Directory
import StudyNotes.Lib.Machine
import StudyNotes.Lib.Traced
import StudyNotes.Lib.Effect
import StudyNotes.Lib.CodeUnits
import StudyNotes.Lib.JsonText
import StudyNotes.Lib.Storage
import StudyNotes.Lib.InputStream
import StudyNotes.Lib.ArrayHeap
import StudyNotes.Lib.Staircase
import StudyNotes.Lib.Refinement
import StudyNotes.Lib.Tabulation
import StudyNotes.Lib.LinkedMap
import StudyNotes.Router.Intent
import StudyNotes.Router.Manager
import StudyNotes.Router.RouterBean
import StudyNotes.Router.Processor
import StudyNotes.Router.Tables
import StudyNotes.Router.Agreement
import StudyNotes.Router.Rounds
import StudyNotes.Router.Requests
import StudyNotes.Router.Caches
import StudyNotes.Router.GroupTable
import StudyNotes.Parameter.Factory
import StudyNotes.Parameter.Injection
import StudyNotes.Parameter.Manager
import StudyNotes.Dex.Zip
import StudyNotes.Dex.RoundTrip
import StudyNotes.Dex.Packer
import StudyNotes.Dex.Renaming
import StudyNotes.Dex.Conservation
import StudyNotes.Dex.Shell
import StudyNotes.Dex.Extraction
import StudyNotes.Fragment.Lazy
import StudyNotes.Fragment.Nested
import StudyNotes.Fragment.Visits
import StudyNotes.Monitor.StackSampler
import StudyNotes.Monitor.LogMonitor
import StudyNotes.Monitor.StackWindow
import StudyNotes.Monitor.ANRWatchDog
import StudyNotes.Leak.Watcher
import StudyNotes.Leak.Schedules
import StudyNotes.Patch.Hotfix
import StudyNotes.Patch.ClassLoaders
import StudyNotes.Patch.Delegation
import StudyNotes.Hook.ActivityHook
import StudyNotes.Skin.Resources
import StudyNotes.Skin.Manager
import StudyNotes.Skin.Painting
import StudyNotes.Binder.PersonManager
import StudyNotes.View.NestedScroll
import StudyNotes.View.FlowLayout
import StudyNotes.View.FlowGeometry
import StudyNotes.View.NestedParents
import StudyNotes.View.Coordinator
import StudyNotes.View.MultiTouch
import StudyNotes.View.GridSpacing
import StudyNotes.View.PhotoGeometry
import StudyNotes.View.PhotoView
import StudyNotes.View.PhotoViewStudy
import StudyNotes.Json.DecodeUnicode
import StudyNotes.Json.FormatJson
import StudyNotes.Bspatch.Loop
import StudyNotes.Bspatch.Format
import StudyNotes.Bspatch.ExecutePatch
import StudyNotes.Bspatch.Reconstruction
import StudyNotes.Files.Assets
import StudyNotes.Files.AssetsCopy
import StudyNotes.Files.UriUtils
import StudyNotes.Permission.AccessibilityService
import StudyNotes.Leetcode.BuildTree
import StudyNotes.Leetcode.Build
import StudyNotes.Leetcode.ReversePrint
import StudyNotes.Leetcode.FindNumber
import StudyNotes.Leetcode.CQueue
import StudyNotes.Leetcode.Fibonacci
import StudyNotes.Bzip2.BitStream
import StudyNotes.Bzip2.Block
import StudyNotes.Bzip2.CodeLengths
import StudyNotes.Bzip2.Decompress
import StudyNotes.Bzip2.DecompressSafety
import StudyNotes.Bzip2.Receive
import StudyNotes.Bzip2.Tables
import StudyNotes.Bzip2.BlockCode
import StudyNotes.Bzip2.BuffToBuff
