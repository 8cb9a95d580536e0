import NorthOS.BlockScan
import NorthOS.BootedImage
import NorthOS.Bootmain
import NorthOS.BufferCache
import NorthOS.BufferSharing
import NorthOS.ByteMoves
import NorthOS.CallBounds
import NorthOS.CallRuns
import NorthOS.Cat
import NorthOS.Console
import NorthOS.ConsoleWait
import NorthOS.CrashRecovery
import NorthOS.Descriptors
import NorthOS.Desktop
import NorthOS.DesktopApps
import NorthOS.DialogWidgets
import NorthOS.DirectoryMap
import NorthOS.DockCells
import NorthOS.Editor
import NorthOS.ExecStray
import NorthOS.ExitWait
import NorthOS.ExplorerRuns
import NorthOS.FieldKeys
import NorthOS.FileNames
import NorthOS.FillCoverage
import NorthOS.Fletcher
import NorthOS.FocusPassing
import NorthOS.FoldedSums
import NorthOS.Foreground
import NorthOS.Forwarding
import NorthOS.FreshImage
import NorthOS.GrepLines
import NorthOS.GrepMatch
import NorthOS.HeapRuns
import NorthOS.HitTest
import NorthOS.IdeQueue
import NorthOS.IdeWait
import NorthOS.ImageParts
import NorthOS.InputFields
import NorthOS.InterruptNesting
import NorthOS.Keyboard
import NorthOS.Languages
import NorthOS.Lines
import NorthOS.LogOps
import NorthOS.LogSpace
import NorthOS.Lookups
import NorthOS.Ls
import NorthOS.Memmove
import NorthOS.MessageQueues
import NorthOS.MkfsFiles
import NorthOS.Monitor
import NorthOS.Mouse
import NorthOS.MouseMessages
import NorthOS.MousePositions
import NorthOS.Multiprocessor
import NorthOS.Navigation
import NorthOS.OpenFiles
import NorthOS.PathWalk
import NorthOS.PhysicalPages
import NorthOS.PipeWakeup
import NorthOS.Placement
import NorthOS.Plumbing
import NorthOS.Printf
import NorthOS.ProcessSize
import NorthOS.ReadBack
import NorthOS.Runcmd
import NorthOS.Scheduler
import NorthOS.ScreenDrawing
import NorthOS.SharedFd
import NorthOS.ShellStrings
import NorthOS.SleepLock
import NorthOS.SleepWakeup
import NorthOS.TextCopies
import NorthOS.TextRows
import NorthOS.TextScreen
import NorthOS.Ticks
import NorthOS.TitleBars
import NorthOS.Truncation
import NorthOS.WidgetFocus
import NorthOS.WidgetMemory
import NorthOS.WindowBounds
import NorthOS.WindowOwners
import NorthOS.WriteBack
