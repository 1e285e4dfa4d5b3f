import ShitUndo.DryRun
import ShitUndo.Overwrites
import ShitUndo.FalseDrift
import ShitUndo.MetadataCommands
import ShitUndo.GcRace
import ShitUndo.Baseline
import ShitUndo.ParallelProgress
import ShitUndo.PathFilter
import ShitUndo.CreatedDirs
import ShitUndo.MetadataRestore
import ShitUndo.RenameJournal
import ShitUndo.CapturePaths
import ShitUndo.CaptureClobber
import ShitUndo.CaptureDedupe
import ShitUndo.CaptureLate
import ShitUndo.SqlClassify
import ShitUndo.ShellInjection
import ShitUndo.RedirectParse
import ShitUndo.CowCapture
import ShitUndo.SymlinkUndo
import ShitUndo.NetworkDiff
import ShitUndo.UfwRules
import ShitUndo.PackageRollback
import ShitUndo.TrackedTree
import ShitUndo.HookOrder
import ShitUndo.WatchReady
import ShitUndo.PrivOps
import ShitUndo.GcPolicy
import ShitUndo.SchemaMigration
import ShitUndo.StreamCopy
import ShitUndo.ExecLog
import ShitUndo.FanotifyEvents
import ShitUndo.UndoSession
import ShitUndo.WrongFile
