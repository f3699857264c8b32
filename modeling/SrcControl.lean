import SrcControl.Core.BudgetedSpill
import SrcControl.Core.ContentAddress
import SrcControl.Forge.LifecycleRuns
import SrcControl.Forge.ContentWriteOnce
import SrcControl.Forge.MergesTruthful
import SrcControl.Forge.RefWrites
import SrcControl.Forge.RetentionRuns
import SrcControl.Forge.Timefmt
import SrcControl.Gitio.ImportHoles
import SrcControl.Gitio.ImportNames
import SrcControl.Objio.DirBucketLinear
import SrcControl.Repo.BackfillWhole
import SrcControl.Repo.Diff3Exchange
import SrcControl.Repo.HttpOpening
import SrcControl.Repo.IngestFile
import SrcControl.Repo.LimitedReach
import SrcControl.Repo.Lock
import SrcControl.Repo.MergeAgain
import SrcControl.Repo.MergeAgreement
import SrcControl.Repo.MergeBase
import SrcControl.Repo.OpLogFile
import SrcControl.Repo.PolicyJoin
import SrcControl.Repo.RestoreOverStop
import SrcControl.Repo.RewrapRuns
import SrcControl.Repo.Revocation
import SrcControl.Repo.SignatureRuns
import SrcControl.Repo.SparseCompletion
import SrcControl.Repo.SparseLaws
import SrcControl.Repo.AccessRuns
import SrcControl.Repo.BucketLinear
import SrcControl.Repo.FillView
import SrcControl.Repo.StopFiles
import SrcControl.Repo.TextDiffPatch
import SrcControl.Repo.WorktreeRead
import SrcControl.Repo.SyncRuns
import SrcControl.Repo.TlsPins
import SrcControl.Repo.TranscriptRuns
import SrcControl.Repo.UndoExact
import SrcControl.Repo.WalExact
import SrcControl.Repo.WireSessionSafe
import SrcControl.Vfs.Commit
import SrcControl.Repo.GcPut
