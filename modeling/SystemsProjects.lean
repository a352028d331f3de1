import SystemsProjects.PageHeapRuns
import SystemsProjects.My402Lists
import SystemsProjects.TokenTermination
import SystemsProjects.TransactionSort
import SystemsProjects.ReplyDelivery
import SystemsProjects.PathGeneration
import SystemsProjects.SourceAnonymity
import SystemsProjects.MappedFiles
import SystemsProjects.CancellableSleeps
import SystemsProjects.UserCopies
import SystemsProjects.FreedStructures
import SystemsProjects.ForkBalance
import SystemsProjects.ObjectReferences
import SystemsProjects.CopyOnWrite
import SystemsProjects.AppendMode
import SystemsProjects.DirectoryRemoval
import SystemsProjects.ExitClosing
import SystemsProjects.FailedOpens
import SystemsProjects.KmutexOrder
import SystemsProjects.ProcessIds
import SystemsProjects.ProcessForests
import SystemsProjects.TransferBuffers
import SystemsProjects.DirectoryListing
import SystemsProjects.FreedInodes
import SystemsProjects.CachedPages
import SystemsProjects.PathBuffers
