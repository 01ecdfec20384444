import Fsfuse.ForStd.Transition
import Fsfuse.ForStd.RefCount
import Fsfuse.ForStd.ImplicitHeap
import Fsfuse.Spec.BinaryHeapRefinement
import Fsfuse.Spec.DownloaderData
import Fsfuse.Spec.DownloaderRequests
import Fsfuse.Spec.OpenFileLifetime
import Fsfuse.Spec.LocksExclusion
import Fsfuse.Spec.LocksProgress
import Fsfuse.Spec.AdvertSafety
import Fsfuse.Spec.IndexnodesUnique
import Fsfuse.Spec.IndexnodesReplacement
import Fsfuse.Spec.IndexnodesLeases
import Fsfuse.Spec.ListItems
import Fsfuse.Spec.IndexnodesTeardown
import Fsfuse.Spec.StatfsReply
import Fsfuse.Spec.FilelistEntries
import Fsfuse.Spec.ParserSafety
import Fsfuse.Spec.ReadRange
import Fsfuse.Spec.InodeMapOrder
import Fsfuse.Spec.ConfigLayers
import Fsfuse.Spec.FetcherSuccess
import Fsfuse.Spec.IndexnodeRelease
import Fsfuse.Spec.AdvertDelivery
import Fsfuse.Spec.ChunkGetNext
import Fsfuse.Spec.DownloaderExit
import Fsfuse.Spec.DownloaderProgress
import Fsfuse.Spec.DownloaderWakes
import Fsfuse.Spec.ReadReplies
import Fsfuse.Spec.EntryAttributes
import Fsfuse.Spec.StatsOnce
import Fsfuse.Spec.AttributeOrder
import Fsfuse.Spec.VersionNumeric
import Fsfuse.Spec.IndexnodeProbe
import Fsfuse.Spec.BestAlternative
import Fsfuse.Spec.ListingChildren
import Fsfuse.Spec.ListReferences
import Fsfuse.Spec.CommandLineFlags
import Fsfuse.Spec.UrlHosts
import Fsfuse.Spec.DirentryPaths
import Fsfuse.Spec.EnsureChildren
import Fsfuse.Spec.LookupReaddir
import Fsfuse.Spec.PagedReaddir
import Fsfuse.Spec.RefBalance
import Fsfuse.Spec.HeapBounds
import Fsfuse.Spec.PathRoundTrip
import Fsfuse.Spec.TraceBounds
import Fsfuse.Spec.SharedReferences
