import EditChain.Core.AdmissionTheorems
import EditChain.Core.IdsTheorems
import EditChain.Lib.Fallible
import EditChain.Lib.UnitReader
import EditChain.Store.LogTheorems
import EditChain.Store.SegmentTheorems
import EditChain.Store.TailTheorems
import EditChain.Store.RaceTheorems
import EditChain.Store.ScanTheorems
import EditChain.Store.ResumptionTheorems
import EditChain.Store.CodecTheorems
import EditChain.Store.IncompleteTheorems
import EditChain.Store.BlobTheorems
import EditChain.Sync.CorporaTheorems
import EditChain.Sync.OrderTheorems
import EditChain.Sync.AdapterTheorems
import EditChain.Sync.OccurrenceTheorems
import EditChain.Sync.PeerTheorems
import EditChain.Sync.PortableTheorems
import EditChain.Sync.ConsentTheorems
import EditChain.Sync.SetScopeTheorems
import EditChain.Sync.ContentTheorems
import EditChain.Sync.Wire
import EditChain.Sync.DecoderTheorems
import EditChain.Sync.TrafficTheorems
import EditChain.Sync.NetworkTheorems
import EditChain.Sync.AccordTheorems
import EditChain.Sync.ReassemblyTheorems
import EditChain.Sync.HonestTheorems
import EditChain.Sync.LimitsTheorems
import EditChain.Migration.ScopeTheorems
import EditChain.Migration.RunTheorems
import EditChain.Migration.RewriteTheorems
import EditChain.Migration.DigestTheorems
import EditChain.Activity.WireTheorems
import EditChain.Activity.HistoryTheorems
import EditChain.Activity.ListingTheorems
import EditChain.Activity.UpgradeTheorems
import EditChain.Activity.ReplayTheorems
import EditChain.IndexPages.RankTreeTheorems
import EditChain.IndexPages.RankTheorems
import EditChain.IndexPages.OrderedTheorems
import EditChain.IndexPages.MapTheorems
import EditChain.IndexPages.Page
import EditChain.IndexPages.PageTheorems
import EditChain.IndexPages.CheckpointTheorems
import EditChain.Index.CallTheorems
import EditChain.Index.FollowTheorems
import EditChain.Index.RebuildTheorems
import EditChain.Index.PrefixTheorems
import EditChain.Cli.ArchiveTheorems
import EditChain.Engine.DiffTheorems
import EditChain.Engine.HistoryTheorems
import EditChain.Engine.AncestorTheorems
import EditChain.Engine.MetaTheorems
import EditChain.Engine.SearchTheorems
import EditChain.Sync.StreamTheorems
import EditChain.Sync.SecureTheorems
import EditChain.Index.IntegrityTheorems
import EditChain.Cli.FollowTheorems
import EditChain.Store.PowerLossTheorems
import EditChain.Engine.CompareTheorems
