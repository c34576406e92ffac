import XetDcCache.LruHistory
import XetDcCache.DiskAccounting
import XetDcCache.Disconnects
import XetDcCache.Collapse
import XetDcCache.Booking
import XetDcCache.Fleet
import XetDcCache.PlacementShim
import XetDcCache.SignedUrls
import XetDcCache.CacheFiles
import XetDcCache.RestartRecency
import XetDcCache.FetchSlots
import XetDcCache.PeerTraffic
import XetDcCache.Provision
import XetDcCache.Scrape
import XetDcCache.Prometheus
import XetDcCache.Reconstruction
import XetDcCache.Ranges
import XetDcCache.ManifestIndex
import XetDcCache.Replay
import XetDcCache.HitProbes
import XetDcCache.HitMiss
import XetDcCache.HedgeCounters
import XetDcCache.RangeReplies
import XetDcCache.BoundedSlack
import XetDcCache.Accelerator
import XetDcCache.PlacementWindow
import XetDcCache.PlacementBaseline
import XetDcCache.PlacementRacks
import XetDcCache.DedupProbe
import XetDcCache.StickyPeer
import XetDcCache.ManifestRewrite
import XetDcCache.Multimap
import XetDcCache.ResponseWriter
import XetDcCache.Middleware
import XetDcCache.Hub
import XetDcCache.TokenRoute
import XetDcCache.PathEscape
import XetDcCache.NetUrl
import XetDcCache.HubTarget
import XetDcCache.DiskFloor
import XetDcCache.BinarySearch
import XetDcCache.Latency
import XetDcCache.Ewma
import XetDcCache.PeerStats
import XetDcCache.Evictions
import XetDcCache.ServeMux
import XetDcCache.FrontDoor
import XetDcCache.Targets
import XetDcCache.PeerWire
import XetDcCache.Session
import XetDcCache.FleetConfig
import XetDcCache.Rounding
import XetDcCache.OrderStatistics
import XetDcCache.Report
import XetDcCache.WorkerPool
import XetDcCache.Driver
import XetDcCache.WorkerPlan
import XetDcCache.JobEndpoints
import XetDcCache.Harvest
