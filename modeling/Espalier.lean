import Espalier.Number.Binary64
import Espalier.Selection
import Espalier.Schedule
import Espalier.Growth.Store
import Espalier.Growing
import Espalier.Sink
import Espalier.Search
import Espalier.FeatureCost
import Espalier.Document.Reader
import Espalier.Description
import Espalier.Task.Counting
import Espalier.Document.Values
import Espalier.Tree.Growing
import Espalier.Tree.Reach
import Espalier.Tree.Drawing
import Espalier.Host
import Espalier.Text.Name
import Espalier.Settings.Reader
import Espalier.Proofs.Store.Lists
import Espalier.Proofs.Growing
import Espalier.Proofs.Resampling
import Espalier.Proofs.Search.Punctuality
import Espalier.Proofs.Search.CacheKeys
import Espalier.Proofs.Search.Completeness
import Espalier.Proofs.Search.Provision
import Espalier.Proofs.Search.Chronicle
import Espalier.Proofs.Search.Filters
import Espalier.Proofs.Tree.Nursery
import Espalier.Proofs.Task.Slices
import Espalier.Proofs.Host.Handles
import Espalier.Proofs.Judging
import Espalier.Proofs.Search.Tiling
import Espalier.Proofs.Number.Totals
import Espalier.Proofs.Registration
import Espalier.Proofs.Host.Bursts
import Espalier.Proofs.Host.Delivery
import Espalier.Proofs.Host.Building
import Espalier.Proofs.Picks
import Espalier.Proofs.Search.Routing
import Espalier.Proofs.Search.Drawing
import Espalier.Proofs.Ranking
import Espalier.Proofs.Search.Siblings
import Espalier.Proofs.Search.DepthFirst
import Espalier.Proofs.Search.Numberless
import Espalier.Proofs.Store.Kinship
import Espalier.Proofs.Store.Sharing
import Espalier.Proofs.Store.Relatives
import Espalier.Proofs.Unguided
import Espalier.Proofs.Store.Depth
import Espalier.Proofs.Deepening
import Espalier.Proofs.Sinks
import Espalier.Proofs.Search.Progress
import Espalier.Proofs.Listings
import Espalier.Proofs.Tree.Picture
import Espalier.Proofs.Slots
