import OsrsMap.Library.Run
import OsrsMap.Library.Keyed
import OsrsMap.Library.Cursor
import OsrsMap.Cache.Ttl
import OsrsMap.Trails.PagedReading
import OsrsMap.Trails.TrailJson
import OsrsMap.Site.TrailModel
import OsrsMap.Site.Jumps
import OsrsMap.Replay.Clock
import OsrsMap.Sync.Binding
import OsrsMap.Sync.Roster
import OsrsMap.Sync.Hiscores
import OsrsMap.Sync.Hidden
import OsrsMap.Page.Reloads
import OsrsMap.Skills.Aggregation
import OsrsMap.Hub.Budget
import OsrsMap.Cache.SingleFlight
import OsrsMap.Page.LiveEvents
import OsrsMap.Page.ServedTrails
import OsrsMap.Page.MemberTopics
import OsrsMap.Site.TrailCodec
import OsrsMap.Site.TrailLayer
import OsrsMap.Replay.Playback
import OsrsMap.Sync.Mirrored
import OsrsMap.Sync.Repair
import OsrsMap.Trails.Sliding
import OsrsMap.Trails.Cutting
import OsrsMap.Site.Partition
import OsrsMap.Skills.SkillGraph
import OsrsMap.Skills.Retention
import OsrsMap.Site.GearLog
import OsrsMap.Hub.SignIns
import OsrsMap.Hub.Access
import OsrsMap.Sync.Spellings
import OsrsMap.Sync.SpecialWorld
import OsrsMap.Site.Ghost
import OsrsMap.Hub.EventLog
import OsrsMap.Sync.Bindings
import OsrsMap.Site.MapLevels
import OsrsMap.Library.Pieces
import OsrsMap.Site.Chunks
import OsrsMap.Site.HitTest
import OsrsMap.Library.Strokes
import OsrsMap.Site.Stretches
import OsrsMap.Library.Leaders
import OsrsMap.Site.Stacks
import OsrsMap.Library.Settling
import OsrsMap.Site.Clusters
import OsrsMap.Hub.XpSeries
import OsrsMap.Hub.SkillHistory
import OsrsMap.Library.Capped
import OsrsMap.Site.EventMarkers
import OsrsMap.Trails.WalkLoop
import OsrsMap.Site.TrailSessions
import OsrsMap.Library.Pages
import OsrsMap.Hub.EventRange
import OsrsMap.Page.ServedEvents
import OsrsMap.Trails.CachedTrail
