import CentreonBroker.Compression.Link
import CentreonBroker.Multiplexing.EngineLife
import CentreonBroker.Multiplexing.EngineFailure
import CentreonBroker.Multiplexing.Restart
import CentreonBroker.Processing.Connection
import CentreonBroker.Bbdo.Factory
import CentreonBroker.Multiplexing.QueueFiles
import CentreonBroker.Bam.ReloadGraph
import CentreonBroker.Bam.CircularGraph
import CentreonBroker.Multiplexing.Waiting
import CentreonBroker.Correlation.Parenting
import CentreonBroker.Notification.LifeCycle
import CentreonBroker.Mysql.Durability
import CentreonBroker.Config.Reconfigure
import CentreonBroker.Tcp.Input
import CentreonBroker.Tcp.Output
import CentreonBroker.Influxdb.Answer
import CentreonBroker.Processing.Accounting
import CentreonBroker.Bam.EventLinks
import CentreonBroker.Bam.DimensionDumps
import CentreonBroker.Storage.Starvation
import CentreonBroker.Storage.AckedWrites
import CentreonBroker.Storage.Responsive
import CentreonBroker.Storage.CustomVariables
import CentreonBroker.Bam.BaHistory
import CentreonBroker.Bam.InheritedDowntime
import CentreonBroker.Bam.KpiFlags
import CentreonBroker.Bam.KpiBa
import CentreonBroker.Bam.MetaRefresh
import CentreonBroker.Bam.Conservation
import CentreonBroker.Rrd.Rebuild
import CentreonBroker.Rrd.Replay
import CentreonBroker.Storage.ReopeningSafe
import CentreonBroker.Time.Exceptions
import CentreonBroker.Bam.DowntimeCache
import CentreonBroker.Bam.BooleanKnown
import CentreonBroker.Rrd.Creator
import CentreonBroker.Bam.BaChanges
import CentreonBroker.Bam.ExpInfix
import CentreonBroker.Bam.ExpQuoted
import CentreonBroker.Bam.ExpSafety
import CentreonBroker.Misc.Base64
import CentreonBroker.Misc.CheckUtf8
import CentreonBroker.Storage.CheckCommands
import CentreonBroker.Storage.DeletedIndex
import CentreonBroker.Storage.GroupCaches
import CentreonBroker.Correlation.NodeCache
import CentreonBroker.Storage.PerfdataList
import CentreonBroker.Storage.UpdateMetrics
import CentreonBroker.Correlation.Links
import CentreonBroker.File.ShortWrites
import CentreonBroker.Neb.DowntimeMap
import CentreonBroker.Neb.DowntimeLife
import CentreonBroker.Neb.TimeperiodSerializable
import CentreonBroker.Lua.JsonDecode
import CentreonBroker.Graphite.Line
import CentreonBroker.Influxdb.Line
import CentreonBroker.Ceof.RoundTrip
import CentreonBroker.Neb.LogData
import CentreonBroker.Database.QueryPreparator
import CentreonBroker.Lua.JsonEvent
import CentreonBroker.Lua.MacroCache
import CentreonBroker.Mysql.Promises
import CentreonBroker.Mysql.Choice
import CentreonBroker.Lua.Binding
import CentreonBroker.Storage.RebuildStream
import CentreonBroker.Watchdog.Supervision
import CentreonBroker.Bbdo.Checksum
