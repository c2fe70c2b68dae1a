import Promscale.Aggregates.RangeQuery
import Promscale.Aggregates.ParallelSelector
import Promscale.Aggregates.InstantVectors
import Promscale.Aggregates.SampleOrder
import Promscale.Aggregates.Divisors
import Promscale.Regex.Re2Match
import Promscale.Jsonb.Digest
import Promscale.Catalog.LabelRetention
import Promscale.Catalog.SeriesRetention
import Promscale.Catalog.SeriesIdentity
import Promscale.Catalog.EpochSafety
import Promscale.Catalog.PositionRuns
import Promscale.Catalog.Matchers
import Promscale.Catalog.ColumnNames
import Promscale.Catalog.CreationRuns
import Promscale.Catalog.DefaultSettings
import Promscale.Catalog.SettingRuns
import Promscale.Catalog.MetricRows
import Promscale.Catalog.ViewColumns
import Promscale.Catalog.RetentionRuns
import Promscale.Catalog.DropSafety
import Promscale.Catalog.MetricDrop
import Promscale.Catalog.SampleInserts
import Promscale.Catalog.LabelLocks
import Promscale.Telemetry.Housekeeping
import Promscale.Jobs.Reconfiguration
import Promscale.Jobs.CompressionProgress
import Promscale.Jobs.CompressionByHand
import Promscale.Build.UpgradeRuns
import Promscale.Nodes.CommandBackups
import Promscale.Planner.PlannedQueries
import Promscale.Ha.AuditLog
import Promscale.Ha.Safety
import Promscale.Tracing.TagTypes
import Promscale.Tracing.TagMapRewrite
import Promscale.Tracing.TextMatches
import Promscale.Tracing.SpanView
import Promscale.Tracing.SpanTreeTermination
import Promscale.Tracing.SpanCalls
import Promscale.Tracing.TraceViews
import Promscale.Tracing.LinkRetention
import Promscale.PgTap.Reports
