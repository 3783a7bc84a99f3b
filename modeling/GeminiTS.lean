import GeminiTS.Read.MergeCursor
import GeminiTS.Immutable.MergeSelfModes
import GeminiTS.Immutable.MergeRun
import GeminiTS.Mutable.FlushRun
import GeminiTS.Immutable.ChunkAggregates
import GeminiTS.Wal.Log
import GeminiTS.Immutable.ReplaceCrash
import GeminiTS.Index.Phrase
import GeminiTS.Line.GroupKey
import GeminiTS.Line.RejectedLines
import GeminiTS.Shard.HintQuery
import GeminiTS.Shard.ResourceBucket
import GeminiTS.Agg.WindowAnswers
import GeminiTS.Read.LimitRows
import GeminiTS.Text.Collector
import GeminiTS.Text.Identifiers
import GeminiTS.Meta.OpsMap
import GeminiTS.Raft.StoredSnapshot
import GeminiTS.Immutable.WriteOriginal
import GeminiTS.Immutable.PreAggTimes
import GeminiTS.Immutable.StreamTimes
import GeminiTS.Meta.Balance
import GeminiTS.Record.ClusterSort
import GeminiTS.Record.PagedMerge
import GeminiTS.Immutable.AggregateData
import GeminiTS.Meta.ReplicaGroups
import GeminiTS.Raft.CommitWait
import GeminiTS.Meta.IndexCover
import GeminiTS.Meta.LogReplay
import GeminiTS.Meta.SchemaClean
import GeminiTS.Meta.ShardKeys
