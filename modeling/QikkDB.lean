import QikkDB.Lib.Run
import QikkDB.Lib.Tiling
import QikkDB.Lib.NodeList
import QikkDB.Lib.Numeral
import QikkDB.Lib.Separated
import QikkDB.Lib.Decimal
import QikkDB.Lib.Select
import QikkDB.Lib.Bisection
import QikkDB.Lib.BlockIndex
import QikkDB.Lib.Reuse
import QikkDB.Lib.Precedence
import QikkDB.Core.Element
import QikkDB.Core.NullValues
import QikkDB.Core.PackedMask
import QikkDB.Lib.Bytes
import QikkDB.Lib.Calendar
import QikkDB.Lib.Chunks
import QikkDB.Lib.Packing
import QikkDB.Lib.Traverse
import QikkDB.Lib.Records
import QikkDB.Lib.Pieces
import QikkDB.Lib.Merging
import QikkDB.Lib.PrefixSum
import QikkDB.Lib.Scatter
import QikkDB.Lib.Cursor
import QikkDB.Lib.Compaction
import QikkDB.Lib.StableSort
import QikkDB.Core.Block
import QikkDB.Core.Column
import QikkDB.Core.Append
import QikkDB.Core.Cells
import QikkDB.Core.AppendCells
import QikkDB.Core.ResizeCells
import QikkDB.Core.Resize
import QikkDB.Core.BlockInvariant
import QikkDB.Storage.Record
import QikkDB.Storage.NumericFormat
import QikkDB.Storage.StringFormat
import QikkDB.Storage.BlockStatistics
import QikkDB.Storage.RowCount
import QikkDB.Storage.Incremental
import QikkDB.Storage.MaskCoverage
import QikkDB.Engine.CudaMemAllocator
import QikkDB.Engine.BestFit
import QikkDB.Engine.DateOperations
import QikkDB.Engine.CacheKey
import QikkDB.Engine.GPUMemoryCache
import QikkDB.Engine.CacheRequests
import QikkDB.Engine.CacheContents
import QikkDB.Engine.Aggregation
import QikkDB.Engine.MergeResults
import QikkDB.Engine.GroupBy
import QikkDB.Engine.SelectItems
import QikkDB.Engine.GroupedItems
import QikkDB.Engine.JoinDispatcher
import QikkDB.Engine.Expressions
import QikkDB.Engine.NullRows
import QikkDB.Engine.RegisterNames
import QikkDB.Table.Constraints
import QikkDB.Table.AlterColumn
import QikkDB.Table.InsertData
import QikkDB.Table.BlockBuffers
import QikkDB.Table.TableBlockSize
import QikkDB.Engine.CacheFreshness
import QikkDB.Network.MessageFrames
import QikkDB.Network.QueryFragments
import QikkDB.Network.BulkImport
import QikkDB.Import.ConsoleClient
import QikkDB.Import.Server
import QikkDB.Engine.LoadWindow
import QikkDB.Table.OverlappingConstraints
import QikkDB.Table.ConstraintRollback
import QikkDB.Engine.JoinNullMask
import QikkDB.Engine.MergePath
import QikkDB.Engine.OrderByMerge
import QikkDB.Engine.WhereBounds
import QikkDB.Engine.BlockPruning
import QikkDB.Engine.GroupByTable
import QikkDB.Engine.MergePayloads
import QikkDB.Engine.TrimResponse
import QikkDB.Engine.LoadNullMask
import QikkDB.Engine.IntegerArithmetic
import QikkDB.Engine.FloatToString
import QikkDB.Engine.PolygonColumn
import QikkDB.Engine.PolygonToWkt
import QikkDB.Engine.Reconstruct
import QikkDB.Engine.ReconstructPolygon
import QikkDB.Engine.OrderByColumn
import QikkDB.Engine.OrderByReconstruct
import QikkDB.Engine.ReorderColumn
import QikkDB.Lib.Renaming
import QikkDB.Table.RenameColumns
import QikkDB.Lib.Rounding
import QikkDB.Engine.CastDecimal
import QikkDB.Engine.NumericToString
import QikkDB.Engine.DateString
import QikkDB.Engine.StringFunctions
import QikkDB.Engine.PolygonClipping
import QikkDB.Engine.ClippingLists
import QikkDB.Engine.ClippingLabels
import QikkDB.Engine.ClippingFlags
import QikkDB.Engine.ClippingTrace
import QikkDB.Engine.ClippingResult
import QikkDB.Lib.Joining
import QikkDB.Lib.Memory
import QikkDB.Lib.Loops
import QikkDB.Lib.Rings
import QikkDB.Lib.Partners
import QikkDB.Lib.Flags
import QikkDB.Import.IdentifyDataType
import QikkDB.Network.FragmentLoop
import QikkDB.Storage.GPUCompression
import QikkDB.Lib.Planar
import QikkDB.Engine.ClippingPosition
