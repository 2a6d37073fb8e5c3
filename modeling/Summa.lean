import Summa.Merge.Runs
import Summa.Merge.Retry
import Summa.Merge.ForceMergeGroups
import Summa.Index.PrimaryKeyVersions
import Summa.Index.LspSelection
import Summa.Query.WordPairs
import Summa.Segment.Merger.Terms
import Summa.Directories.SliceCacheRun
import Summa.Query.DocSetRun
import Summa.Segment.ChunkMapMerged
import Summa.Merge.TrainedGateSafety
import Summa.Structures.MmapBlockIndex
import Summa.Structures.SSTableBlock
import Summa.Structures.SSTableBloom
import Summa.Structures.SparseBlock
import Summa.Query.RangeSpec
import Summa.Structures.VintReaders
import Summa.Structures.VerifyBlockDocs
import Summa.Structures.IntersectionRun
import Summa.Broker.PlacementRules
