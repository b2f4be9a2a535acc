import TurboMemory.Storage.WalFailures
import TurboMemory.Search.Tiered
import TurboMemory.Engine.Stores
import TurboMemory.Api.Filters
import TurboMemory.Segments.Publication
import TurboMemory.Engine.Visibility
import TurboMemory.Tsm.Compaction
import TurboMemory.Tsm.Recall
import TurboMemory.Engine.Grace
import TurboMemory.Engine.Races
import TurboMemory.Engine.Cursor
import TurboMemory.Engine.Importance
import TurboMemory.Graph.Decay
import TurboMemory.Graph.Insertion
import TurboMemory.Graph.Expansion
import TurboMemory.Graph.Noninterference
import TurboMemory.Graph.WorkingMemory
import TurboMemory.Search.Usearch
import TurboMemory.Storage.TextIndex
import TurboMemory.Segments.BuildBudget
import TurboMemory.Segments.Merging
import TurboMemory.Graph.Bm25
import TurboMemory.Quantization.Packing
import TurboMemory.Quantization.Scalar
