import RoaringRange.Fetch
import RoaringRange.Build
import RoaringRange.Paging
import RoaringRange.Catalog
import RoaringRange.Bitmap
import RoaringRange.Bloom
import RoaringRange.Container
import RoaringRange.Cursor
import RoaringRange.CursorOpen
import RoaringRange.CursorRuns
import RoaringRange.Facet
import RoaringRange.FacetBuild
import RoaringRange.FacetCorpus
import RoaringRange.Filter
import RoaringRange.Index
import RoaringRange.Lib.AscSet
import RoaringRange.Lib.Bits
import RoaringRange.Lib.Bytes
import RoaringRange.Lib.Faults
import RoaringRange.Lib.OrdMap
import RoaringRange.Lib.Runs
import RoaringRange.Lib.Search
import RoaringRange.Ngram
import RoaringRange.PageReach
import RoaringRange.PortableCodec
import RoaringRange.Posting
import RoaringRange.Roaring
import RoaringRange.TailScan
import RoaringRange.Threshold
import RoaringRange.Lib.Tlv
import RoaringRange.SplitSet
import RoaringRange.Manifest
import RoaringRange.SortCols
import RoaringRange.IndexLookup
import RoaringRange.Lib.Varint
import RoaringRange.TermsDict
import RoaringRange.Terms
import RoaringRange.Tokenizer
import RoaringRange.TermsBuild
import RoaringRange.Bm25
import RoaringRange.Bm25Build
import RoaringRange.Lib.Merge
import RoaringRange.Chunk
import RoaringRange.FacetCounts
import RoaringRange.FacetDigest
import RoaringRange.Lib.FirstSeen
import RoaringRange.Lib.TopK
import RoaringRange.FacetCut
import RoaringRange.SplitFiles
import RoaringRange.DigestFree
import RoaringRange.SplitFacets
import RoaringRange.FetchWindow
import RoaringRange.Lib.Interpolate
import RoaringRange.Lookup
import RoaringRange.TextIndex
import RoaringRange.Records
import RoaringRange.FacetHeads
import RoaringRange.FacetRoundTrip
import RoaringRange.Lib.Decimal
import RoaringRange.Lib.Tiles
import RoaringRange.SplitSetBuild
import RoaringRange.SplitTiles
import RoaringRange.TermBands
import RoaringRange.TermSplitBuild
import RoaringRange.Lib.BoundedHeap
import RoaringRange.Lib.Checked
import RoaringRange.TierCap
import RoaringRange.Vector
import RoaringRange.CheckedFetch
import RoaringRange.ManifestTotal
import RoaringRange.VectorSearch
import RoaringRange.Secondary
import RoaringRange.SplitSetWriter
import RoaringRange.WriterRuns
import RoaringRange.WriterNames
import RoaringRange.WriterIds
import RoaringRange.SplitCap
import RoaringRange.TermCap
import RoaringRange.ExactFetch
import RoaringRange.PricingTotal
import RoaringRange.Lib.Lru
import RoaringRange.RangeCache
import RoaringRange.SortColsBuild
import RoaringRange.BloomPrune
import RoaringRange.DictBlocks
import RoaringRange.DigestRoundTrip
import RoaringRange.StrictSearch
import RoaringRange.Membership
import RoaringRange.PrefixSearch
import RoaringRange.SplitSearch
import RoaringRange.SplitMonolith
import RoaringRange.SpanCount
import RoaringRange.PartialReads
import RoaringRange.Hotcache
import RoaringRange.Lib.Alike
import RoaringRange.Readers
import RoaringRange.BootBundle
import RoaringRange.GoReader
import RoaringRange.Transcode
import RoaringRange.Lib.Routes
import RoaringRange.WriterFiles
import RoaringRange.WriterShelves
import RoaringRange.WriterRoutes
import RoaringRange.ShelfSearch
import RoaringRange.SessionSearch
import RoaringRange.WriterSearch
import RoaringRange.CursorDrain
import RoaringRange.Lib.Loops
import RoaringRange.FilteredBuild
import RoaringRange.FilteredSearch
import RoaringRange.CountEstimate
import RoaringRange.StripSummaries
import RoaringRange.TermTiles
import RoaringRange.TermSetSearch
import RoaringRange.TermBandSearch
import RoaringRange.BuildCounts
import RoaringRange.Candidates
import RoaringRange.RrsIndex
import RoaringRange.TermSize
