import RocksCloud.Lib.LittleEndian
import RocksCloud.Lib.Leb128
import RocksCloud.Util.Coding
import RocksCloud.Lib.BitVector
import RocksCloud.Ot.CompactedTrieBuilder
import RocksCloud.Ot.PathDecomposedTrie
import RocksCloud.Table.OtLexPdtBloomBits
import RocksCloud.Table.FilterBlock
import RocksCloud.Pdt.FilterPolicy
import RocksCloud.Pdt.BitVectorBuilder
import RocksCloud.PersistentCache.SstSpace
import RocksCloud.PersistentCache.MyCache
import RocksCloud.Lib.Crc32c
import RocksCloud.Log.Writer
import RocksCloud.Log.Reader
import RocksCloud.Log.RoundTrip
import RocksCloud.Lib.BinarySearch
import RocksCloud.Db.RangeTombstoneFragmenter
import RocksCloud.Db.RangeTombstoneCoverage
import RocksCloud.Db.WriteBatch
import RocksCloud.Db.WriteBatchRoundTrip
import RocksCloud.Db.WriteBatchRun
import RocksCloud.Db.WriteBatchContentFlags
import RocksCloud.Db.WriteBatchSavePoint
import RocksCloud.Db.MemTable
import RocksCloud.Cache.LRUCache
import RocksCloud.Table.BlockBuilder
import RocksCloud.Table.DataBlockHashIndex
import RocksCloud.Table.Block
import RocksCloud.Table.BlockFormat
import RocksCloud.Table.BlockRead
import RocksCloud.Table.SeekForGet
import RocksCloud.Db.DbFormat
import RocksCloud.Lib.HeapOrder
import RocksCloud.Util.BinaryHeap
import RocksCloud.Lib.Lexicographic
import RocksCloud.Util.Comparator
import RocksCloud.Table.IndexBuilder
import RocksCloud.Lib.Interleaving
import RocksCloud.Db.MemTableSeqno
import RocksCloud.Db.VersionEdit
import RocksCloud.Db.VersionEditRoundTrip
import RocksCloud.Lib.SortedRuns
import RocksCloud.Table.MergingIterator
import RocksCloud.Table.MergingIteratorSpec
import RocksCloud.Table.MergingIteratorUnion
import RocksCloud.Cache.LRUCacheInvariant
import RocksCloud.Cache.LRUCacheRun
