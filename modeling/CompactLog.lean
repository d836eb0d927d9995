import CompactLog.TreeMath
import CompactLog.TreeShape
import CompactLog.Frontier
import CompactLog.Codec
import CompactLog.Hash
import CompactLog.Io
import CompactLog.Tree
import CompactLog.Append
import CompactLog.Store
import CompactLog.AppendSpec
import CompactLog.Writer
import CompactLog.Prefetch
import CompactLog.Frame
import CompactLog.Runs
import CompactLog.Rfc6962
import CompactLog.Storage
import CompactLog.Effects
import CompactLog.Reader
import CompactLog.Server
import CompactLog.Serialization
import CompactLog.Interleaving
import CompactLog.Progress
