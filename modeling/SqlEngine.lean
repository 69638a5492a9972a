import SqlEngine.Quoting
import SqlEngine.Statements
import SqlEngine.Splits
import SqlEngine.FileTokenizer
import SqlEngine.Runs
import SqlEngine.Traversal
import SqlEngine.Overstated
import SqlEngine.Failure
import SqlEngine.Checksum
import SqlEngine.Migration
import SqlEngine.BPlusTree
import SqlEngine.OrderedSet
import SqlEngine.MultiMap
import SqlEngine.Scripts
import SqlEngine.Directory
import SqlEngine.Lookups
import SqlEngine.Shell
import SqlEngine.Release
