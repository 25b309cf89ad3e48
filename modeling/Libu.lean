import Libu.Verif.Run
import Libu.Verif.Steps
import Libu.Verif.Depend
import Libu.Verif.Cmp
import Libu.Bst.Basic
import Libu.Bst.Order
import Libu.Bst.Count
import Libu.Bst.Run
import Libu.Bst.Balance
import Libu.Verif.Mem
import Libu.Verif.Fifo
import Libu.Verif.Cache
import Libu.Rb.Basic
import Libu.Rb.Wrapped
import Libu.Rb.Contiguous
import Libu.Rb.Mmap
import Libu.Hmap.Basic
import Libu.Hmap.Table
import Libu.Hmap.Map
import Libu.Hmap.Move
import Libu.Hmap.Easy
import Libu.Hmap.Queue
import Libu.Hmap.Corr
import Libu.Hmap.Stale
import Libu.Hmap.Count
import Libu.Hmap.Pool
import Libu.Hmap.Cache
import Libu.Hmap.Fail
import Libu.Hmap.Own
import Libu.Verif.Outcome
import Libu.Verif.Decimal
import Libu.Verif.Logged
import Libu.Verif.Protocol
import Libu.Verif.Disk
import Libu.Verif.Forest
import Libu.Verif.Heap
import Libu.Lexer
import Libu.Lexer.Watch
import Libu.Json.Basic
import Libu.Json.Grammar
import Libu.Json.Lexeme
import Libu.Json.Parse
import Libu.Json.Accept
import Libu.Json.Encode
import Libu.Json.Tree
import Libu.Json.Iter
import Libu.Json.Index
import Libu.Json.Names
import Libu.Json.Array
import Libu.Json.SetTv
import Libu.Json.Watch
import Libu.Json.Bounds
import Libu.Json.Overlong
import Libu.Uri.Basic
import Libu.Uri.Grammar
import Libu.Uri.Match
import Libu.Uri.Parse
import Libu.Uri.Good
import Libu.Uri.Complete
import Libu.Uri.Sound
import Libu.Uri.Knead
import Libu.Uri.Watch
import Libu.Uri.Reading
import Libu.Uri.Follow
import Libu.Uri.Exact
import Libu.Net
import Libu.Net.Socket
import Libu.Net.Timeout
import Libu.Test.Basic
import Libu.Test.Sequencer
import Libu.Test.Toposort
import Libu.Verif.Depth
import Libu.Test.Depth
import Libu.Test.Register
import Libu.Test.Walk
import Libu.Test.Parallel
import Libu.Test.Schedule
import Libu.Test.Suite
import Libu.Test.Report
import Libu.Verif.CStr
import Libu.Str.Basic
import Libu.Str.Refine
import Libu.Pqueue
import Libu.B64.Basic
import Libu.B64.RoundTrip
import Libu.B64.Strict
import Libu.B64.Bounds
import Libu.Config.Basic
import Libu.Config.Load
import Libu.Config.SetGet
import Libu.Verif.Recur
import Libu.Config.Include
import Libu.Config.Scope
import Libu.Config.Grammar
import Libu.Config.Say
import Libu.Config.Save
import Libu.Config.Expand
import Libu.Config.Scoping
import Libu.Config.Lines
import Libu.Config.Subkey
import Libu.Config.Update
import Libu.Config.Tends
import Libu.Config.Reached
import Libu.Verif.Ahead
import Libu.Config.Cycles
import Libu.Config.Resources
import Libu.Config.Tokens
import Libu.Config.Print
import Libu.Verif.Tailq
import Libu.Ulist
import Libu.Uarray
import Libu.Uarray.Arith
import Libu.Pwd
import Libu.Pwd.Release
import Libu.Pwd.Reload
import Libu.Strtok
import Libu.Missing.Fnmatch
import Libu.Verif.Odometer
import Libu.Missing.Mkstemps
import Libu.Missing.Strl
import Libu.Misc.Tokenize
import Libu.Pwd.Fields
import Libu.Buf.Basic
import Libu.Buf.Rep
import Libu.Buf.Printf
import Libu.Misc.Path
import Libu.Misc.Io
import Libu.Env
import Libu.Fs
import Libu.Misc.Files
import Libu.Misc.Number
import Libu.Json.Values
