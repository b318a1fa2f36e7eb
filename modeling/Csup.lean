import Csup.Diff.Defs
import Csup.Framework.EditScript
import Csup.Diff.Apply
import Csup.Diff.Reverse
import Csup.Base.Revnum
import Csup.Framework.StackWalk
import Csup.Rcs.Defs
import Csup.Rcs.Tree
import Csup.Rcs.Walk
import Csup.Rcs.Sections
import Csup.Proto.Fields
import Csup.Updater.Files
import Csup.Updater.RcsEdit
import Csup.Updater.Block
import Csup.Updater.Rcsfile
import Csup.Updater.Sync
import Csup.Updater.Attic
import Csup.Framework.RingBuffer
import Csup.Mux.Defs
import Csup.Mux.Half
import Csup.Mux.Close
import Csup.Mux.Wire
import Csup.Framework.Flow
import Csup.Mux.Talk
import Csup.Mux.Carry
import Csup.Mux.Safety
import Csup.Mux.Eof
import Csup.Mux.Wakeup
import Csup.Diff.Script
import Csup.Framework.Fields
import Csup.Keyword.Defs
import Csup.Keyword.Scan
import Csup.Diff.Stream
import Csup.Updater.Chain
import Csup.Base.Radix
import Csup.Proto.Codec
import Csup.Fattr.Codec
import Csup.Framework.TreeWalk
import Csup.Misc.Path
import Csup.Pathcomp.Defs
import Csup.Pathcomp.Walk
import Csup.Fattr.Ops
import Csup.Framework.Cutoff
import Csup.Framework.LineReads
import Csup.Status.Defs
import Csup.Updater.Commands
import Csup.Updater.Docoll
import Csup.Updater.Takes
import Csup.Updater.Truncated
import Csup.Globtree.Defs
import Csup.Framework.Heap
import Csup.Globtree.Expr
import Csup.Globtree.Test
import Csup.Framework.Rounds
import Csup.Stream.Md5rcs
import Csup.Rcs.Tokens
import Csup.Rcs.Lex
import Csup.Stream.Canon
import Csup.Status.File
import Csup.Status.Raw
import Csup.Status.Cooked
import Csup.Framework.Glob
import Csup.Globtree.Fnmatch
import Csup.Globtree.Glob
import Csup.Globtree.CommaV
import Csup.Globtree.Filters
import Csup.Detailer.Defs
import Csup.Detailer.Queue
import Csup.Detailer.Once
import Csup.Detailer.Progress
import Csup.Framework.Keeps
import Csup.Updater.Batch
import Csup.Updater.Calm
import Csup.Updater.Late
import Csup.Updater.Closed
import Csup.Framework.Resolve
import Csup.Framework.Acts
import Csup.Updater.Acts
import Csup.Updater.Contain
import Csup.Updater.Deletes
import Csup.Keyword.Checked
import Csup.Stream.Buf
import Csup.Stream.Getln
import Csup.Stream.Printf
import Csup.Framework.Scan
import Csup.Rcs.Parse
import Csup.Rcs.Parsed
import Csup.Rcs.Details
import Csup.Rcs.Look
import Csup.Rcs.Damaged
import Csup.Rcs.Order
import Csup.Mux.Writev
import Csup.Fattr.Stat
import Csup.Updater.Decoders
import Csup.Framework.Chained
import Csup.Misc.Idcache
import Csup.Fattr.Equal
import Csup.Lister.Defs
import Csup.Lister.Walk
import Csup.Framework.Guarded
import Csup.Mux.Table
import Csup.Framework.Locks
import Csup.Mux.Locks
import Csup.Mux.Finish
import Csup.Mux.Teardown
import Csup.Framework.Post
import Csup.Fattr.Install
import Csup.Fattr.Checkout
import Csup.Updater.Recorded
import Csup.Lister.Steady
import Csup.Proto.Tokens
import Csup.Proto.Fileattr
import Csup.Detailer.Rsyncfile
import Csup.Diff.Rejects
import Csup.Updater.Unknown
import Csup.Framework.Cstring
import Csup.Fattr.Inside
import Csup.Fattr.Unsupported
import Csup.Framework.Nesting
import Csup.Status.Get
import Csup.Status.Order
import Csup.Status.Lookup
import Csup.Status.Nested
import Csup.Status.Replace
import Csup.Proto.Words
import Csup.Server.Lines
import Csup.Server.Safe
import Csup.Status.Tree
import Csup.Framework.Updates
import Csup.Framework.Filling
import Csup.Status.Written
import Csup.Status.Update
import Csup.Status.Merge
import Csup.Status.Session
import Csup.Misc.Rcsnum
import Csup.Mux.Ring
import Csup.Misc.Mkdirhier
import Csup.Updater.Transfer
import Csup.Framework.Lineage
import Csup.Rcs.Repo
import Csup.Rcs.Content
import Csup.Rcs.Written
import Csup.Rcs.Grow
import Csup.Updater.Commits
import Csup.Rcs.Import
import Csup.Rcs.Loaded
import Csup.Rcs.Layout
import Csup.Rcs.Reread
import Csup.Rcs.Reading
import Csup.Rcs.Format
import Csup.Rcs.Raw
import Csup.Rcs.Settle
import Csup.Updater.Session
import Csup.Config.Defs
import Csup.Config.Grammar
import Csup.Config.Init
import Csup.Config.Options
import Csup.Config.Paths
import Csup.Proto.Exchange
import Csup.Proto.Sessions
