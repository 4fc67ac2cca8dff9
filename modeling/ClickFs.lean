import ClickFs.Lib.Escape
import ClickFs.Lib.Find
import ClickFs.Lib.Lts
import ClickFs.Lib.Paging
import ClickFs.Lib.Parse
import ClickFs.Lib.Pread
import ClickFs.Lib.Probe
import ClickFs.Lib.Rust
import ClickFs.Lib.Sql
import ClickFs.Lib.Str
import ClickFs.Error
import ClickFs.Error.Exception
import ClickFs.Path
import ClickFs.Inode
import ClickFs.Inode.Allocate
import ClickFs.Inode.Reserved
import ClickFs.Stream.Handle
import ClickFs.Stream.Steps
import ClickFs.Stream.Cursor
import ClickFs.Stream.Window
import ClickFs.Stream.Fidelity
import ClickFs.Stream.Forward
import ClickFs.Stream.Tail
import ClickFs.Stream.Document
import ClickFs.Stream.Release
import ClickFs.Stream.Reverse
import ClickFs.Stream.Progress
import ClickFs.Stream.Memory
import ClickFs.Driver
import ClickFs.Driver.Classify
import ClickFs.Driver.Quote
import ClickFs.Driver.Templates
import ClickFs.Driver.Tail
import ClickFs.Driver.Http
import ClickFs.Cache
import ClickFs.Cache.Shared
import ClickFs.Resolver
import ClickFs.Resolver.Grammar
import ClickFs.Fs
import ClickFs.Fs.Listing
import ClickFs.Fs.Serve
import ClickFs.Fs.NoFake
import ClickFs.Fs.Names
import ClickFs.Fs.Opens
import ClickFs.Fs.Exists
import ClickFs.Fs.Identity
import ClickFs.Fs.Fetch
import ClickFs.Fs.Walk
import ClickFs.Fs.Handles
import ClickFs.Fs.Isolation
import ClickFs.Fs.Documents
import ClickFs.Fs.Contents
import ClickFs.Fs.Cat
import ClickFs.Fs.Traffic
import ClickFs.Fs.Tree
import ClickFs.Readme
import ClickFs.Fs.Statements
import ClickFs.Fs.Catalogue
import ClickFs.Fs.Kill
import ClickFs.Readme.Columns
import ClickFs.Readme.Isolation
