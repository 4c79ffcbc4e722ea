import Kzip.Lib.LittleEndian
import Kzip.Lib.Cursor
import Kzip.Lib.Utf8
import Kzip.Lib.Except
import Kzip.Lib.Keyed
import Kzip.Lib.Indexed
import Kzip.Lib.Loop
import Kzip.Lib.Reader
import Kzip.Lib.Refcount
import Kzip.Impl.Error
import Kzip.Impl.Constant
import Kzip.Impl.Extern
import Kzip.Impl.Dirent
import Kzip.Impl.Source
import Kzip.Impl.Cdir
import Kzip.Impl.Crypto
import Kzip.Impl.Codec
import Kzip.Impl.File
import Kzip.Impl.Archive
import Kzip.Lib.Machine
import Kzip.Impl.Checked
import Kzip.Impl.Compress
import Kzip.Impl.Modify
import Kzip.Impl.Reference
import Kzip.Proof.ExtraField
import Kzip.Proof.Dirent
import Kzip.Proof.Zip64
import Kzip.Proof.Record
import Kzip.Proof.Cdir
import Kzip.Proof.EndRecords
import Kzip.Spec.Modify
import Kzip.Spec.Archive
import Kzip.Proof.Modify
import Kzip.Proof.Directory
import Kzip.Proof.File
import Kzip.Proof.Archive
import Kzip.Proof.Writer
import Kzip.Proof.Placed
import Kzip.Proof.Layout
import Kzip.Proof.RoundTrip
import Kzip.Proof.ModifyWritten
import Kzip.Impl.Zip
import Kzip.Impl.Edit
import Kzip.Impl.Close
import Kzip.Spec.Edit
import Kzip.Lib.Run
import Kzip.Proof.Edit
import Kzip.Spec.Close
import Kzip.Proof.Close
import Kzip.Proof.Untouched
import Kzip.Spec.Ledger
import Kzip.Proof.LastWrite
import Kzip.Spec.Unchange
import Kzip.Proof.Unchange
import Kzip.Proof.Add
import Kzip.Spec.Names
import Kzip.Proof.Names
import Kzip.Spec.Flag
import Kzip.Proof.Flag
import Kzip.Impl.Getters
import Kzip.Spec.Getters
import Kzip.Proof.Getters
import Kzip.Proof.Reserialize
import Kzip.Impl.SharedFile
import Kzip.Spec.SharedFile
import Kzip.Proof.SharedFile
import Kzip.Impl.AsyncReader
import Kzip.Spec.AsyncReader
import Kzip.Proof.AsyncReader
import Kzip.Proof.Crypto
import Kzip.Proof.NoPanic
import Kzip.Spec.Content
import Kzip.Spec.Encrypted
import Kzip.Proof.Content
import Kzip.Spec.PanicFree
import Kzip.Proof.Checked
import Kzip.Proof.PanicFree
import Kzip.Proof.Encrypted
import Kzip.Spec.Comment
import Kzip.Proof.Comment
import Kzip.Proof.Reopened
import Kzip.Proof.Search
import Kzip.Spec.Detection
import Kzip.Proof.Detection
import Kzip.Impl.LocalHeader
import Kzip.Proof.LocalHeader
import Kzip.Proof.Reads
import Kzip.Proof.Progress
import Kzip.Lib.Faults
import Kzip.Impl.CdirFile
import Kzip.Proof.CdirFile
import Kzip.Proof.ModifyFile
import Kzip.Proof.WriteSession
import Kzip.Proof.History
import Kzip.Proof.Commute
import Kzip.Proof.Trailing
import Kzip.Spec.Region
import Kzip.Proof.Region
import Kzip.Impl.Decrypting
import Kzip.Proof.Decrypting
import Kzip.Impl.Seek
import Kzip.Spec.Seek
import Kzip.Proof.Seek
import Kzip.Impl.Time
import Kzip.Impl.Stat
import Kzip.Spec.Stat
import Kzip.Proof.Stat
import Kzip.Impl.SeekOffset
import Kzip.Spec.SeekOffset
import Kzip.Proof.SeekOffset
import Kzip.Spec.ExtraEdit
import Kzip.Proof.ExtraEdit
import Kzip.Impl.SourceHandle
import Kzip.Spec.SourceHandle
import Kzip.Proof.SourceHandle
import Kzip.Lib.Calendar
import Kzip.Lib.CounterMode
import Kzip.Spec.Normalize
import Kzip.Proof.Normalize
import Kzip.Spec.Time
import Kzip.Proof.Time
import Kzip.Spec.Keystream
import Kzip.Proof.Keystream
import Kzip.Lib.Heap
import Kzip.Impl.ErrorObject
import Kzip.Spec.ErrorObject
import Kzip.Proof.ErrorObject
import Kzip.Lib.Pool
import Kzip.Impl.Parallel
import Kzip.Spec.Parallel
import Kzip.Proof.Parallel
import Kzip.Impl.Session
import Kzip.Spec.Session
import Kzip.Proof.Session
import Kzip.Impl.SourceRefs
import Kzip.Spec.SourceRefs
import Kzip.Proof.SourceRefs
import Kzip.Lib.Rounding
import Kzip.Lib.Throttle
import Kzip.Impl.Callbacks
import Kzip.Spec.Callbacks
import Kzip.Lib.Custody
import Kzip.Proof.Callbacks
import Kzip.Impl.Copy
import Kzip.Spec.Copy
import Kzip.Proof.Copy
import Kzip.Impl.SourceMakers
import Kzip.Spec.Window
import Kzip.Proof.Window
import Kzip.Lib.Slots
import Kzip.Spec.ModifyFailure
import Kzip.Proof.ModifyFailure
import Kzip.Impl.ZipFile
import Kzip.Spec.ZipFile
import Kzip.Proof.ZipFile
import Kzip.Proof.Path
import Kzip.Spec.Locked
import Kzip.Proof.Locked
import Kzip.Impl.Report
import Kzip.Spec.Report
import Kzip.Proof.Report
