import Zencodec.Lib.StableSort
import Zencodec.Metadata
import Zencodec.Inventory.Growth
import Zencodec.Tiff.Resolve
import Zencodec.Tiff.Accounted
import Zencodec.Tiff.Emission
import Zencodec.Session.Fused
import Zencodec.Storage.Runs
import Zencodec.Media.Refine
import Zencodec.Media.Drain
import Zencodec.Rewrite.Planner
import Zencodec.Exif.Authored
import Zencodec.Source.Calls
import Zencodec.Operation.Admission
import Zencodec.Operation.Terminal
import Zencodec.Bridge.Matched
import Zencodec.Format.Detection
import Zencodec.Coroutine.Controlled
import Zencodec.Coroutine.Delivered
import Zencodec.Exif.InPlace
import Zencodec.Coroutine.Ordered
import Zencodec.Coroutine.Room
import Zencodec.GainMap.Agree
import Zencodec.Media.Driver
import Zencodec.Incremental.Guarded
import Zencodec.Policy.Gated
import Zencodec.Rewrite.Bound
import Zencodec.Inventory.Gaps
import Zencodec.Tiff.Followed
import Zencodec.Tiff.Overlaps
import Zencodec.Time.Elapsed
import Zencodec.Output.Buffer
import Zencodec.Incremental.WholeRun
import Zencodec.Io.Retained
import Zencodec.Bplist.Bounded
import Zencodec.Limits.Check
import Zencodec.Time.Quantizer
import Zencodec.Operation.Agreement
import Zencodec.Color.Emit
import Zencodec.Resolution.Density
import Zencodec.Media.Animation
import Zencodec.Render.Project
import Zencodec.Audit.Exact
import Zencodec.Tiff.PackBits
import Zencodec.Apple.Strict
import Zencodec.Io.EncoderSink
import Zencodec.Coroutine.ByteMap
import Zencodec.Container.Unread
import Zencodec.Xmp.Guard
import Zencodec.RowEncode.Run
import Zencodec.Io.Served
import Zencodec.Io.Drives
