import Hackterm.Screen.DrawnDocument
import Hackterm.Screen.ReadBack
import Hackterm.State.Stops
import Hackterm.Screen.Alternate
import Hackterm.Screen.Runs
import Hackterm.State.Careful
import Hackterm.Screen.Callbacks
import Hackterm.Screen.Moves
import Hackterm.State.Frame
import Hackterm.State.Handlers
import Hackterm.State.Glyphs
import Hackterm.State.Pen
import Hackterm.State.Tabs
import Hackterm.State.Basic
import Hackterm.Unicode.Width
import Hackterm.Search.Intervals
import Hackterm.Encoding.Reads
import Hackterm.Encoding.Overrun
import Hackterm.Parser.Items
import Hackterm.Parser.Calls
import Hackterm.Encoding.Utf8
import Hackterm.Encoding.Decode
import Hackterm.Codec.Sequences
import Hackterm.Regis.Progress
import Hackterm.Inline.Buffer
import Hackterm.Glyph.Textures
import Hackterm.Ngui.Textbox
import Hackterm.Ngui.OneKey
import Hackterm.Ngui.VirtualButtons
import Hackterm.Ngui.Button
import Hackterm.Inline.Rows
import Hackterm.Glyph.Clipping
import Hackterm.Nsdl.Paint
import Hackterm.Glyph.FontFile
import Hackterm.Glyph.HexLine
import Hackterm.Bits.CInt
import Hackterm.Bits.Packed
import Hackterm.Ssh.Download
import Hackterm.Selection.Paste
import Hackterm.Geometry.WindowSize
import Hackterm.Recents.TextFields
import Hackterm.Regis.Rejection
import Hackterm.Regis.Containment
import Hackterm.Regis.Fits
import Hackterm.Regis.Wiping
import Hackterm.Regis.Locality
import Hackterm.Regis.Text
import Hackterm.Regis.Polyline
import Hackterm.Nsdl.Line
import Hackterm.Raster.Walk
import Hackterm.Selection.Word
import Hackterm.Selection.Drag
import Hackterm.Selection.Mouse
import Hackterm.Selection.Pointer
import Hackterm.Selection.Capacity
import Hackterm.Selection.Rows
import Hackterm.Scan.Run
import Hackterm.Ssh.Lifecycle
import Hackterm.Ssh.Connection
import Hackterm.Resource.Ownership
import Hackterm.Glyph.Coherence
import Hackterm.Glyph.Cache
import Hackterm.Memo.Table
import Hackterm.Glyph.Drawing
import Hackterm.Selection.Clipboard
import Hackterm.Selection.Extraction
import Hackterm.Selection.Region
import Hackterm.Streaming.Lines
import Hackterm.Inline.SizeCommands
import Hackterm.Inline.Consistency
import Hackterm.Inline.DecodeBuffer
import Hackterm.Base64.Written
import Hackterm.Base64.Acceptance
import Hackterm.Scrollback.Recall
import Hackterm.Parser.Turn
import Hackterm.Parser.Hooks
import Hackterm.Parser.Push
import Hackterm.Recents.Pinning
import Hackterm.Recents.Fingerprint
import Hackterm.Recents.Replacement
import Hackterm.Recents.Update
import Hackterm.Recents.RoundTrip
import Hackterm.Recents.Connections
import Hackterm.Streaming.Recency
import Hackterm.Geometry.Agreement
import Hackterm.Inline.CellSize
import Hackterm.Streaming.Run
import Hackterm.Regis.Isolation
import Hackterm.Regis.Program
import Hackterm.CString.Decimal
import Hackterm.CString.Memory
import Hackterm.Scrollback.Conservation
import Hackterm.Screen.Scroll
import Hackterm.Scrollback.Viewport
import Hackterm.Scrollback.Buffer
import Hackterm.Screen.Cells
import Hackterm.Streaming.Ring
import Hackterm.Inline.Successive
import Hackterm.Inline.Fragmentation
import Hackterm.Inline.Delivery
import Hackterm.Inline.Transfer
import Hackterm.Inline.Metering
import Hackterm.Inline.Calls
import Hackterm.Inline.Receive
import Hackterm.Streaming.Window
import Hackterm.Streaming.Word
import Hackterm.Base64.RoundTrip
import Hackterm.Parser.Reads
