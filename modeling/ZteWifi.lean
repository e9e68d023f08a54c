import ZteWifi.Lib.Prog
import ZteWifi.Lib.Calls
import ZteWifi.Lib.Search
import ZteWifi.Lib.Kmp
import ZteWifi.Lib.BlockHash
import ZteWifi.Lib.Sha1
import ZteWifi.Lib.Base64
import ZteWifi.Lib.Runs
import ZteWifi.Lib.Splice
import ZteWifi.Lib.Timeline
import ZteWifi.Lib.Backtrack
import ZteWifi.Lib.Pieces
import ZteWifi.Lib.Balance
import ZteWifi.Text.LineBuf
import ZteWifi.Text.Lines
import ZteWifi.Text.Fitting
import ZteWifi.Text.Room
import ZteWifi.Text.Spaces
import ZteWifi.Text.Width
import ZteWifi.Text.Blank
import ZteWifi.Text.ReadAll
import ZteWifi.Text.Utf8
import ZteWifi.Text.Boundary
import ZteWifi.J2t.Stream
import ZteWifi.J2t.Reads
import ZteWifi.J2t.Whole
import ZteWifi.J2t.Trace
import ZteWifi.J2t.StreamRefines
import ZteWifi.J2t.WholeRefines
import ZteWifi.J2t.Agreement
import ZteWifi.J2t.Syntax
import ZteWifi.J2t.Completeness
import ZteWifi.J2t.Soundness
import ZteWifi.J2t.Surrogates
import ZteWifi.J2t.Calls
import ZteWifi.J2t.Conservation
import ZteWifi.J2t.Indentation
import ZteWifi.J2t.Boundaries
import ZteWifi.J2t.Nesting
import ZteWifi.J2t.Pushback
import ZteWifi.J2t.Spelling
import ZteWifi.J2t.Layout
import ZteWifi.J2t.Respelling
import ZteWifi.H2t.Names
import ZteWifi.H2t.Stream
import ZteWifi.H2t.Whole
import ZteWifi.H2t.Scanners
import ZteWifi.H2t.Closing
import ZteWifi.H2t.Entities
import ZteWifi.H2t.WholeRefines
import ZteWifi.H2t.Agreement
import ZteWifi.H2t.References
import ZteWifi.H2t.Contents
import ZteWifi.H2t.Blocks
import ZteWifi.H2t.Overflow
import ZteWifi.H2t.Boundaries
import ZteWifi.H2t.Output
import ZteWifi.Converters.Width
import ZteWifi.Converters.Malformed
import ZteWifi.Net.Socket
import ZteWifi.Net.Headers
import ZteWifi.Net.Fields
import ZteWifi.Net.Serving
import ZteWifi.Websh.Strtol
import ZteWifi.Websh.Head
import ZteWifi.Websh.Main
import ZteWifi.Websh.Spool
import ZteWifi.Websh.Watchdog
import ZteWifi.Wssh.Sha1
import ZteWifi.Wssh.Handshake
import ZteWifi.Wssh.Frames
import ZteWifi.Wssh.Main
import ZteWifi.Wssh.Codec
import ZteWifi.Wssh.Base64
import ZteWifi.Wssh.Session
import ZteWifi.Wssh.Framing
import ZteWifi.Wssh.Delivery
import ZteWifi.Wssh.Answers
import ZteWifi.Wssh.Resize
import ZteWifi.At.Request
import ZteWifi.At.Main
import ZteWifi.Sfm.Pane
import ZteWifi.Sfm.Main
import ZteWifi.Sfm.Cursor
import ZteWifi.Sfm.Chmod
import ZteWifi.Servers.Children
import ZteWifi.Neatvi.Lbuf
import ZteWifi.Neatvi.Files
import ZteWifi.Neatvi.Lines
import ZteWifi.Neatvi.Undo
import ZteWifi.Neatvi.Saved
import ZteWifi.Neatvi.Marks
import ZteWifi.Neatvi.Writing
import ZteWifi.Neatvi.Global
import ZteWifi.Neatvi.Regex
import ZteWifi.Neatvi.Uc
import ZteWifi.Neatvi.Emit
import ZteWifi.Neatvi.Matching
import ZteWifi.Neatvi.Searching
import ZteWifi.Neatvi.Groups
import ZteWifi.Neatvi.Mot
import ZteWifi.Neatvi.Rset
import ZteWifi.Neatvi.Rstr
import ZteWifi.Neatvi.LineText
import ZteWifi.Neatvi.PlainSearch
import ZteWifi.Neatvi.Substitute
import ZteWifi.Neatvi.Reg
import ZteWifi.Neatvi.Findchar
