import Catse.Common.Slots
import Catse.Lib.Bytes
import Catse.Lib.Double
import Catse.Common.PoolRuns
import Catse.Common.MsgStruct
import Catse.Common.FdTable
import Catse.Lib.Transition
import Catse.Logic.PkLimit
import Catse.Logic.Websocket
import Catse.Client.Machine
import Catse.Client.Moves
import Catse.Client.RecvCustody
import Catse.Client.Traffic
import Catse.Client.Order
import Catse.Client.Connections
import Catse.Client.Reports
import Catse.Client.Delivery
import Catse.Client.SendCustody
import Catse.Inner.Machine
import Catse.Inner.Connection
import Catse.Inner.Custody
import Catse.Rings
import Catse.Lib.Lua
import Catse.Proto.Parser
import Catse.Proto.Template
import Catse.Proto.Bounds
import Catse.Proto.Accept
import Catse.Proto.Drops
import Catse.Proto.Encode
import Catse.Proto.RoundTrip
import Catse.Common.Spsc
import Catse.Inner.Framing
import Catse.Logic.Lz77
import Catse.Lib.Forest
import Catse.Proto.Register
import Catse.Logic.Frames
import Catse.Logic.Packets
import Catse.Client.Framing
import Catse.Logic.Handshake
import Catse.Mongo.RoundTrip
import Catse.Mongo.Appends
import Catse.Myxml2.Duplicates
import Catse.Myxml2.Interning
import Catse.Myxml2.Share
import Catse.Myxml2.ShareTables
import Catse.Myxml2.Columns
import Catse.Myxml2.Expand
import Catse.Myxml2.Books
import Catse.Myxml2.Preserves
import Catse.Lib.SortedTable
import Catse.Lib.SortedArray
import Catse.Lib.Comparators
import Catse.Lib.Accesses
import Catse.Logic.FrameBounds
import Catse.Common.MsgInnerParse
import Catse.Logic.Unzip
import Catse.Logic.Zip
import Catse.Logic.Parse
import Catse.Logic.ServerFrames
import Catse.Logic.KeyCopy
import Catse.Proto.Decode
import Catse.Proto.Counts
import Catse.Proto.Unsigned
import Catse.Logic.PkWindows
import Catse.Client.Limits
import Catse.Client.Heard
import Catse.Client.Recipients
import Catse.Common.MsgInnerFields
import Catse.Mongo.BsonBytes
import Catse.Common.MsgInnerWrite
import Catse.Mongo.Kept
import Catse.Mongo.Ids
import Catse.Mongo.Keys
import Catse.Mongo.Oid
import Catse.Common.LogLines
import Catse.Common.LogNames
import Catse.Common.ThreadHttp
import Catse.Common.ThreadLog
import Catse.Lib.Percent
import Catse.Lib.Settling
import Catse.Lib.Compact
import Catse.Myxml2.Untouched
import Catse.Myxml2.Local
import Catse.Myxml2.Rows
import Catse.Myxml2.Compaction
import Catse.Myxml2.Languages
import Catse.Lib.Entities
import Catse.Myxml2.Entities
import Catse.Lib.Bits
import Catse.Lib.Huffman
import Catse.Lib.Deflate
import Catse.Myxml2.Inflate
import Catse.Myxml2.InflateSymbols
import Catse.Myxml2.InflateStreams
import Catse.Lib.Scanning
import Catse.Lib.Xml
import Catse.Myxml2.Xml
import Catse.Myxml2.XmlTags
import Catse.Myxml2.XmlSpaces
import Catse.Myxml2.XmlDocuments
import Catse.Myxml2.Brackets
import Catse.Myxml2.Quotes
import Catse.Lib.LongString
import Catse.Myxml2.LongStrings
import Catse.Lib.Literals
import Catse.Lib.Constructor
import Catse.Myxml2.Keys
import Catse.Myxml2.Literals
import Catse.Myxml2.BinInsert
import Catse.Lib.BlockHash
import Catse.Lib.Words
import Catse.Lib.Answers
import Catse.Lib.Sha1
import Catse.Logic.Sha1
import Catse.Lib.Base64
import Catse.Logic.Base64
import Catse.Logic.Accept
import Catse.Lib.Md5
import Catse.Mongo.Md5
import Catse.Lib.Zip
import Catse.Myxml2.Archive
import Catse.Myxml2.Loading
import Catse.Common.Mailbox
import Catse.Admin.Machine
import Catse.Admin.Connections
import Catse.Admin.Custody
import Catse.Admin.Requests
import Catse.Admin.Replies
import Catse.Admin.Delivery
import Catse.Http.Machine
import Catse.Http.Requests
import Catse.Http.Delivery
import Catse.Log.Machine
import Catse.Log.Delivery
