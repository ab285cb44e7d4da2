import Conclave.Lib.Entries
import Conclave.Lib.Framing
import Conclave.Lib.Channel
import Conclave.Tls.Messages
import Conclave.Tls.Record
import Conclave.Tls.Record12
import Conclave.Tls.Handshake
import Conclave.Tls.Connect
import Conclave.Tls.Authentication
import Conclave.Tls.Tls12
import Conclave.Tls.Packing
import Conclave.Tls.Stream
import Conclave.Tls.Reads
import Conclave.Js.Shapes
import Conclave.Js.Ordered
import Conclave.Js.Layout
import Conclave.Js.Operations
import Conclave.Js.Indistinguishable
import Conclave.Js.Versions
import Conclave.Js.Guards
import Conclave.Arena.Slab
import Conclave.Lib.Codec
import Conclave.Arena.Handles
import Conclave.Browser.Opfs
import Conclave.Browser.OpfsFiles
import Conclave.Lib.Run
import Conclave.Sched.Pool
import Conclave.Sched.Jobs
import Conclave.Sched.Drain
import Conclave.Net.Hpack
import Conclave.Net.Http2
import Conclave.Net.Credit
import Conclave.Net.Demux
import Conclave.Net.Huffman
import Conclave.Net.HpackBlocks
import Conclave.Browser.IndexedDb
import Conclave.Browser.IndexedDbDisk
import Conclave.Js.Bytecode
import Conclave.Js.CodeCache
import Conclave.Js.CodeCacheReads
import Conclave.Net.Replenish
import Conclave.Browser.FrameCodec
import Conclave.Browser.FrameRoundTrip
import Conclave.Net.LifeCycle
import Conclave.Lib.Text
import Conclave.Net.Hsts
import Conclave.Net.Retry
import Conclave.Net.Upgrade
import Conclave.Net.Dns
import Conclave.Net.SingleFlight
import Conclave.Lib.Transducer
import Conclave.Lib.Utf8
import Conclave.Net.Sse
import Conclave.Net.SseFraming
import Conclave.Net.SseLines
import Conclave.Net.SseStream
import Conclave.Net.H2Drive
import Conclave.Net.HpackCut
import Conclave.Net.HpackSync
import Conclave.Lib.Csp3
import Conclave.Net.Csp
import Conclave.Net.CspMatching
import Conclave.Net.CspLevel3
import Conclave.Dom.Document
import Conclave.Dom.Edits
import Conclave.Dom.Operations
import Conclave.Dom.Marks
import Conclave.Dom.Shape
import Conclave.Dom.Effects
import Conclave.Dom.Dirty
import Conclave.Dom.ById
import Conclave.Wasm.Memory
import Conclave.Wasm.Sandbox
import Conclave.Browser.Scheduler
import Conclave.Browser.Timers
import Conclave.Ipc.RendererHost
import Conclave.Ipc.Sites
import Conclave.Ipc.Cutting
import Conclave.Ipc.Isolation
import Conclave.Lib.Decoder
import Conclave.Lib.Encodings
import Conclave.Unicode.Encoding
import Conclave.Unicode.Decoding
import Conclave.Unicode.FourBytes
import Conclave.Unicode.Standard
import Conclave.Crypto.BigInt
import Conclave.Crypto.Division
import Conclave.Crypto.Limbwise
import Conclave.Crypto.Euclid
import Conclave.Js.Gc
import Conclave.Js.GcHeap
import Conclave.Net.Cache
import Conclave.Lib.Recency
import Conclave.Net.CacheStore
import Conclave.Net.WebSocket
import Conclave.Net.WebSocketRecv
import Conclave.Net.CookiePartitions
import Conclave.Net.CookieScope
import Conclave.Net.CacheFiles
import Conclave.Urls.Parse
import Conclave.Urls.Dots
import Conclave.Net.HpackInts
import Conclave.Net.HuffmanImage
import Conclave.Compression.Deflate
import Conclave.Compression.Canonical
import Conclave.Js.Redundancy
import Conclave.Js.ValueClasses
import Conclave.Net.Chunked
import Conclave.Net.ChunkedFraming
import Conclave.Net.ChunkedAgreement
import Conclave.Urls.References
import Conclave.Urls.Resolution
import Conclave.Urls.Addresses
import Conclave.Urls.Authority
import Conclave.Urls.RoundTrip
import Conclave.Lib.TreeOrder
import Conclave.Dom.TreeWalker
import Conclave.Dom.Range
import Conclave.Dom.Deletion
import Conclave.Lib.Stretches
import Conclave.Unicode.Reorder
import Conclave.Js.NanBox
import Conclave.Crypto.Modular
import Conclave.Crypto.Inverse
import Conclave.Crypto.Octets
import Conclave.Crypto.Primality
import Conclave.Crypto.Rsa
import Conclave.Crypto.RsaVerify
import Conclave.Urls.Ipv6
import Conclave.Net.WebSocketStrict
import Conclave.Crypto.Gcm
import Conclave.Crypto.GcmExact
import Conclave.Net.Quic
import Conclave.Net.QuicInitial
import Conclave.Lib.Decimal
import Conclave.Net.CacheRefresh
import Conclave.Net.CookieFile
import Conclave.Lib.Blocks
import Conclave.Crypto.Poly1305
import Conclave.Crypto.PolyExact
import Conclave.Crypto.ChaCha
import Conclave.Crypto.HashesExact
import Conclave.Crypto.Hmac
import Conclave.Js.CodeCacheRoundTrip
import Conclave.Crypto.Checksums
import Conclave.Crypto.Pbkdf2
import Conclave.Crypto.Sha3
